/-
  Dynarec.Image.Elf.File

  What loading needs to know of an ELF file: the file header and the program
  headers, which describe segments. Numbers are as wide as the widest class of
  files has them.
-/

namespace Dynarec.Elf

/-- A part of the file that goes to memory, or something else in the program header table. -/
structure Segment where
  kind : UInt32
  offset : UInt64
  virtualAddr : UInt64
  physicalAddr : UInt64
  fileSize : UInt64
  memorySize : UInt64
deriving DecidableEq, Inhabited

namespace Segment

/-- Kind of the segments that are loaded. -/
def loadable : UInt32 := 1

/-- Kind of the segment that is the dynamic table. -/
def dynamic : UInt32 := 2

/-- Where the segment goes: the physical address, or the virtual one if that is zero. -/
def loadAddr (s : Segment) : UInt64 := if s.physicalAddr ≠ 0 then s.physicalAddr else s.virtualAddr

end Segment

/-- The headers of a file. -/
structure File where
  /-- Addresses have 8 bytes, not 4. -/
  wide : Bool
  littleEndian : Bool
  machine : UInt16
  entry : UInt64
  segments : List Segment
deriving DecidableEq, Inhabited

/-- The first four bytes of every file. -/
def magic : List UInt8 := [0x7f, 0x45, 0x4c, 0x46]

/-- Whether bytes begin as such a file does. -/
def isElf (bytes : ByteArray) : Bool := (bytes.extract 0 4).toList == magic

/-- A way to read the headers of a file, or to say what is wrong with it. -/
abbrev Parser := ByteArray → Except String File

end Dynarec.Elf
