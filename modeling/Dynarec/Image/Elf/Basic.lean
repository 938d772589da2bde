/-
  Dynarec.Image.Elf.Basic

  Numbers in the bytes of an ELF file, and the records made of them: the file
  header, the program headers, which describe segments, and the section headers.
  Files come in two classes, whose addresses have 4 or 8 bytes, and in either
  byte order.
-/
import Dynarec.Bytes
import Dynarec.Image.Elf.Defect
import Dynarec.Image.Elf.File

namespace Dynarec.Elf

/-! ## Reading -/

/-- Bytes, and which way round their numbers are. -/
structure Source where
  bytes : ByteArray
  littleEndian : Bool

namespace Source

/-- Number of bytes. -/
def size (s : Source) : Nat := s.bytes.size

/-- The `size` bytes at `offset`. -/
def slice (s : Source) (offset size : Nat) : Except Defect Source :=
  if s.size ≤ offset then .error (.badOffset offset)
  else if s.size - offset < size then .error (.tooBig size (s.size - offset))
  else .ok { s with bytes := s.bytes.extract offset (offset + size) }

/-- All bytes from `offset` on, of which there is at least one. -/
def tail (s : Source) (offset : Nat) : Except Defect Source :=
  if s.size ≤ offset then .error (.badOffset offset)
  else .ok { s with bytes := s.bytes.extract offset s.size }

/-- The number in `size` bytes at `offset`. -/
def number (s : Source) (offset size : Nat) : Except Defect Nat := do
  let part ← s.slice offset size
  let digits := (List.range size).map (Bytes.byteAt part.bytes)
  return (if s.littleEndian then digits.reverse else digits).foldl (fun n b => n * 256 + b.toNat) 0

/-- Numbers of these sizes, one behind the other. -/
def fields (s : Source) : List Nat → Nat → Except Defect (List Nat)
  | [], _ => return []
  | size :: sizes, offset => do
    let n ← s.number offset size
    return n :: (← s.fields sizes (offset + size))

/-- The record at `offset` with fields of these sizes. -/
def record (s : Source) (offset : Nat) (sizes : List Nat) : Except Defect (List Nat) := do
  (← s.tail offset).fields sizes 0

/-- Bytes of a record with fields of these sizes. -/
def recordSize (sizes : List Nat) : Nat := sizes.foldl (· + ·) 0

/-- Up to `count` records, one behind the other. -/
def records (s : Source) (sizes : List Nat) : Nat → Nat → Except Defect (List (List Nat))
  | 0, _ => return []
  | count + 1, offset => do
    let r ← s.record offset sizes
    return r :: (← s.records sizes count (offset + recordSize sizes))

end Source

/-! ## Records -/

/-- Sizes of what a file is made of. -/
structure FileClass where
  wide : Bool
  /-- Bytes of an address. -/
  address : Nat
  /-- Fields of a program header. -/
  segmentHeader : List Nat
  /-- Fields of a section header. -/
  sectionHeader : List Nat
  /-- Bytes of a symbol. -/
  symbol : Nat
  /-- Bits of a relocation's info below the number of its symbol. -/
  symbolShift : Nat
deriving DecidableEq, Inhabited

namespace FileClass

/-- Files with addresses of 4 bytes. -/
def narrow : FileClass where
  wide := false
  address := 4
  segmentHeader := List.replicate 8 4
  sectionHeader := List.replicate 10 4
  symbol := 16
  symbolShift := 8

/-- Files with addresses of 8 bytes. -/
def broad : FileClass where
  wide := true
  address := 8
  segmentHeader := [4, 4, 8, 8, 8, 8, 8, 8]
  sectionHeader := [4, 4, 8, 8, 8, 8, 4, 4, 8, 8]
  symbol := 24
  symbolShift := 32

/-- Class of a file by its mark. -/
def ofMark? (mark : Nat) : Option FileClass :=
  if mark = 1 then some narrow else if mark = 2 then some broad else none

/-- Fields of the file header behind the identification. -/
def header (c : FileClass) : List Nat :=
  [2, 2, 4, c.address, c.address, c.address, 4, 2, 2, 2, 2, 2, 2]

/-- Fields of an entry of the dynamic table. -/
def dynamicEntry (c : FileClass) : List Nat := [c.address, c.address]

/-- Fields of a relocation, with or without an addend. -/
def relocation (c : FileClass) (addend : Bool) : List Nat :=
  List.replicate (if addend then 3 else 2) c.address

end FileClass

/-- The file header. -/
structure Header where
  machine : Nat
  entry : Nat
  /-- Place and number of the program headers. -/
  segmentsAt : Nat
  segmentCount : Nat
  /-- Place and number of the section headers. -/
  sectionsAt : Nat
  sectionCount : Nat
  /-- Section with the names of sections. -/
  namesIndex : Nat
deriving DecidableEq, Inhabited

/-- A program header by its fields. -/
def Segment.ofFields (wide : Bool) (fields : List Nat) : Segment :=
  let first := if wide then 2 else 1
  { kind := (fields.getD 0 0).toUInt32
    offset := (fields.getD first 0).toUInt64
    virtualAddr := (fields.getD (first + 1) 0).toUInt64
    physicalAddr := (fields.getD (first + 2) 0).toUInt64
    fileSize := (fields.getD (first + 3) 0).toUInt64
    memorySize := (fields.getD (first + 4) 0).toUInt64 }

/-- A part of the file with contents of one kind. -/
structure Section where
  name : Nat
  kind : Nat
  addr : Nat
  offset : Nat
  size : Nat
  /-- Another section that belongs to it. -/
  link : Nat
  /-- Bytes of an entry. -/
  entrySize : Nat
deriving DecidableEq, Inhabited

namespace Section

def symbols : Nat := 2
def relocationsWithAddend : Nat := 4
def noContents : Nat := 8
def relocations : Nat := 9
def versionDefinitions : Nat := 0x6ffffffd
def versionNeeds : Nat := 0x6ffffffe
def versionSymbols : Nat := 0x6fffffff

/-- A section header by its fields. -/
def ofFields (fields : List Nat) : Section where
  name := fields.getD 0 0
  kind := fields.getD 1 0
  addr := fields.getD 3 0
  offset := fields.getD 4 0
  size := fields.getD 5 0
  link := fields.getD 6 0
  entrySize := fields.getD 9 0

end Section

/-- One more than the largest 64-bit number. -/
def wordLimit : Nat := 18446744073709551616

/-- Check that the contents of a section lie inside of a file, and its memory below the end
of all addresses. -/
def Section.check (s : Section) (fileSize : Nat) : Except Defect Unit :=
  let overflows := fun n => decide (wordLimit ≤ n)
  if s.kind = noContents || s.size = 0 then .ok ()
  else if fileSize < s.offset + s.size then
    .error (.sectionOutOfBounds s.name s.offset s.size false (overflows (s.offset + s.size)))
  else if overflows (s.addr + s.size) then .error (.sectionOutOfBounds s.name s.addr s.size true true)
  else .ok ()

/-! ## The file header and the tables -/

/-- Bytes up to the end of the identification. -/
def identSize : Nat := 16

/-- The class and the byte order that the identification says. -/
def identify (bytes : ByteArray) : Except Defect (FileClass × Source) := do
  if bytes.size < identSize then throw .tooSmall
  let mark := fun i => ((bytes.data[i]?).getD 0).toNat
  match FileClass.ofMark? (mark 4) with
  | none => throw (.unknownClass (mark 4))
  | some c =>
    if mark 5 = 1 then return (c, { bytes, littleEndian := true })
    else if mark 5 = 2 then return (c, { bytes, littleEndian := false })
    else throw (.unknownByteOrder (mark 5))

/-- The file header. -/
def readHeader (c : FileClass) (s : Source) : Except Defect Header := do
  let fields ← s.fields c.header identSize
  return {
    machine := fields.getD 1 0
    entry := fields.getD 3 0
    segmentsAt := fields.getD 4 0
    segmentCount := fields.getD 9 0
    sectionsAt := fields.getD 5 0
    sectionCount := fields.getD 11 0
    namesIndex := fields.getD 12 0 }

/-- The program headers. -/
def readSegments (c : FileClass) (s : Source) (h : Header) : Except Defect (List Segment) := do
  if s.size / Source.recordSize c.segmentHeader < h.segmentCount then
    throw (.tooMany h.segmentCount "program headers")
  return (← s.records c.segmentHeader h.segmentCount h.segmentsAt).map (Segment.ofFields c.wide)

/-- The section headers. A table at offset zero is none. The first section is there even if
the table has no entries; it says how many there are when the file header cannot. -/
def readSections (c : FileClass) (s : Source) (h : Header) : Except Defect (List Section) := do
  if h.sectionsAt = 0 then return []
  let first := Section.ofFields (← s.record h.sectionsAt c.sectionHeader)
  let count := if h.sectionCount = 0 then first.size else h.sectionCount
  let size := Source.recordSize c.sectionHeader
  if s.size / size < count then throw (.tooMany count "section headers")
  let rest ← s.records c.sectionHeader (count - 1) (h.sectionsAt + size)
  return first :: rest.map Section.ofFields

end Dynarec.Elf
