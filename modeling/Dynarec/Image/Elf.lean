/-
  Dynarec.Image.Elf

  The ELF container, as far as loading needs it: the header and the program
  headers, of either class and byte order. The rest of a file is only checked.
-/
import Dynarec.Image.Elf.Linking

namespace Dynarec.Elf

/-- Check the sections and the dynamic table. -/
def checkLinking (c : FileClass) (s : Source) (h : Header) (segments : List Segment)
    (sections : List Section) : Except Defect Unit := do
  checkTextSection s sections h.namesIndex
  checkSymbolSection c s sections
  match ← readDynamic c s segments with
  | none => pure ()
  | some t => t.check c s h.machine segments
  checkRelocationSections s sections
  checkSection s sections Section.versionSymbols
  checkSection s sections Section.versionDefinitions
  checkSection s sections Section.versionNeeds

/-- Read the header and the program headers, and check the rest. -/
def parse (bytes : ByteArray) : Except Defect File := do
  let (c, s) ← identify bytes
  let h ← readHeader c s
  let segments ← readSegments c s h
  let sections ← readSections c s h
  checkLinking c s h segments sections
  return {
    wide := c.wide
    littleEndian := s.littleEndian
    machine := h.machine.toUInt16
    entry := h.entry.toUInt64
    segments }

/-- Read the headers; a defect is told by its message. -/
def parser : Parser := fun bytes =>
  match parse bytes with
  | .ok file => .ok file
  | .error defect => .error defect.message

end Dynarec.Elf
