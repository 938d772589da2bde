/-
  Dynarec.Image.Elf.Linking

  The parts of an ELF file that are there for linkers: texts, symbols,
  relocations, versions and the dynamic table. Loading uses none of them, but a
  file in which they do not lie where it says is refused.
-/
import Dynarec.Image.Elf.Basic

namespace Dynarec.Elf

/-! ## Texts -/

/-- Check texts that each end in a zero byte. -/
def checkTexts (bytes : List UInt8) : Except Defect Unit :=
  match bytes with
  | [] => .ok ()
  | b :: rest =>
    let text := (b :: rest).takeWhile (· ≠ 0)
    if (String.fromUTF8? ⟨text.toArray⟩).isSome then checkTexts (rest.drop text.length)
    else .error (.notText (rest.length + 1))
termination_by bytes.length
decreasing_by simp only [List.length_cons, List.length_drop]; omega

/-- Check the table of texts of `size` bytes at `offset`. -/
def checkTextTable (s : Source) (offset size : Nat) : Except Defect Unit :=
  if s.size < offset + size then
    .error (.textsOutOfBounds size offset s.size (decide (wordLimit ≤ offset + size)))
  else checkTexts (s.bytes.extract offset (offset + size)).toList

/-- Section number that stands for one too large for its field. -/
def extendedIndex : Nat := 0xffff

/-- Check the table of texts in a section. A section that does not exist has none. -/
def checkTextSection (s : Source) (sections : List Section) (index : Nat) : Except Defect Unit := do
  let index := if index = extendedIndex then ((sections.head?).map (·.link)).getD index else index
  match sections[index]? with
  | none => return
  | some t =>
    t.check s.size
    checkTextTable s t.offset t.size

/-! ## Symbols, relocations and versions -/

/-- Check a table of symbols. -/
def checkSymbols (c : FileClass) (s : Source) (offset count : Nat) : Except Defect Unit := do
  if wordLimit ≤ count * c.symbol then throw (.tooManySymbols offset count)
  let _ ← s.slice offset (count * c.symbol)

/-- Check the last section with symbols, and its texts. -/
def checkSymbolSection (c : FileClass) (s : Source) (sections : List Section) : Except Defect Unit := do
  match sections.reverse.find? fun t => t.kind == Section.symbols with
  | none => return
  | some t =>
    checkSymbols c s t.offset (t.size / t.entrySize)
    checkTextSection s sections t.link

/-- The contents of a table of relocations. -/
def relocationTable (s : Source) (offset size : Nat) : Except Defect Source :=
  if size = 0 then .ok { s with bytes := .empty } else s.slice offset size

/-- Check all sections with relocations. -/
def checkRelocationSections (s : Source) (sections : List Section) : Except Defect Unit :=
  sections.forM fun t => do
    if t.kind = Section.relocations || t.kind = Section.relocationsWithAddend then
      t.check s.size
      let _ ← relocationTable s t.offset t.size

/-- Check the first section of a kind. -/
def checkSection (s : Source) (sections : List Section) (kind : Nat) : Except Defect Unit := do
  match sections.find? fun t => t.kind == kind with
  | none => return
  | some t =>
    let _ ← s.slice t.offset t.size

/-! ## The dynamic table -/

/-- Entries of the dynamic table: a kind and a number. -/
abbrev DynamicTable := List (Nat × Nat)

namespace DynamicTable

def pltSize : Nat := 2
def hash : Nat := 4
def texts : Nat := 5
def symbols : Nat := 6
def withAddend : Nat := 7
def withAddendSize : Nat := 8
def textsSize : Nat := 10
def plain : Nat := 17
def plainSize : Nat := 18
def pltKind : Nat := 20
def plt : Nat := 23
def filteredHash : Nat := 0x6ffffef5

/-- The last number given for a kind. -/
def get? (t : DynamicTable) (kind : Nat) : Option Nat := t.reverse.lookup kind

/-- The last number given for a kind, or zero. -/
def get (t : DynamicTable) (kind : Nat) : Nat := (t.get? kind).getD 0

/-- Where an address of memory comes from: the first loaded segment around it tells. -/
def offsetOf? (segments : List Segment) (addr : Nat) : Option Nat :=
  match segments.find? fun p =>
    p.kind == Segment.loadable && p.virtualAddr.toNat ≤ addr &&
      addr - p.virtualAddr.toNat < p.memorySize.toNat with
  | none => none
  | some p =>
    let offset := p.offset.toNat + (addr - p.virtualAddr.toNat)
    if offset < wordLimit then some offset else none

/-- Place of the table that a kind of entry names, if there is one. -/
def place? (t : DynamicTable) (segments : List Segment) (kind : Nat) : Option Nat :=
  (t.get? kind).bind (offsetOf? segments)

/-- Place of the table that a kind of entry names, or zero. -/
def place (t : DynamicTable) (segments : List Segment) (kind : Nat) : Nat :=
  (t.place? segments kind).getD 0

end DynamicTable

/-- Entries up to the first of kind zero. -/
def entriesToEnd : List (List Nat) → DynamicTable
  | [] => []
  | fields :: rest =>
    let kind := fields.getD 0 0
    if kind = 0 then [] else (kind, fields.getD 1 0) :: entriesToEnd rest

/-- The dynamic table, if there is one. -/
def readDynamic (c : FileClass) (s : Source) (segments : List Segment) :
    Except Defect (Option DynamicTable) := do
  match segments.find? fun p => p.kind == Segment.dynamic with
  | none => return none
  | some p =>
    if p.fileSize = 0 then return some []
    match s.slice p.offset.toNat p.fileSize.toNat with
    | .error _ => throw (.dynamicOutOfBounds p.offset.toNat p.fileSize.toNat)
    | .ok contents =>
      let count := contents.size / Source.recordSize c.dynamicEntry
      let entries ← contents.records c.dynamicEntry count 0
      return some (entriesToEnd entries)

/-! ## What the dynamic table names -/

/-- The largest of `count` numbers of four bytes and of `most`. -/
def largestWord (s : Source) : Nat → Nat → Nat → Except Defect Nat
  | 0, _, most => return most
  | count + 1, offset, most => do
    let n ← s.number offset 4
    largestWord s count (offset + 4) (max most n)

/-- The number behind the last symbol of a chain from `symbol` on, in at most `fuel` steps.
A chain ends with an odd number. -/
def chainEnd (s : Source) : Nat → Nat → Nat → Except Defect Nat
  | 0, _, symbol => return symbol
  | fuel + 1, offset, symbol => do
    let n ← s.number offset 4
    if n % 2 = 1 then return symbol + 1
    chainEnd s fuel (offset + 4) (symbol + 1)

/-- Number of symbols by the hash table with filters. -/
def filteredHashLength (c : FileClass) (s : Source) (offset : Nat) : Except Defect Nat := do
  let buckets ← s.number offset 4
  let first ← s.number (offset + 4) 4
  let filters ← s.number (offset + 8) 4
  if buckets = 0 || first = 0 || filters = 0 then throw (.emptyHashTable buckets first filters)
  let bucketsAt := offset + 16 + filters * c.address
  let last ← largestWord s buckets bucketsAt 0
  if last < first then return 0
  chainEnd s s.size (bucketsAt + buckets * 4 + (last - first) * 4) last

/-- Machines whose hash tables have wide numbers in wide files. -/
def wideHashMachines : List Nat := [22, 41]

/-- Number of symbols by the hash table without filters. -/
def hashLength (c : FileClass) (s : Source) (machine offset : Nat) : Except Defect Nat :=
  s.number (min (offset + 4) (wordLimit - 1))
    (if c.wide && wideHashMachines.contains machine then 8 else 4)

/-- Numbers of the symbols that relocations refer to. -/
def relocatedSymbols (c : FileClass) (s : Source) (addend : Bool) : Except Defect (List Nat) := do
  let sizes := c.relocation addend
  let relocations ← s.records sizes (s.size / Source.recordSize sizes) 0
  return relocations.map fun fields => fields.getD 1 0 >>> c.symbolShift

/-- Number of symbols by the hash tables of a dynamic table. -/
def DynamicTable.hashedSymbols (t : DynamicTable) (c : FileClass) (s : Source) (machine : Nat)
    (segments : List Segment) : Except Defect Nat :=
  match t.place? segments filteredHash, t.place? segments hash with
  | some offset, _ => filteredHashLength c s offset
  | none, some offset => hashLength c s machine offset
  | none, none => return 0

/-- Check the texts, relocations and symbols that a dynamic table names. There are at least as
many symbols as relocations refer to. -/
def DynamicTable.check (t : DynamicTable) (c : FileClass) (s : Source) (machine : Nat)
    (segments : List Segment) : Except Defect Unit := do
  checkTextTable s (t.place segments texts) (t.get textsSize)
  let relocated := fun (place size : Nat) (addend : Bool) => do
    relocatedSymbols c (← relocationTable s (t.place segments place) (t.get size)) addend
  let first ← relocated withAddend withAddendSize true
  let second ← relocated plain plainSize false
  let third ← relocated plt pltSize (t.get pltKind == withAddend)
  let hashed ← t.hashedSymbols c s machine segments
  let last := (first ++ second ++ third).foldl max 0
  checkSymbols c s (t.place segments symbols) (if last = 0 then hashed else max hashed (last + 1))

end Dynarec.Elf
