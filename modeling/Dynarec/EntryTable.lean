/-
  Dynarec.EntryTable

  The table of entries: one slot per word of every region that may hold code,
  shared by all aliases of the region. A slot says how to run the guest code
  that starts at its word.

  Every slot where code starts records how many words that code spans. A write
  clears the slots of the words it touches and, looking back over a bounded
  window, those whose span reaches into them. A mark on every word that was
  ever covered lets writes to other words pass at once.
-/
import Dynarec.Memory.Basic

namespace Dynarec

/-- Number of a piece of generated code. -/
abbrev CodeId := UInt32

/-- How to run the guest code at a word. -/
inductive Entry where
  /-- Unknown, or out of date. -/
  | null
  /-- A block starts here; ask for it. -/
  | pending
  /-- A block that clears memory starts here. -/
  | memset
  /-- Generated code, entered at an instruction offset of its block. -/
  | code (id : CodeId) (offset : Nat)
deriving DecidableEq, Inhabited

namespace Entry

def isNull (e : Entry) : Bool := e == .null

def codeId? : Entry → Option CodeId
  | .code id _ => some id
  | _ => none

end Entry

/-- A range of physical addresses with slots. -/
structure TableRegion where
  base : UInt32
  length : UInt32
  /-- Length of the region behind all aliases; offsets wrap at it. -/
  canonicalLength : UInt32
  /-- First slot of that region. -/
  first : Nat
deriving DecidableEq, Inhabited

/-- Place of an address in the table. -/
structure SlotPosition where
  /-- First slot of the region. -/
  first : Nat
  /-- Number of slots of the region. -/
  slots : Nat
  /-- Slot of the address, counted from `first`. -/
  word : Nat
deriving DecidableEq, Inhabited

/-- The table of entries. -/
structure EntryTable where
  regions : List TableRegion := []
  slots : Array Entry := #[]
  /-- Words spanned by the code that starts at a slot. -/
  spans : Array Nat := #[]
  /-- Words that some span covered. -/
  covered : Array Bool := #[]
  /-- Number of slots whose code can reach a word, the word's own included. -/
  window : Nat := 3
  /-- Number of invalidations that cleared something. -/
  invalidations : Nat := 0
deriving Inhabited

namespace EntryTable

/-- Slots needed for a region. -/
def slotCount (length : UInt32) : Nat := (length.toNat + 3) / 4

/-- First slots of the regions that hold code themselves, and the total. -/
def placeRegions (layout : Layout) : Array (Option Nat) × Nat :=
  (Array.range layout.regions.size).foldl
    (fun (bases, total) i =>
      if layout.isCode i then
        (bases.push (some total), total + slotCount (layout.regions.getD i default).length)
      else (bases.push none, total))
    (#[], 0)

/-- The table of an address map, empty. Blocks are decoded with at most
`maxBlockOps` instructions, and a delay slot can make them one longer. -/
def ofLayout (layout : Layout) (maxBlockOps : Nat) : EntryTable :=
  let (bases, total) := placeRegions layout
  let regions := (List.range layout.regions.size).filterMap fun i =>
    let behind := layout.canonical i
    let region := layout.regions.getD i default
    match bases[behind]? with
    | some (some first) =>
      some {
        base := region.base
        length := region.length
        canonicalLength := (layout.regions.getD behind default).length
        first : TableRegion }
    | _ => none
  { regions
    slots := Array.replicate total .null
    spans := Array.replicate total 0
    covered := Array.replicate total false
    window := max maxBlockOps 2 + 1 }

/-- The notice about a new table. -/
def readyNotice (t : EntryTable) : Notice := .entryTableReady t.slots.size t.regions.length

/-- Place of an address; the first region with slots that holds it counts. -/
@[inline]
def locate (t : EntryTable) (addr : UInt32) : Option SlotPosition :=
  let paddr := physical addr
  match t.regions.find? fun r => r.base ≤ paddr && paddr - r.base < r.length with
  | none => none
  | some r =>
    some {
      first := r.first
      slots := slotCount r.canonicalLength
      word := ((paddr - r.base) % r.canonicalLength).toNat / 4 }

/-- Slot of an address, if it may hold code. -/
@[inline]
def index? (t : EntryTable) (addr : UInt32) : Option Nat :=
  match t.locate addr with
  | some p => some (p.first + p.word)
  | none => none

/-- Number of slots. -/
def size (t : EntryTable) : Nat := t.slots.size

/-- Content of a slot; null beyond the end. -/
@[inline]
def load (t : EntryTable) (slot : Nat) : Entry := t.slots.getD slot .null

/-- Entry of an address; null for addresses without a slot. -/
@[inline]
def get (t : EntryTable) (addr : UInt32) : Entry :=
  match t.index? addr with
  | some slot => t.load slot
  | none => .null

/-- Change a slot. -/
def store (t : EntryTable) (slot : Nat) (e : Entry) : EntryTable :=
  { t with slots := t.slots.setIfInBounds slot e }

/-- Change a slot if it still holds `current`; says whether it did. -/
def compareExchange (t : EntryTable) (slot : Nat) (current new : Entry) : Bool × EntryTable :=
  if t.load slot = current then (true, t.store slot new) else (false, t)

/-- Set `n` marks from `slot` on. -/
def cover : Nat → Nat → Array Bool → Array Bool
  | 0, _, marks => marks
  | n + 1, slot, marks => cover n (slot + 1) (marks.setIfInBounds slot true)

/-- Record that code starting at a slot spans `ops` words. An exact span replaces
the previous one, any other only raises it. -/
def noteSpan (t : EntryTable) (slot ops : Nat) (exact : Bool) : EntryTable :=
  let ops := min ops 65535
  { t with
    spans := t.spans.modify slot fun old => if exact then ops else max old ops
    covered := cover (min (slot + ops) t.covered.size - slot) slot t.covered }

/-- Whether any of the `n` words from `slot` on was ever covered. -/
def anyCovered (t : EntryTable) : Nat → Nat → Bool
  | 0, _ => false
  | n + 1, slot => t.covered.getD slot false || t.anyCovered n (slot + 1)

/-- Clear, among the `n` slots from `word` on, those whose code overlaps the words
from `start` on; counts the slots that were not clear before. -/
def sweep (spans : Array Nat) (base start : Nat) :
    Nat → Nat → Nat → Array Entry → Nat × Array Entry
  | 0, _, cleared, slots => (cleared, slots)
  | n + 1, word, cleared, slots =>
    let slot := base + word
    let span := spans.getD slot 0
    let overlaps := start ≤ word || (span != 0 && start < word + span)
    if overlaps && !(slots.getD slot .null).isNull then
      sweep spans base start n (word + 1) (cleared + 1) (slots.setIfInBounds slot .null)
    else sweep spans base start n (word + 1) cleared slots

/-- Clear every slot whose code overlaps the `length` bytes at `addr`, and count
them. Addresses without slots are ignored. -/
def invalidate (t : EntryTable) (addr length : UInt32) : Nat × EntryTable :=
  if length = 0 then (0, t)
  else
    match t.locate (addr &&& 0xfffffffc) with
    | none => (0, t)
    | some p =>
      let bytes := (addr &&& 3).toNat + length.toNat
      let stop := min (p.word + (bytes + 3) / 4) p.slots
      if t.anyCovered (stop - p.word) (p.first + p.word) then
        let scan := p.word - (t.window - 1)
        let (cleared, slots) := sweep t.spans p.first p.word (stop - scan) scan 0 t.slots
        (cleared,
          { t with slots, invalidations := if cleared = 0 then t.invalidations else t.invalidations + 1 })
      else (0, t)

/-- Whether code may overlap the `length` bytes at `addr`. Where it cannot, there is nothing to
invalidate. -/
def mayReach (t : EntryTable) (addr length : UInt32) : Bool :=
  match t.locate (addr &&& 0xfffffffc) with
  | none => false
  | some p =>
    let bytes := (addr &&& 3).toNat + length.toNat
    t.anyCovered (min (p.word + (bytes + 3) / 4) p.slots - p.word) (p.first + p.word)

/-- The notice about an invalidation, if it cleared something. -/
def invalidatedNotice? (cleared : Nat) (addr length : UInt32) : List Notice :=
  if cleared = 0 then [] else [.invalidated cleared addr length]

/-- Clear every slot. -/
def invalidateAll (t : EntryTable) : EntryTable :=
  { t with slots := Array.replicate t.slots.size .null, invalidations := t.invalidations + 1 }

/-- Clear one slot if it leads into the code `id`. -/
def retireSlot (id : CodeId) (slots : Array Entry) (slot : Nat) : Array Entry :=
  if (slots.getD slot .null).codeId? = some id then slots.setIfInBounds slot .null else slots

/-- Clear the given slots as far as they lead into the code `id`. -/
def retire (t : EntryTable) (id : CodeId) (which : Array Nat) : EntryTable :=
  { t with slots := which.foldl (retireSlot id) t.slots }

end EntryTable

end Dynarec
