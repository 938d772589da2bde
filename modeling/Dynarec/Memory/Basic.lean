/-
  Dynarec.Memory.Basic

  Guest memory: an address map together with what its regions hold, and the
  host's own reads and writes.
-/
import Dynarec.Memory.Device
import Dynarec.Memory.Layout

namespace Dynarec

/-- What a region holds. -/
inductive Contents (δ : Type) where
  /-- Bytes of RAM or ROM. -/
  | bytes (data : ByteArray)
  | device (device : δ)
  /-- Nothing of its own: an alias. -/
  | none

/-- A region and what it starts with. -/
structure RegionSpec (δ : Type) where
  region : Region
  /-- First bytes of memory; the rest is zero. -/
  data : ByteArray := ByteArray.empty
  device : Option δ := none

namespace RegionSpec

variable {δ : Type}

/-- Zero-filled memory. -/
def ram (base length : UInt32) : RegionSpec δ :=
  { region := { base, length, backing := .ram, code := true } }

/-- Memory that guest code cannot change, starting with `data`. -/
def rom (base length : UInt32) (data : ByteArray) : RegionSpec δ :=
  { region := { base, length, backing := .rom, code := true }, data }

/-- A device. -/
def ofDevice (base length : UInt32) (device : δ) : RegionSpec δ :=
  { region := { base, length, backing := .device, code := false }, device := some device }

/-- Another name for the region at position `target`. -/
def aliasOf (base length : UInt32) (target : Nat) : RegionSpec δ :=
  { region := { base, length, backing := .aliasOf target, code := true } }

/-- Code fetched from the region is never cached. -/
def withoutCode (s : RegionSpec δ) : RegionSpec δ :=
  { s with region := { s.region with code := false } }

/-- What the region holds at first. -/
def contents (s : RegionSpec δ) : Contents δ :=
  match s.region.backing with
  | .ram | .rom =>
    let length := s.region.length.toNat
    .bytes (Bytes.copy s.data (min s.data.size length) 0 0 (Bytes.zeros length))
  | .device =>
    match s.device with
    | some d => .device d
    | none => .none
  | .aliasOf _ => .none

end RegionSpec

/-- An address map and what its regions hold, position by position. -/
structure Memory (δ : Type) where
  layout : Layout
  contents : Array (Contents δ)

namespace Memory

variable {δ : Type}

instance : Inhabited (Memory δ) := ⟨{ layout := default, contents := #[] }⟩

/-- Memory of a list of regions, if their map is well formed. -/
def ofRegions (specs : Array (RegionSpec δ)) : Except LayoutError (Memory δ) :=
  match Layout.ofRegions (specs.map (·.region)) with
  | .error e => .error e
  | .ok layout => .ok { layout, contents := specs.map (·.contents) }

/-- Bytes of a region that is memory itself. -/
@[inline]
def bytes? (m : Memory δ) (index : Nat) : Option ByteArray :=
  match m.contents[index]? with
  | some (.bytes data) => some data
  | _ => none

/-- Number of bytes of a region that is memory itself. -/
@[inline]
def size? (m : Memory δ) (index : Nat) : Option Nat :=
  match m.contents[index]? with
  | some (.bytes data) => some data.size
  | _ => none

/-- Device of a region. -/
def device? (m : Memory δ) (index : Nat) : Option δ :=
  match m.contents[index]? with
  | some (.device d) => some d
  | _ => none

/-- Change the bytes of a region. -/
@[inline]
def modifyBytes (m : Memory δ) (index : Nat) (f : ByteArray → ByteArray) : Memory δ :=
  { m with
    contents := m.contents.modify index fun
      | .bytes data => .bytes (f data)
      | other => other }

/-- Replace the device of a region. -/
def setDevice (m : Memory δ) (index : Nat) (d : δ) : Memory δ :=
  { m with contents := m.contents.setIfInBounds index (.device d) }

/-- Where `length` bytes of memory at `addr` are: a region and an offset. -/
def locate (m : Memory δ) (addr : UInt32) (length : Nat) : Except Fault (Nat × Nat) :=
  match m.layout.resolve addr with
  | .error f => .error f
  | .ok r =>
    match m.size? r.index with
    | none => .error (.noMapping addr)
    | some size =>
      if r.offset.toNat + length ≤ size then .ok (r.index, r.offset.toNat)
      else .error (.outOfBounds addr)

/-- `length` bytes of memory at `addr`. -/
def slice (m : Memory δ) (addr : UInt32) (length : Nat) : Except Fault ByteArray :=
  match m.locate addr length with
  | .error f => .error f
  | .ok (index, offset) =>
    match m.bytes? index with
    | some data => .ok (data.extract offset (offset + length))
    | none => .error (.noMapping addr)

/-- The word at `addr`. -/
def readWord (m : Memory δ) (addr : UInt32) : Except Fault UInt32 :=
  match m.locate addr 4 with
  | .error f => .error f
  | .ok (index, offset) =>
    match m.bytes? index with
    | some data => .ok (Bytes.wordAt data offset)
    | none => .error (.noMapping addr)

/-- Copy bytes into memory at `addr`; the host may change ROM. A fault leaves memory as it was. -/
def writeBytes (m : Memory δ) (addr : UInt32) (src : ByteArray) : Option Fault × Memory δ :=
  match m.locate addr src.size with
  | .error f => (some f, m)
  | .ok (index, offset) => (none, m.modifyBytes index (Bytes.copy src src.size 0 offset))

/-- Write one word at `addr`. -/
def writeWord (m : Memory δ) (addr value : UInt32) : Option Fault × Memory δ :=
  match m.locate addr 4 with
  | .error f => (some f, m)
  | .ok (index, offset) => (none, m.modifyBytes index fun data => Bytes.setWord data offset value)

/-- Write words one after the other from `addr` on, up to the first fault. -/
def writeWords (m : Memory δ) (addr : UInt32) : List UInt32 → Option Fault × Memory δ
  | [] => (none, m)
  | w :: rest =>
    match m.writeWord addr w with
    | (some f, m) => (some f, m)
    | (none, m) => m.writeWords (addr + 4) rest

/-- Set `length` bytes at `addr` to `value`. A fault leaves memory as it was. -/
def fillBytes (m : Memory δ) (addr : UInt32) (length : Nat) (value : UInt8) :
    Option Fault × Memory δ :=
  match m.locate addr length with
  | .error f => (some f, m)
  | .ok (index, offset) => (none, m.modifyBytes index (Bytes.fill value length offset))

/-- Number of bytes of all regions that are memory. -/
def directBytes (m : Memory δ) : Nat :=
  m.contents.foldl (fun total c => match c with
    | .bytes data => total + data.size
    | _ => total) 0

end Memory

end Dynarec
