/-
  Dynarec.Memory.Layout

  The guest address map: a short list of regions, each backed by memory or a
  device, or an alias of another region. Resolution finds the region behind an
  address and has no side effects.
-/
import Dynarec.Fault
import Dynarec.Instruction.Listing

namespace Dynarec

/-- Physical form of an address: the cached and uncached segments are folded away. -/
@[inline]
def physical (addr : UInt32) : UInt32 :=
  if 0xa0000000 ≤ addr then addr - 0xa0000000 else addr &&& 0x7fffffff

/-- What stands behind a region. -/
inductive Backing where
  | ram
  | rom
  | device
  /-- Another region of the same map, by position. -/
  | aliasOf (target : Nat)
deriving DecidableEq, Inhabited

/-- The kind of memory behind a region that is no alias. -/
@[inline]
def Backing.kind : Backing → RegionKind
  | .device => .device
  | _ => .direct

/-- A range of physical addresses. -/
structure Region where
  base : UInt32
  length : UInt32
  backing : Backing
  /-- Guest code may run from here and gets entries. -/
  code : Bool
deriving DecidableEq, Inhabited

namespace Region

@[inline]
def contains (r : Region) (paddr : UInt32) : Bool :=
  r.base ≤ paddr && paddr - r.base < r.length

def isAlias (r : Region) : Bool :=
  match r.backing with
  | .aliasOf _ => true
  | _ => false

/-- Whether host memory stands behind the region itself. -/
def isDirect (r : Region) : Bool :=
  match r.backing with
  | .ram | .rom => true
  | _ => false

end Region

namespace Layout

/-- Whether the chain of aliases from region `current`, met on the way from region
`start`, ends in at most `hops` further steps. -/
def chainError? (regions : Array Region) (start : Nat) : Nat → Nat → Option LayoutError
  | hops, current =>
    match regions[current]? with
    | some { backing := .aliasOf target, .. } =>
      if regions.size ≤ target then some (.missingTarget start target)
      else
        match hops with
        | 0 => some (.cyclicAlias start)
        | hops + 1 => chainError? regions start hops target
    | _ => none

/-- What is wrong with one region of the list. -/
def regionError? (regions : Array Region) (index : Nat) (r : Region) : Option LayoutError :=
  if r.length = 0 then some (.emptyRegion index r.base)
  else if 4294967296 ≤ r.base.toNat + (r.length.toNat - 1) then some (.wrapsAround index r.base)
  else chainError? regions index regions.size index

/-- What is wrong with the first bad region from `index` on. -/
def errorFrom? (regions : Array Region) : Nat → List Region → Option LayoutError
  | _, [] => none
  | index, r :: rest =>
    match regionError? regions index r with
    | some e => some e
    | none => errorFrom? regions (index + 1) rest

/-- What is wrong with the first bad region. -/
def error? (regions : Array Region) : Option LayoutError := errorFrom? regions 0 regions.toList

end Layout

/-- A well-formed address map: no region is empty or wraps around, and every alias
leads to a region that is none. -/
structure Layout where
  regions : Array Region
  valid : Layout.error? regions = none

/-- Where an address leads. -/
structure Resolved where
  /-- Position of the region behind all aliases. -/
  index : Nat
  /-- Byte offset inside that region. -/
  offset : UInt32
  /-- Physical address inside that region. -/
  paddr : UInt32
  kind : RegionKind
deriving DecidableEq, Inhabited

namespace Layout

instance : Inhabited Layout := ⟨{ regions := #[], valid := rfl }⟩

/-- The map of a list of regions, if it is well formed. -/
def ofRegions (regions : Array Region) : Except LayoutError Layout :=
  match h : error? regions with
  | none => .ok { regions, valid := h }
  | some e => .error e

/-- Follow at most `hops` aliases. -/
def follow (regions : Array Region) : Nat → Nat → Nat
  | 0, index => index
  | hops + 1, index =>
    match regions[index]? with
    | some { backing := .aliasOf target, .. } => follow regions hops target
    | _ => index

/-- Position of the region behind all aliases. -/
def canonical (l : Layout) (index : Nat) : Nat := follow l.regions l.regions.size index

/-- Where the address leads; the first region that holds it counts. -/
@[inline]
def resolve (l : Layout) (addr : UInt32) : Except Fault Resolved :=
  let paddr := physical addr
  match l.regions.findIdx? (·.contains paddr) with
  | none => .error (.noMapping addr)
  | some found =>
    let index := l.canonical found
    let region := l.regions.getD found default
    let behind := l.regions.getD index default
    let offset := (paddr - region.base) % behind.length
    .ok {
      index
      offset
      paddr := behind.base + offset
      kind := behind.backing.kind }

/-- Whether the region itself holds code that may be cached. -/
def isCode (l : Layout) (index : Nat) : Bool :=
  match l.regions[index]? with
  | some r => r.code && r.isDirect
  | none => false

/-- Whether the region itself is memory that guest code cannot change. -/
@[inline]
def isReadOnly (l : Layout) (index : Nat) : Bool :=
  match l.regions[index]? with
  | some { backing := .rom, .. } => true
  | _ => false

end Layout

end Dynarec
