/-
  Dynarec.Host.RegisterCache

  Guest registers held in host registers while code is generated. The cache
  hands out host registers for the operands of one instruction at a time,
  locks them until the instruction is done, and makes room by giving up the
  register that was not used for longest. Loads and write-backs come out as a
  list of transfers for the code being generated.
-/
import Dynarec.Host.Program

namespace Dynarec

/-- A transfer between a host register and the guest register file. -/
inductive RegisterTransfer where
  | load (host : HostReg) (guest : Reg)
  | store (host : HostReg) (guest : Reg)
deriving DecidableEq, Inhabited

/-- Use of one host register. -/
structure HostSlot where
  guest : Option Reg := none
  /-- The guest register file does not have the value yet. -/
  dirty : Bool := false
  /-- An operand of the instruction at hand. -/
  locked : Bool := false
  lastUse : Nat := 0
deriving DecidableEq, Inhabited

/-- Use of all host registers. -/
structure RegisterCache where
  slots : Cells 8 HostSlot := .replicate 8 {}
  /-- Number of uses so far. -/
  tick : Nat := 0
  /-- Number of write-backs made to free a register. -/
  spills : Nat := 0
deriving DecidableEq, Inhabited

namespace RegisterCache

/-- All host registers, lowest first. -/
def hosts : List HostReg := [0, 1, 2, 3, 4, 5, 6, 7]

/-- Forget every mapping; the count of write-backs stays. -/
def reset (c : RegisterCache) : RegisterCache := { spills := c.spills }

/-- Host register of a guest register. -/
def find? (c : RegisterCache) (guest : Reg) : Option HostReg :=
  hosts.find? fun h => c.slots[h].guest == some guest

/-- A free host register that is not locked. -/
def free? (c : RegisterCache) : Option HostReg :=
  hosts.find? fun h => c.slots[h].guest.isNone && !c.slots[h].locked

/-- The earlier used of two host registers, the first on a tie. -/
def older (c : RegisterCache) (best : Option HostReg) (h : HostReg) : Option HostReg :=
  if c.slots[h].locked then best
  else
    match best with
    | none => some h
    | some b => if c.slots[h].lastUse < c.slots[b].lastUse then some h else some b

/-- The host register, among those not locked, that was not used for longest. -/
def oldest? (c : RegisterCache) : Option HostReg := hosts.foldl c.older none

/-- Use a host register for the instruction at hand. -/
def touch (c : RegisterCache) (h : HostReg) : RegisterCache :=
  { c with
    slots := c.slots.set h { c.slots[h] with lastUse := c.tick + 1, locked := true }
    tick := c.tick + 1 }

/-- A host register handed out, with the transfers that made it available. -/
structure Allocation where
  host : HostReg
  transfers : List RegisterTransfer
  cache : RegisterCache
deriving DecidableEq, Inhabited

/-- Give up a host register, writing its value back if needed. -/
def evict (c : RegisterCache) (h : HostReg) : Allocation :=
  let slot := c.slots[h]
  let slots := c.slots.set h {}
  match slot.guest, slot.dirty with
  | some guest, true =>
    { host := h, transfers := [.store h guest], cache := { c with slots, spills := c.spills + 1 } }
  | _, _ => { host := h, transfers := [], cache := { c with slots } }

/-- A host register to use next: a free one, or else the one not used for longest.
There is none when all are locked. -/
def vacate? (c : RegisterCache) : Option Allocation :=
  match c.free? with
  | some h => some { host := h, transfers := [], cache := c }
  | none =>
    match c.oldest? with
    | some h => some (c.evict h)
    | none => none

/-- Map a host register to a guest register. -/
def assign (c : RegisterCache) (h : HostReg) (guest : Reg) : RegisterCache :=
  { c with slots := c.slots.set h { c.slots[h] with guest := some guest } }

/-- Mark whether a host register has to be written back. -/
def setDirty (c : RegisterCache) (h : HostReg) (dirty : Bool) : RegisterCache :=
  { c with slots := c.slots.set h { c.slots[h] with dirty } }

/-- Host register that holds the value of a guest register, loaded if needed. -/
def allocIn? (c : RegisterCache) (guest : Reg) : Option Allocation :=
  match c.find? guest with
  | some h => some { host := h, transfers := [], cache := c.touch h }
  | none =>
    match c.vacate? with
    | none => none
    | some a =>
      some {
        host := a.host
        transfers := a.transfers ++ [.load a.host guest]
        cache := (a.cache.assign a.host guest).touch a.host }

/-- Host register that will receive a new value of a guest register. Register zero is
never written back. -/
def allocOut? (c : RegisterCache) (guest : Reg) : Option Allocation :=
  match c.find? guest with
  | some h => some { host := h, transfers := [], cache := (c.setDirty h (guest ≠ 0)).touch h }
  | none =>
    match c.vacate? with
    | none => none
    | some a =>
      some {
        host := a.host
        transfers := a.transfers
        cache := ((a.cache.assign a.host guest).setDirty a.host (guest ≠ 0)).touch a.host }

/-- Host register for an intermediate value. -/
def allocTemp? (c : RegisterCache) : Option Allocation :=
  match c.vacate? with
  | none => none
  | some a =>
    some {
      host := a.host
      transfers := a.transfers
      cache := { a.cache with slots := a.cache.slots.set a.host {} }.touch a.host }

/-- The instruction at hand is done. -/
def releaseLocks (c : RegisterCache) : RegisterCache :=
  { c with slots := c.slots.map fun s => { s with locked := false } }

/-- Write-back of one host register, if needed. -/
def writeBack? (c : RegisterCache) (h : HostReg) : Option RegisterTransfer :=
  match c.slots[h].guest, c.slots[h].dirty with
  | some guest, true => some (.store h guest)
  | _, _ => none

/-- Write back every value the guest register file does not have; mappings stay. -/
def flushAll (c : RegisterCache) : List RegisterTransfer × RegisterCache :=
  (hosts.filterMap c.writeBack?,
    { c with slots := c.slots.map fun s => if s.guest.isSome then { s with dirty := false } else s })

/-- Write back every value the guest register file does not have and forget all mappings. -/
def unloadAll (c : RegisterCache) : List RegisterTransfer × RegisterCache :=
  (c.flushAll.1, { c with slots := .replicate 8 {} })

/-- Forget one mapping without writing it back. -/
def discard (c : RegisterCache) (guest : Reg) : RegisterCache :=
  match c.find? guest with
  | some h => { c with slots := c.slots.set h {} }
  | none => c

/-- Guest register mapped to a host register number. -/
def guestOf? (c : RegisterCache) (host : Nat) : Option Reg :=
  match c.slots.toList[host]? with
  | some s => s.guest
  | none => none

/-- Whether a guest register waits to be written back. -/
def isDirty (c : RegisterCache) (guest : Reg) : Bool :=
  match c.find? guest with
  | some h => c.slots[h].dirty
  | none => false

/-- Number of guest registers held. -/
def mapped (c : RegisterCache) : Nat := c.slots.toList.countP fun s => s.guest.isSome

end RegisterCache

end Dynarec
