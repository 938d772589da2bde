/-
  Dynarec.Machine.Basic

  The guest machine: everything that guest code can observe or change while it
  runs.
-/
import Dynarec.Coprocessor
import Dynarec.EntryTable
import Dynarec.Registers

namespace Dynarec

/-- State of the guest machine, over devices `δ` and coprocessors `κ`. -/
structure Machine (δ κ : Type) where
  regs : Registers := {}
  clock : Clock := {}
  memory : Memory δ
  cop0 : κ
  cop2 : κ
  entries : EntryTable
  /-- Guest stores do not invalidate code; only the host does. -/
  hostInvalidationOnly : Bool := false
  log : Log := {}

namespace Machine

variable {δ κ : Type}

/-- Report something. -/
def note (m : Machine δ κ) (n : Notice) : Machine δ κ := { m with log := m.log.note n }

/-- Report things in order. -/
def noteAll (m : Machine δ κ) (ns : List Notice) : Machine δ κ := { m with log := m.log.noteAll ns }

/-- Record reasons to leave guest code. -/
def setExit (m : Machine δ κ) (flags : ExitFlags) : Machine δ κ :=
  { m with clock := m.clock.setExit flags }

/-- Charge cycles. -/
@[inline]
def tick (m : Machine δ κ) (cycles : UInt32) : Machine δ κ := { m with clock := m.clock.add cycles }

/-- Change a register. -/
@[inline]
def setReg (m : Machine δ κ) (r : Reg) (value : UInt32) : Machine δ κ :=
  { m with regs := m.regs.set r value }

/-- Do what a device or coprocessor asked for. -/
def grant (m : Machine δ κ) : Request → Machine δ κ
  | .resetCycle cycles => { m with clock := m.clock.reset cycles }
  | .exit flags => m.setExit flags
  | .note n => m.note n

/-- Do, in order, what a device or coprocessor asked for. -/
def grantAll (m : Machine δ κ) (requests : List Request) : Machine δ κ := requests.foldl grant m

/-- Clear the entries of code that overlaps a range, and count them. -/
def invalidate (m : Machine δ κ) (addr length : UInt32) : Nat × Machine δ κ :=
  let (cleared, entries) := m.entries.invalidate addr length
  (cleared, { m with
    entries
    log := m.log.noteAll (EntryTable.invalidatedNotice? cleared addr length) })

/-- Clear the entries of code that a guest store overwrites, unless only the host may. -/
@[inline]
def invalidateByGuest (m : Machine δ κ) (addr length : UInt32) : Machine δ κ :=
  if m.hostInvalidationOnly || !m.entries.mayReach addr length then m
  else (m.invalidate addr length).2

/-! ## Coprocessors -/

variable [Coprocessor κ]

/-- Read a register of the coprocessor that an instruction addresses. -/
def copRead (m : Machine δ κ) (i : Instruction) (r : Reg) (control : Bool) : UInt32 × Machine δ κ :=
  if i.isCop0 then
    let (value, cop0, requests) := Coprocessor.read m.cop0 control i.word r m.clock.current
    (value, { m with cop0 }.grantAll requests)
  else
    let (value, cop2, requests) := Coprocessor.read m.cop2 control i.word r m.clock.current
    (value, { m with cop2 }.grantAll requests)

/-- Write a register of the coprocessor that an instruction addresses. -/
def copWrite (m : Machine δ κ) (i : Instruction) (r : Reg) (value : UInt32) (control : Bool) :
    Machine δ κ :=
  if i.isCop0 then
    let (cop0, requests) := Coprocessor.write m.cop0 control i.word r value m.clock.current
    { m with cop0 }.grantAll requests
  else
    let (cop2, requests) := Coprocessor.write m.cop2 control i.word r value m.clock.current
    { m with cop2 }.grantAll requests

/-- Run a coprocessor command. The return from an exception is a read and a write of
the status register. -/
def copExecute (m : Machine δ κ) (i : Instruction) : Machine δ κ :=
  if i.isReturnFromException then
    let (status, m) := m.copRead i statusRegister false
    m.copWrite i statusRegister (popStatus status) false
  else if i.isCop0 then
    let (cop0, requests) := Coprocessor.execute m.cop0 i.word m.clock.current
    { m with cop0 }.grantAll requests
  else
    let (cop2, requests) := Coprocessor.execute m.cop2 i.word m.clock.current
    { m with cop2 }.grantAll requests

end Machine

end Dynarec
