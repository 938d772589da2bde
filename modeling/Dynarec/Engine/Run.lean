/-
  Dynarec.Engine.Run

  What the host asks of an engine: run guest code, drop code that is out of
  date, and look at how things are going.
-/
import Dynarec.Engine.Dispatch
import Dynarec.Engine.Reclaim
import Dynarec.Engine.Worker
import Dynarec.Text.Decimal

namespace Dynarec.Engine

variable {δ κ γ : Type}

/-! ## Reports -/

/-- Bytes taken by one instruction of a block that still has its instructions. -/
def bytesPerInstruction : Nat := 8

/-- Memory taken by cached blocks and their code. -/
def memoryUsage (e : Engine δ κ γ) : MemoryUsage :=
  e.cache.toList.foldl
    (fun usage id =>
      let b := e.blocks.getD id default
      { usage with
        instructionBytes := usage.instructionBytes +
          (if b.ops.isSome then b.opCount * bytesPerInstruction else 0)
        guestBytes := usage.guestBytes + b.opCount * 4 })
    { instructionBytes := 0, codeBytes := e.budget.usage, guestBytes := 0 }

/-- The report of memory usage, with the bytes of code per guest instruction. -/
def usageNotice (usage : MemoryUsage) : Notice :=
  .memoryUsage usage
    (if usage.guestBytes = 0 then "0.00" else Text.twoPlaces usage.codeBytes (usage.guestBytes / 4))

/-- Report memory usage if enough cycles have passed since the last time. -/
def reportUsage : EngineM δ κ γ Unit := do
  let e ← get
  let interval := e.config.reportIntervalCycles
  let now := e.machine.clock.current
  if interval = 0 || now - e.lastReport < interval then pure ()
  else
    let notice := usageNotice e.memoryUsage
    modify fun e => { e with lastReport := now }
    note notice

/-! ## Invalidation -/

/-- Mark code that overlaps a range as out of date, after the host changed it. -/
def invalidate (addr length : UInt32) : EngineM δ κ γ Unit := do
  let cleared ← modifyGet fun e =>
    let (cleared, machine) := e.machine.invalidate addr length
    (cleared, { e with machine })
  if 0 < cleared then record (.invalidate (some addr) length.toNat .host)

/-- Mark all code as out of date. -/
def invalidateAll : EngineM δ κ γ Unit := do
  note .invalidatingAll
  modifyEntries (·.invalidateAll)
  record (.invalidate none 0 .all)

/-- Choose whether only the host invalidates code. A change invalidates everything. -/
def setInvalidateMode (hostOnly : Bool) : EngineM δ κ γ Unit := do
  if (← get).machine.hostInvalidationOnly ≠ hostOnly then
    invalidateAll
    modifyMachine fun m => { m with hostInvalidationOnly := hostOnly }

/-- Enable the code generator again. -/
def reenableCompiler : EngineM δ κ γ Unit := do
  note .compilerReenabled
  modify fun e => { e with health := e.health.reenable }

/-- Report the latest `count` events. -/
def dumpTrace (count : Nat) : EngineM δ κ γ Unit := do
  noteAll ((← get).trace.dumpNotices count)

/-! ## State of the guest -/

/-- Restart the cycle counter. -/
def resetCycle (cycles : UInt32) : EngineM δ κ γ Unit :=
  modifyMachine fun m => { m with clock := m.clock.reset cycles }

/-- Move the target of the cycle counter. -/
def setTargetCycle (cycles : UInt32) : EngineM δ κ γ Unit :=
  modifyMachine fun m => { m with clock := m.clock.setTarget cycles }

/-- Replace the register file. -/
def restoreRegisters (regs : Registers) : EngineM δ κ γ Unit :=
  modifyMachine fun m => { m with regs }

/-- Change guest memory on behalf of the host. Code is not invalidated. -/
@[inline]
def writeMemory (f : Memory δ → Option Fault × Memory δ) : EngineM δ κ γ (Option Fault) :=
  modifyGet fun e =>
    let (fault, memory) := f e.machine.memory
    (fault, { e with machine := { e.machine with memory } })

/-- Write words to guest memory and mark code there as out of date. -/
def loadWords (addr : UInt32) (words : List UInt32) : EngineM δ κ γ (Option Fault) := do
  let fault ← writeMemory (·.writeWords addr words)
  invalidate addr (4 * words.length).toUInt32
  return fault

/-! ## Running -/

variable [Generator γ]

/-- Report why guest code was left, unless the cycle budget ran out. -/
def reportExit (pc : UInt32) : EngineM δ κ γ Unit := do
  let exit := (← get).machine.clock.exit
  if !exit.isNormal then
    note (.leaving pc exit)
    record (.exit pc exit)

/-- The end of every run. -/
def finishRun (pc : UInt32) : EngineM δ κ γ Unit := do
  reportExit pc
  reclaim
  reportUsage

variable [Device δ] [Coprocessor κ]

/-- Run blocks until the machine has to stop, at most `count` of them. -/
def runBlocks (fuel : Nat) : Nat → UInt32 → EngineM δ κ γ UInt32
  | 0, _ => throw .outOfFuel
  | count + 1, pc => do
    let next ← dispatch fuel pc
    if (← get).machine.clock.shouldStop then return next
    else runBlocks fuel count next

/-- An engine about to run until the cycle counter reaches `target`. -/
def armed (e : Engine δ κ γ) (target : UInt32) : Engine δ κ γ :=
  { e with machine := { e.machine with clock := e.machine.clock.arm target } }

/-- Run guest code until the cycle counter reaches `target` or there is a reason to
leave; the result is where it goes on. -/
def run (fuel : Nat) (pc target : UInt32) : EngineM δ κ γ UInt32 := do
  modify (·.armed target)
  let next ← runBlocks fuel fuel pc
  finishRun next
  return next

/-- Run one block; code that loops leaves after one round. -/
def executeOne (fuel : Nat) (pc : UInt32) : EngineM δ κ γ UInt32 := do
  let saved := (← get).machine.clock.target
  modifyMachine fun m =>
    { m with clock := { m.clock with exit := {}, target := m.clock.current } }
  let next ← dispatch fuel pc
  modifyMachine fun m =>
    if m.clock.exit.isNormal then { m with clock := { m.clock with target := saved } } else m
  finishRun next
  return next

/-- Interpret one block, whatever code it has. -/
def runInterpreter (fuel : Nat) (pc : UInt32) : EngineM δ κ γ UInt32 := do
  modifyMachine fun m => { m with clock := { m.clock with exit := {} } }
  let next ← match ← getBlock pc with
    | none => pure pc
    | some id =>
      let next ← interpret fuel id
      dropUncached id
      pure next
  finishRun next
  return next

end Dynarec.Engine
