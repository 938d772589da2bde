/-
  Dynarec.Engine.Basic

  The engine: a guest machine together with the blocks, code and tables that
  make it run fast. Its operations change the engine step by step and end early
  only when one of its own promises is broken.
-/
import Dynarec.BlockCache
import Dynarec.CodeBudget
import Dynarec.CompilerHealth
import Dynarec.Config
import Dynarec.Host.Generator
import Dynarec.JobQueue
import Dynarec.Registry

namespace Dynarec

/-- Counts of what the engine did. -/
structure Counters where
  blocksPrecompiled : Nat := 0
  blocksCompiled : Nat := 0
  compileFailures : Nat := 0
  recompilations : Nat := 0
  interpretedBlocks : Nat := 0
  compiledDispatches : Nat := 0
  memsets : Nat := 0
  outdatedBlocks : Nat := 0
  reusedBlocks : Nat := 0
  deadBlocks : Nat := 0
  reclaimedBlocks : Nat := 0
  reclaimedCodes : Nat := 0
  uncachedBlocks : Nat := 0
deriving DecidableEq, Inhabited

/-- Something to reclaim once nothing can be running it. -/
inductive Discarded where
  | block (id : BlockId)
  | code (code : CompiledCode)
deriving DecidableEq, Inhabited

/-- What waits to be reclaimed. -/
structure Reclaimer where
  /-- Handed in since the last time, latest first. -/
  posted : List Discarded := []
  /-- Held back because the background compiler works on their block. -/
  deferred : List Discarded := []
  /-- Programs that wait for the generator to take them back. -/
  unreleased : List HostProgram := []
deriving Inhabited

/-- A compilation that has begun. -/
structure PendingCompile where
  block : BlockId
  /-- The instructions as they were when it began. -/
  source : BlockSource
  fullyTagged : Bool
deriving Inhabited

/-- What an engine over a code generator `γ` keeps besides the machine. Running code that is
published changes none of it, unless an access gets its first tag. -/
structure Workshop (γ : Type) where
  config : Config
  blocks : Registry Block := {}
  nextBlock : BlockId := 0
  cache : BlockCache := .empty
  /-- All published code. -/
  codes : Registry CompiledCode := {}
  nextCode : CodeId := 1
  generator : γ
  generatorName : String
  trace : TraceBuffer
  health : CompilerHealth := {}
  queue : JobQueue
  /-- What the background compiler is busy with. -/
  inProgress : Option PendingCompile := none
  reclaimer : Reclaimer := {}
  registers : RegisterCache := {}
  /-- Register cache of the background compiler. -/
  workerRegisters : RegisterCache := {}
  /-- Whether code is generated in the background. -/
  background : Bool
  /-- Cycle of the last report of memory usage. -/
  lastReport : UInt32 := 0

/-- An engine over devices `δ`, coprocessors `κ` and a code generator `γ`. -/
structure Engine (δ κ γ : Type) extends Workshop γ where
  machine : Machine δ κ
  budget : CodeBudget (RecencyList CodeId Nat)
  counters : Counters := {}

/-- Operations on an engine. -/
abbrev EngineM (δ κ γ : Type) := EStateM Abort (Engine δ κ γ)

namespace Engine

variable {δ κ γ : Type}

/-- A new engine over `memory`. -/
def create [Generator γ] (memory : Memory δ) (cop0 cop2 : κ) (config : Config) (generator : γ)
    (log : Log) : Engine δ κ γ :=
  let config := config.normalize
  let entries := EntryTable.ofLayout memory.layout config.maxBlockOps
  let name := Generator.name generator
  let log := log.note entries.readyNotice
  let log := if config.threaded then log.note .workerStarted else log
  let log := log.note (.engineReady entries.size name config.threaded)
  { config
    machine := {
      memory, cop0, cop2, entries, log
      hostInvalidationOnly := config.invalidateFromDmaOnly }
    generator
    generatorName := name
    budget := .empty config.codeBudgetBytes
    trace := { TraceBuffer.empty config.traceCapacity with enabled := config.traceEnabled }
    queue := .empty config.compileQueueCapacity
    background := config.threaded }

/-- Change the machine. -/
@[inline]
def modifyMachine (f : Machine δ κ → Machine δ κ) : EngineM δ κ γ Unit :=
  modify fun e => { e with machine := f e.machine }

/-- Change the table of entries. -/
@[inline]
def modifyEntries (f : EntryTable → EntryTable) : EngineM δ κ γ Unit :=
  modifyMachine fun m => { m with entries := f m.entries }

/-- Report something. -/
def note (n : Notice) : EngineM δ κ γ Unit := modifyMachine (·.note n)

/-- Report things in order. -/
def noteAll (ns : List Notice) : EngineM δ κ γ Unit := modifyMachine (·.noteAll ns)

/-- Record an event. -/
def record (event : TraceEvent) : EngineM δ κ γ Unit :=
  modify fun e => { e with trace := e.trace.push event }

/-- Count something. -/
@[inline]
def count (f : Counters → Counters) : EngineM δ κ γ Unit :=
  modify fun e => { e with counters := f e.counters }

/-- The block with an identity. -/
def blockOf (id : BlockId) : EngineM δ κ γ Block := do
  return (← get).blocks.getD id default

/-- Change a block. -/
@[inline]
def modifyBlock (id : BlockId) (f : Block → Block) : EngineM δ κ γ Unit :=
  modify fun e => { e with blocks := e.blocks.modify id f }

/-- Give a new block an identity. -/
def addBlock (b : Block) : EngineM δ κ γ BlockId :=
  modifyGet fun e =>
    (e.nextBlock, { e with blocks := e.blocks.insert e.nextBlock b, nextBlock := e.nextBlock + 1 })

/-- Forget a block. -/
def dropBlock (id : BlockId) : EngineM δ κ γ Unit :=
  modify fun e => { e with blocks := e.blocks.erase id }

/-- Hand something in to be reclaimed. -/
def discard (d : Discarded) : EngineM δ κ γ Unit :=
  modify fun e => { e with reclaimer := { e.reclaimer with posted := d :: e.reclaimer.posted } }

/-- Let a block wait for the background compiler. -/
def submit (id : BlockId) : EngineM δ κ γ Unit := do
  let accepted ← modifyGet fun e =>
    let (accepted, queue) := e.queue.submit id
    (accepted, { e with queue })
  noteAll (JobQueue.submitNotice? accepted (← blockOf id).pc)

/-- Take a block out of the cache for good. Its identity stays until it is reclaimed. -/
def kill (id : BlockId) : EngineM δ κ γ Unit := do
  modifyBlock id (·.setFlags { isDead := true })
  modify fun e => { e with queue := (e.queue.cancel id).2 }
  let b ← blockOf id
  if (← get).cache.isRegistered id b then
    modify fun e =>
      let (cache, entries) := e.cache.unregister e.machine.entries id b
      { e with cache, machine := { e.machine with entries } }
  else
    note (.notInCache b.pc)
    throw (.unregisteringUncached b.pc)

/-- Ask for new code for a block. -/
def flagRecompile (id : BlockId) : EngineM δ κ γ Unit := do
  let b ← blockOf id
  modify fun e =>
    let (b, machine) := e.machine.flagRecompile b
    { e with machine, blocks := e.blocks.insert id b }

/-- Whether code may be generated. -/
def compilerEnabled (e : Engine δ κ γ) : Bool := !e.health.isDisabled

end Engine

end Dynarec
