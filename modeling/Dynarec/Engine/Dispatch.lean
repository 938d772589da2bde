/-
  Dynarec.Engine.Dispatch

  From a guest address to something that runs. The entry table answers first;
  where it does not lead into code, the block is looked up or decoded, and then
  interpreted or compiled.
-/
import Dynarec.Block.Annotate
import Dynarec.Engine.Compile
import Dynarec.Host.Run
import Dynarec.Interpreter

namespace Dynarec.Engine

variable {δ κ γ : Type}

/-! ## Blocks -/

/-- Whether the words of memory under a block still hash to its contents. -/
def isUnchanged (m : Memory δ) (b : Block) : Bool :=
  match m.slice b.pc (b.opCount * 4) with
  | .ok bytes => hashWords ((List.range b.opCount).map fun i => Bytes.wordAt bytes (4 * i)) == b.hash
  | .error _ => false

/-- Entry of a block that is published again. Code beyond the budget stays unpublished. -/
def republishedEntry (e : Engine δ κ γ) (b : Block) : Entry :=
  let other := if b.flags.isMemset then Entry.memset else .pending
  match b.code with
  | some code => if !b.flags.shouldRecompile && e.budget.contains code.id then .code code.id 0 else other
  | none => other

/-- Let the entry of an invalidated but unchanged block lead to it again. -/
def republish (id : BlockId) : EngineM δ κ γ Unit := do
  let b ← blockOf id
  let e ← get
  match e.machine.entries.index? b.start with
  | none => pure ()
  | some slot =>
    let entry := e.republishedEntry b
    modifyEntries fun t => (t.noteSpan slot b.opCount true).store slot entry
    note (.reusingBlock b.pc)

/-- Report how a new block came out. -/
def noteAnnotated (config : Config) (pc : UInt32) (a : Annotated) : EngineM δ κ γ Unit := do
  noteAll a.notices
  if config.logDisassembly then note (.blockListing pc a.ops)

/-- Cache a new block, if it has an entry. A block that clears memory gets an entry of its own
kind. -/
def cacheBlock (config : Config) (id : BlockId) (b : Block) : Option Nat → EngineM δ κ γ Unit
  | some slot => do
    modify fun e =>
      let (cache, entries) := e.cache.register e.machine.entries id b
      { e with cache, machine := { e.machine with entries } }
    if b.flags.isMemset && config.replaceMemset then modifyEntries (·.store slot .memset)
  | none => count fun c => { c with uncachedBlocks := c.uncachedBlocks + 1 }

/-- Decode and annotate a new block and cache it. A block without an entry is neither
cached nor ever compiled. Nothing comes back when the code cannot be fetched. -/
def precompile (pc : UInt32) : EngineM δ κ γ (Option BlockId) := do
  let config := (← get).config
  let slot := (← get).machine.entries.index? pc
  let layout := (← get).machine.memory.layout
  match Block.decode (← get).machine.memory pc config.maxBlockOps with
  | .error fault =>
    note (.cannotFetchBlock pc fault)
    modifyMachine (·.setExit { segfault := true })
    return none
  | .ok ops =>
    let a := annotate layout config pc ops
    noteAnnotated config pc a
    let flags := if slot.isNone then { a.flags with neverCompile := true } else a.flags
    let b := Block.ofOps pc a.ops flags
    let id ← addBlock b
    count fun c => { c with blocksPrecompiled := c.blocksPrecompiled + 1 }
    record (.blockPrecompiled pc b.opCount flags.toNat)
    note (.precompiled pc b.opCount flags)
    cacheBlock config id b slot
    return some id

/-- The block at a guest address, decoded if need be. An invalidated block is kept if the
settings allow it and its words did not change; otherwise it dies. -/
def getBlock (pc : UInt32) : EngineM δ κ γ (Option BlockId) := do
  match (← get).cache.find? pc with
  | none => precompile pc
  | some id =>
    let b ← blockOf id
    let e ← get
    if !BlockCache.isOutdated e.machine.entries b then return some id
    else if e.config.reuseIdenticalBlocks && isUnchanged e.machine.memory b then
      republish id
      count fun c => { c with reusedBlocks := c.reusedBlocks + 1 }
      record (.blockOutdated b.pc true)
      return some id
    else
      note (.blockOutdated b.pc)
      kill id
      count fun c => { c with outdatedBlocks := c.outdatedBlocks + 1 }
      record (.blockOutdated b.pc false)
      discard (.block id)
      precompile pc

/-! ## Running a block -/

variable [Device δ] [Coprocessor κ]

/-- Run code of a block from an instruction offset. -/
@[inline]
def callCode (fuel : Nat) (code : CompiledCode) (offset : Nat) (id : BlockId) (b : Block) :
    EngineM δ κ γ UInt32 := do
  match ← modifyGet fun e =>
    let counters := { e.counters with compiledDispatches := e.counters.compiledDispatches + 1 }
    let budget := e.budget.touch code.id
    match code.program.call fuel offset e.machine b with
    | .running f => (none, { e with counters, budget, machine := f.machine })
    | .finished r =>
      (some r.next,
        if r.tagged then
          { e with counters, budget, machine := r.machine, blocks := e.blocks.insert id r.block }
        else { e with counters, budget, machine := r.machine }) with
  | some next => return next
  | none => throw .outOfFuel

/-- Run published code, if it and its block are still there. -/
@[inline]
def callPublished (fuel : Nat) (code : CodeId) (offset : Nat) : EngineM δ κ γ (Option UInt32) := do
  let e ← get
  match e.codes.get? code.toNat with
  | none => return none
  | some c =>
    match c.block with
    | none => return none
    | some id =>
      match e.blocks.get? id with
      | none => return none
      | some b => some <$> callCode fuel c offset id b

/-- Interpret a block from its start. -/
def interpret (fuel : Nat) (id : BlockId) : EngineM δ κ γ UInt32 := do
  let b ← blockOf id
  let before := (← get).machine.clock.current
  match ← modifyGet fun e =>
    match Interpreter.emulate fuel e.machine b b.pc with
    | .running c => (none, { e with machine := c.machine })
    | .finished r => (some r.next, { e with machine := r.machine, blocks := e.blocks.insert id r.block }) with
  | none => throw .outOfFuel
  | some next =>
    count fun c => { c with interpretedBlocks := c.interpretedBlocks + 1 }
    let cycles := (← get).machine.clock.current - before
    record (.blockInterpreted b.pc cycles.toNat)
    return next

/-- Clear memory in place of the guest loop; the loop itself runs when that is declined. -/
def runMemset (fuel : Nat) (id : BlockId) : EngineM δ κ γ UInt32 := do
  let b ← blockOf id
  let bytes := (← get).machine.regs.get .a1 * 4
  match ← modifyGet fun e =>
    let (cycles, machine) := e.machine.memset
    (cycles, { e with machine }) with
  | none => interpret fuel id
  | some cycles =>
    modifyMachine (·.tick cycles)
    count fun c => { c with memsets := c.memsets + 1 }
    record (.memset b.pc bytes.toNat)
    return (← get).machine.regs.get .ra

variable [Generator γ]

/-- Let a block wait for the background compiler, if it needs code. -/
def submitIf (needed : Bool) (id : BlockId) : EngineM δ κ γ Unit := do
  if needed then submit id

/-- Generate code for a block, if it needs some. -/
def compileIf (needed : Bool) (id : BlockId) : EngineM δ κ γ Unit := do
  if needed then compileNow id

/-- Run a block while the background compiler is there: with the code it has, or else by
interpretation, and then it waits for code. -/
def runWithWorker (fuel : Nat) (id : BlockId) (canCompile shouldRecompile : Bool) :
    EngineM δ κ γ UInt32 := do
  submitIf shouldRecompile id
  let b ← blockOf id
  match b.code with
  | some code => callCode fuel code 0 id b
  | none =>
    let next ← interpret fuel id
    submitIf canCompile id
    return next

/-- Run the code a block has, or else interpret it. -/
def runCodeOrInterpret (fuel : Nat) (id : BlockId) : EngineM δ κ γ UInt32 := do
  let b ← blockOf id
  match b.code with
  | some code => callCode fuel code 0 id b
  | none => interpret fuel id

/-- Run a block and generate code for it on the way. -/
def runAndCompile (fuel : Nat) (id : BlockId) (canCompile shouldRecompile : Bool) :
    EngineM δ κ γ UInt32 := do
  compileIf shouldRecompile id
  let b ← blockOf id
  match b.code with
  | some code => callCode fuel code 0 id b
  | none =>
    if !canCompile then interpret fuel id
    else if (← get).config.firstPass then
      let next ← interpret fuel id
      compileNow id
      return next
    else
      compileNow id
      runCodeOrInterpret fuel id

/-- Run a block. -/
def runBlock (fuel : Nat) (id : BlockId) : EngineM δ κ γ UInt32 := do
  let b ← blockOf id
  let e ← get
  if b.flags.isMemset && e.config.replaceMemset then runMemset fuel id
  else
    let canCompile := !b.flags.neverCompile && e.compilerEnabled
    let shouldRecompile := canCompile && b.flags.shouldRecompile && !b.flags.isDead
    if e.background then runWithWorker fuel id canCompile shouldRecompile
    else runAndCompile fuel id canCompile shouldRecompile

/-- Forget a block that is not cached once it has run. -/
def dropUncached (id : BlockId) : EngineM δ κ γ Unit := do
  let e ← get
  let b := e.blocks.getD id default
  if (e.machine.entries.index? b.pc).isNone then dropBlock id

/-- Run the block at a guest address through the cache. -/
def dispatchBlock (fuel : Nat) (pc : UInt32) : EngineM δ κ γ UInt32 := do
  match ← getBlock pc with
  | none => return pc
  | some id =>
    let next ← runBlock fuel id
    dropUncached id
    return next

/-- Run one block's worth of guest code; the result is where it goes on. -/
@[inline]
def dispatch (fuel : Nat) (pc : UInt32) : EngineM δ κ γ UInt32 := do
  match (← get).machine.entries.get pc with
  | .code code offset =>
    match ← callPublished fuel code offset with
    | some next => return next
    | none => dispatchBlock fuel pc
  | _ => dispatchBlock fuel pc

end Dynarec.Engine
