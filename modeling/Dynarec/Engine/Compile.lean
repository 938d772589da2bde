/-
  Dynarec.Engine.Compile

  Generating code for a block and publishing it. A compilation begins with a
  copy of the block's instructions and ends with publication, which takes note
  of what happened to the block in between: a dead block keeps no code, an
  invalidated one none either, and new access tags ask for yet another
  compilation. Failures never stop the engine: the block stays with the
  interpreter.
-/
import Dynarec.Engine.Basic

namespace Dynarec.Engine

variable {δ κ γ : Type}

/-- Remember that every access of a block is tagged. -/
def markTagged (id : BlockId) (fullyTagged : Bool) : EngineM δ κ γ Unit := do
  if fullyTagged then modifyBlock id (·.setFlags { fullyTagged := true })

/-- Begin to compile a block, unless the compiler is disabled or the block's
instructions are gone. -/
def beginCompile (id : BlockId) (background : Bool) : EngineM δ κ γ (Option PendingCompile) := do
  if (← get).health.isDisabled then return none
  else
    let b ← blockOf id
    match b.ops with
    | none => return none
    | some ops =>
      markTagged id (isFullyTagged ops)
      record (.compileStart b.pc ops.size background)
      return some { block := id, source := { pc := b.pc, ops }, fullyTagged := isFullyTagged ops }

/-- The generator gave up on a block. -/
def failCompile (id : BlockId) (error : CodegenError) : EngineM δ κ γ Unit := do
  let b ← blockOf id
  modifyBlock id (·.setFlags { neverCompile := true })
  count fun c => { c with compileFailures := c.compileFailures + 1 }
  record (.compileEnd b.pc 0 0 false)
  note (.compileFailed b.pc error)
  let notices ← modifyGet fun e =>
    let (disabled, health) :=
      e.health.recordFailure b.pc e.config.maxConsecutiveFailures e.config.maxTotalFailures
    (health.disabledNotice? disabled, { e with health })
  noteAll notices

/-- A fresh code number. -/
def newCodeId : EngineM δ κ γ CodeId :=
  modifyGet fun e => (e.nextCode, { e with nextCode := e.nextCode + 1 })

/-- The block that starts at instruction `offset` of the block at `pc`, if it is another
one, is covered by the new code and dies. -/
def killCovered (id : BlockId) (pc : UInt32) (offset : Nat) : EngineM δ κ γ Unit := do
  let coveredPc := pc + offset.toUInt32 * 4
  match (← get).cache.find? coveredPc with
  | none => pure ()
  | some other =>
    if other ≠ id then
      kill other
      count fun c => { c with deadBlocks := c.deadBlocks + 1 }
      record (.blockDead coveredPc .covered)
      discard (.block other)

/-- Let the entry at instruction `offset` lead into the code `code`. -/
def publishEntry (code : CodeId) (b : Block) (slots : Array Nat) (offset : Nat) :
    EngineM δ κ γ (Array Nat) := do
  match (← get).machine.entries.index? (b.start + offset.toUInt32 * 4) with
  | none => return slots
  | some slot =>
    modifyEntries fun t => (t.store slot (.code code offset)).noteSpan slot (b.opCount - offset) false
    return slots.push slot

/-- Replace the start entry of a block, unless it has been cleared; says whether it was. -/
def publishStart (slot : Nat) (code : CodeId) : EngineM δ κ γ Bool := do
  if ((← get).machine.entries.load slot).isNull then return false
  else
    modifyEntries fun t => t.store slot (.code code 0)
    return true

/-- Whether access tags changed since the instructions were copied. -/
def isRetagged (b : Block) (before : Array Op) : Bool :=
  match b.ops with
  | none => false
  | some now => (now.toList.zip before.toList).any fun (x, y) => x.flags != y.flags

/-- Give up code beyond the budget: its entries are cleared. -/
def retireEvicted (victim : CodeId) : EngineM δ κ γ Unit := do
  match (← get).codes.get? victim.toNat with
  | none => pure ()
  | some old =>
    note (.budgetExceeded victim)
    modifyEntries (·.retire old.id old.slots)

/-- The code that a block had before is given up. -/
def retireReplaced : Option CompiledCode → EngineM δ κ γ Unit
  | none => pure ()
  | some old => do
    modifyEntries (·.retire old.id old.slots)
    count fun c => { c with recompilations := c.recompilations + 1 }
    discard (.code old)

/-- New access tags since `p` began, seen in `b`, ask for another compilation. Where all accesses
were tagged the instructions are not needed any more. -/
def settleTags (p : PendingCompile) (b : Block) : EngineM δ κ γ Unit := do
  if isRetagged b p.source.ops then flagRecompile p.block
  else if p.fullyTagged then modifyBlock p.block fun b => b.freeOps.2

/-- Account for new code; what does not fit any more is given up. -/
def chargeBudget (code : CodeId) (size : Nat) : EngineM δ κ γ Unit := do
  let evicted ← modifyGet fun e =>
    let (evicted, budget) := e.budget.insert code size
    (evicted, { e with budget })
  evicted.forM retireEvicted

/-- Give a block its new code. -/
def adoptCode (p : PendingCompile) (compiled : CompiledCode) : EngineM δ κ γ Unit := do
  modifyBlock p.block (·.clearFlags { shouldRecompile := true })
  let b ← blockOf p.block
  modifyBlock p.block fun b => (b.replaceCode compiled).2
  retireReplaced b.code
  settleTags p b
  chargeBudget compiled.id compiled.size
  count fun c => { c with blocksCompiled := c.blocksCompiled + 1 }
  record (.compileEnd b.pc compiled.size 0 true)
  note (.published compiled.size b.pc compiled.slots.size)

/-- Let the entries of a block, the first of them in slot `start`, lead into new code; says whether
it runs from now on. -/
def publishCode (p : PendingCompile) (emitted : Emitted) (code : CodeId) (b : Block) (start : Nat) :
    EngineM δ κ γ Bool := do
  let targets := emitted.targets.filter fun t => t ≠ 0 && t < b.opCount
  targets.forM (killCovered p.block b.pc)
  let slots ← targets.foldlM (publishEntry code b) #[start]
  let compiled : CompiledCode :=
    { id := code, program := emitted.program, size := emitted.codeSize, slots, block := some p.block }
  modify fun e => { e with codes := e.codes.insert code.toNat compiled }
  if ← publishStart start code then
    adoptCode p compiled
    return true
  else
    note (.invalidatedWhileCompiling b.pc)
    modifyEntries (·.retire code slots)
    discard (.code compiled)
    return false

/-- Publish code for a block; says whether it runs from now on. -/
def publish (p : PendingCompile) (emitted : Emitted) : EngineM δ κ γ Bool := do
  modify fun e => { e with health := e.health.recordSuccess }
  let code ← newCodeId
  let b ← blockOf p.block
  match (← get).machine.entries.index? b.start with
  | none =>
    note (.compiledWithoutEntry b.pc)
    throw (.compiledUncached b.pc)
  | some start =>
    if b.flags.isDead then
      note (.diedWhileCompiling b.pc)
      discard (.code { id := code, program := emitted.program, size := 0, slots := #[], block := none })
      return false
    else publishCode p emitted code b start

variable [Generator γ]

/-- Generate code for a compilation that has begun, and publish it; says whether it runs
from now on. -/
def finishCompile (p : PendingCompile) (background : Bool) : EngineM δ κ γ Bool := do
  let (result, notices) ← modifyGet fun e =>
    let cache := if background then e.workerRegisters else e.registers
    let c := Generator.compile e.generator p.source cache.reset
    ((c.result, c.notices),
      if background then { e with generator := c.generator, workerRegisters := c.cache }
      else { e with generator := c.generator, registers := c.cache })
  noteAll notices
  match result with
  | .error .registersExhausted => throw .registersExhausted
  | .error (.codegen error) =>
    failCompile p.block error
    return false
  | .ok emitted => publish p emitted

/-- Generate and publish code for a block at once. -/
def compileNow (id : BlockId) : EngineM δ κ γ Unit := do
  if let some p ← beginCompile id false then
    let _ ← finishCompile p false

end Dynarec.Engine
