/-
  Dynarec.Engine.Reclaim

  Reclaiming dead blocks and retired code at the end of a run, when nothing can
  be running them. What concerns the block that the background compiler works
  on waits for a later time, and so do programs while the generator is busy.
-/
import Dynarec.Engine.Basic

namespace Dynarec.Engine

variable {δ κ γ : Type}

/-- Whether something has to wait for the background compiler. -/
def mustWait (q : JobQueue) : Discarded → Bool
  | .block id => q.isCurrent id
  | .code code => code.block.any q.isCurrent

/-- Forget code: its entries, its place in the registry and its share of the budget. -/
def forgetCode (code : CompiledCode) : EngineM δ κ γ Unit := do
  modifyEntries (·.retire code.id code.slots)
  modify fun e => { e with
    codes := e.codes.erase code.id.toNat
    budget := (e.budget.remove code.id).2
    reclaimer := { e.reclaimer with unreleased := e.reclaimer.unreleased ++ [code.program] } }

/-- Forget the code of a block, if it has any. -/
def forgetCode? : Option CompiledCode → EngineM δ κ γ Unit
  | none => pure ()
  | some code => forgetCode code

/-- Numbers of blocks and pieces of code reclaimed. -/
structure Reclaimed where
  blocks : Nat := 0
  codes : Nat := 0
deriving Inhabited

/-- Reclaim one thing, or hold it back. -/
def reclaimOne (sum : Reclaimed) (d : Discarded) : EngineM δ κ γ Reclaimed := do
  if mustWait (← get).queue d then
    modify fun e => { e with
      reclaimer := { e.reclaimer with deferred := e.reclaimer.deferred ++ [d] } }
    return sum
  else
    match d with
    | .code code =>
      forgetCode code
      return { sum with codes := sum.codes + 1 }
    | .block id =>
      let code := (← blockOf id).code
      forgetCode? code
      dropBlock id
      return { blocks := sum.blocks + 1, codes := if code.isSome then sum.codes + 1 else sum.codes }

/-- Hand programs back to the generator, unless it is busy. -/
def releasePrograms [Generator γ] : EngineM δ κ γ Unit := do
  let e ← get
  if e.reclaimer.unreleased.isEmpty then pure ()
  else if e.inProgress.isSome then note (.generatorBusy e.reclaimer.unreleased.length)
  else
    modify fun e => { e with
      generator := e.reclaimer.unreleased.foldl Generator.release e.generator
      reclaimer := { e.reclaimer with unreleased := [] } }

/-- Report what was reclaimed, if anything was. -/
def reportReclaimed (sum : Reclaimed) : EngineM δ κ γ Unit := do
  if 0 < sum.blocks + sum.codes then
    note (.reclaimed sum.blocks sum.codes)
    count fun c => { c with
      reclaimedBlocks := c.reclaimedBlocks + sum.blocks
      reclaimedCodes := c.reclaimedCodes + sum.codes }
    record (.reclaim sum.blocks sum.codes)

/-- Reclaim all that can be. -/
def reclaim [Generator γ] : EngineM δ κ γ Unit := do
  let waiting ← modifyGet fun e =>
    (e.reclaimer.deferred ++ e.reclaimer.posted.reverse,
      { e with reclaimer := { e.reclaimer with posted := [], deferred := [] } })
  let sum ← waiting.foldlM reclaimOne {}
  reportReclaimed sum
  releasePrograms

end Dynarec.Engine
