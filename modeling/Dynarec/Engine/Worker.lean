/-
  Dynarec.Engine.Worker

  The background compiler. It takes one waiting block after the other; the
  engine lets it work between runs, until nothing waits or the generator
  cannot finish.
-/
import Dynarec.Engine.Compile

namespace Dynarec.Engine

variable {δ κ γ : Type} [Generator γ]

/-- Whether a block handed out still needs code. -/
def needsCode (b : Block) : Bool :=
  !b.flags.isDead && (b.code.isNone || b.flags.shouldRecompile)

/-- Finish a compilation, if the generator can; otherwise stay with it. Says whether it
was finished. -/
def workOn (p : PendingCompile) : EngineM δ κ γ Bool := do
  if Generator.ready (← get).generator p.source.pc then
    let _ ← finishCompile p true
    modify fun e => { e with inProgress := none }
    return true
  else
    modify fun e => { e with inProgress := some p }
    return false

/-- Take the next waiting block, if there is one, and compile it if it needs code. Says
whether to go on. -/
def takeJob : EngineM δ κ γ Bool := do
  match ← modifyGet fun e =>
    let (job, queue) := e.queue.next
    (job, { e with queue }) with
  | none => return false
  | some id =>
    let b ← blockOf id
    if !needsCode b then return true
    else
      note (.pickedUp b.pc)
      match ← beginCompile id true with
      | none => return true
      | some p => workOn p

/-- At most `fuel` jobs, one after the other. -/
def takeJobs : Nat → EngineM δ κ γ Unit
  | 0 => pure ()
  | fuel + 1 => do
    if ← takeJob then takeJobs fuel

/-- Let the background compiler work until nothing waits or the generator cannot finish.
Without one, nothing happens. -/
def work : EngineM δ κ γ Unit := do
  if (← get).background then
    let goOn ← match (← get).inProgress with
      | none => pure true
      | some p => workOn p
    if goOn then takeJobs ((← get).queue.size + 1)

end Dynarec.Engine
