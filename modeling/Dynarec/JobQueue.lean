/-
  Dynarec.JobQueue

  Blocks waiting for the background compiler, first come first served. A block
  waits at most once, and requests beyond the capacity are dropped.
-/
import Dynarec.Block.Basic

namespace Dynarec

/-- Waiting blocks, and the block being compiled. -/
structure JobQueue where
  jobs : List BlockId := []
  current : Option BlockId := none
  capacity : Nat
  /-- Number of requests dropped, in 64 bits. -/
  dropped : UInt64 := 0
deriving DecidableEq, Inhabited

namespace JobQueue

def empty (capacity : Nat) : JobQueue := { capacity := max capacity 1 }

def size (q : JobQueue) : Nat := q.jobs.length

/-- Let a block wait; says whether it waits now. -/
def submit (q : JobQueue) (id : BlockId) : Bool × JobQueue :=
  if q.jobs.contains id then (true, q)
  else if q.capacity ≤ q.jobs.length then (false, { q with dropped := q.dropped + 1 })
  else (true, { q with jobs := q.jobs ++ [id] })

/-- The notice about a request for the block at `pc`, if it was dropped. -/
def submitNotice? (accepted : Bool) (pc : UInt32) : List Notice :=
  if accepted then [] else [.queueFull pc]

/-- Let a block wait no longer; says whether it did. -/
def cancel (q : JobQueue) (id : BlockId) : Bool × JobQueue :=
  (q.jobs.contains id, { q with jobs := q.jobs.filter (· != id) })

/-- Forget all waiting blocks. -/
def clear (q : JobQueue) : JobQueue := { q with jobs := [] }

/-- Whether a block is being compiled. -/
def isCurrent (q : JobQueue) (id : BlockId) : Bool := q.current == some id

/-- Hand out the block that waits longest; it becomes the current one. -/
def next (q : JobQueue) : Option BlockId × JobQueue :=
  match q.jobs with
  | [] => (none, { q with current := none })
  | id :: rest => (some id, { q with jobs := rest, current := some id })

end JobQueue

end Dynarec
