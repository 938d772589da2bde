/-
  Dynarec.Block.Decode

  Cutting a block out of guest memory. A block ends after the first
  instruction the host has to react to, or after the first unconditional jump
  and its delay slot. It is also cut at the end of its region and at a given
  length; a cut never parts a branch from a delay slot that is there.
-/
import Dynarec.Block.Basic

namespace Dynarec.Block

variable {δ : Type}

/-- Instructions of the block whose word `index` is the next to look at, with `left`
words of the region still to come from there. -/
def collect (data : ByteArray) (start limit : Nat) : Nat → Nat → Array Op → Array Op
  | 0, _, ops => ops
  | left + 1, index, ops =>
    let op := Op.ofWord (Bytes.wordAt data (start + 4 * index))
    let ops := ops.push op
    let last : Bool := limit ≤ index + 1
    if op.instr.isSyscall then ops
    else if op.instr.isUnconditionalJump || (last && op.instr.hasDelaySlot) then
      if left = 0 then ops
      else ops.push (Op.ofWord (Bytes.wordAt data (start + 4 * (index + 1))))
    else if last then ops
    else collect data start limit left (index + 1) ops

/-- Decode the block at `pc` with at most `maxOps` instructions, not counting a last
delay slot. Fails unless `pc` leads to memory with a whole word left. -/
def decode (m : Memory δ) (pc : UInt32) (maxOps : Nat) : Except Fault (Array Op) :=
  match m.layout.resolve pc with
  | .error f => .error f
  | .ok r =>
    if r.kind = .device then .error (.noMapping pc)
    else
      match m.bytes? r.index with
      | none => .error (.noMapping pc)
      | some data =>
        let start := r.offset.toNat / 4 * 4
        let words := (data.size - start) / 4
        if words = 0 then .error (.outOfBounds pc)
        else .ok (collect data start (min words (max maxOps 2)) words 0 #[])

end Dynarec.Block
