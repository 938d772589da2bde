/-
  Dynarec.Proofs.Interpreter

  The interpreter one iteration at a time.

  `stepFreely` is one iteration without the look at the budget that a jump
  back inside the block takes; `step_eq_stepFreely` says that this look is all
  the difference. Every iteration keeps the block the same but for access tags.
-/
import Dynarec.Proofs.RegisterEffects

namespace Dynarec

/-! ## Access tags -/

/-- The same instructions, with the tags of the first and perhaps more. -/
structure Retags (ops ops' : Array Op) : Prop where
  size : ops'.size = ops.size
  instr : ∀ index, (ops'.getD index default).instr = (ops.getD index default).instr
  tagged : ∀ index, (ops.getD index default).isTagged = true →
    (ops'.getD index default).isTagged = true

theorem Retags.refl (ops : Array Op) : Retags ops ops := ⟨rfl, fun _ => rfl, fun _ h => h⟩

/-- Tagging an instruction that was not tagged. -/
theorem Retags.set {ops ops' : Array Op} (h : Retags ops ops') (index : Nat) (flags : OpFlags)
    (hnot : (ops'.getD index default).isTagged = false) :
    Retags ops (ops'.setIfInBounds index { ops'.getD index default with flags }) where
  size := by rw [Array.size_setIfInBounds, h.size]
  instr := by
    intro k
    rw [← h.instr k]
    by_cases hk : k = index
    · subst hk
      by_cases hlt : k < ops'.size
      · simp [Array.getD_eq_getD_getElem?, hlt]
      · simp [Array.getD_eq_getD_getElem?, hlt]
    · simp only [Array.getD_eq_getD_getElem?, Array.getElem?_setIfInBounds_ne (Ne.symm hk)]
  tagged := by
    intro k ht
    have ht' := h.tagged k ht
    have hk : k ≠ index := by
      intro e
      rw [e, hnot] at ht'
      cases ht'
    rw [← ht']
    simp only [Array.getD_eq_getD_getElem?, Array.getElem?_setIfInBounds_ne (Ne.symm hk)]

namespace Interpreter

variable {δ κ : Type}

theorem retags_tagAccess {ops ops' : Array Op} (h : Retags ops ops') (tagged : Bool) (index : Nat)
    (access : Option RegionKind) :
    Retags ops (tagAccess ops' tagged index (ops'.getD index default) access).1 := by
  unfold tagAccess
  cases access with
  | none => exact h
  | some kind =>
    dsimp only
    split
    · exact h
    · rename_i hnot
      exact h.set index _ (by simpa using hnot)

/-! ## One iteration -/

/-- The cursor after the instruction at `index`, which had the effect `e`; where control
goes is still open. -/
def Cursor.ran (c : Cursor δ κ) (index : Nat) (e : Executed δ κ) : Cursor δ κ :=
  let tags := tagAccess c.ops c.tagged index (c.ops.getD index default) e.access
  { c with machine := e.machine, ops := tags.1, tagged := tags.2 }

/-- The block left for `next` with what the cursor has. -/
def Cursor.left (c : Cursor δ κ) (next : UInt32) : Outcome δ κ :=
  { machine := c.machine, ops := c.ops, tagged := c.tagged, next }

theorem size_ops_ran (c : Cursor δ κ) (index : Nat) (e : Executed δ κ) :
    (c.ran index e).ops.size = c.ops.size :=
  (retags_tagAccess (Retags.refl c.ops) c.tagged index e.access).size

variable [Device δ] [Coprocessor κ]

/-- Effect of the instruction at `index`, for which the cursor stands. -/
def Cursor.effect (c : Cursor δ κ) (index : Nat) : Executed δ κ :=
  execute (c.machine.tick cyclesPerOp) (c.ops.getD index default).instr c.pc

/-- Run one instruction of a block at `base`, whatever the budget says. -/
def stepFreely (base : UInt32) (c : Cursor δ κ) : Progress (Cursor δ κ) (Outcome δ κ) :=
  match indexIn? base c.ops.size c.pc with
  | none =>
    match c.pending with
    | some target =>
      let (next, machine) := runOutside c.machine c.pc target
      .finished ({ c with machine }.left next)
    | none => .finished (c.left c.pc)
  | some index =>
    let e := c.effect index
    let c' := c.ran index e
    let pc := c.pending.getD (c.pc + 4)
    match e.step with
    | .exit next => .finished (c'.left next)
    | .branch target => .running { c' with pc, pending := some target }
    | .next => .running { c' with pc, pending := none }

omit [Device δ] [Coprocessor κ] in
/-- The iteration from `c` to `c'` was the jump back of a delay slot. -/
def jumpsBack (base : UInt32) (c c' : Cursor δ κ) : Bool :=
  match indexIn? base c.ops.size c.pc, c.pending, c'.pending with
  | some index, some target, none => goesBack base c.ops.size index target
  | _, _, _ => false

/-- An iteration differs from a free one only in leaving the block where a jump goes back
and the run has to stop. -/
theorem step_eq_stepFreely (base : UInt32) (c : Cursor δ κ) : step base c =
      match stepFreely base c with
      | .finished o => .finished o
      | .running c' =>
        if jumpsBack base c c' && c'.machine.clock.shouldStop then .finished (c'.left c'.pc)
        else .running c' := by
  unfold step stepFreely jumpsBack
  cases indexIn? base c.ops.size c.pc with
  | none =>
    cases c.pending with
    | none => rfl
    | some target => rfl
  | some index =>
    dsimp only [Cursor.effect, Cursor.ran]
    generalize execute (c.machine.tick cyclesPerOp) (c.ops.getD index default).instr c.pc = e
    obtain ⟨m, control, access⟩ := e
    cases control with
    | exit next => rfl
    | branch target => cases c.pending <;> rfl
    | next => cases c.pending <;> rfl

end Interpreter

end Dynarec
