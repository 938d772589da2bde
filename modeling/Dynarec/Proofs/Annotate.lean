/-
  Dynarec.Proofs.Annotate

  The marks that annotation puts on a block are true.

  Each pass keeps the instructions and only adds marks; `Annotates` says that
  every mark of interest was there before or is true of the instructions. It
  composes, so it holds of all passes together.
-/
import Dynarec.Block.Annotate
import Dynarec.Proofs.Host.Path

namespace Dynarec

open Interpreter (indexIn?)

/-- The instruction at `index` branches to an instruction of its own block at `pc`. -/
def BranchesInside (pc : UInt32) (ops : Array Op) (index : Nat) (i : Instruction) : Prop :=
  ∃ target inside, i.branchTarget? (pc + index.toUInt32 * 4) = some target ∧
    indexIn? pc ops.size target = some inside

/-- The instruction behind `index` has no effect. -/
def SlotIsNop (ops : Array Op) (index : Nat) : Prop :=
  ∀ {d : Op}, ops[index + 1]? = some d → d.instr.isNop = true

/-- There is a branch at `index`, and another one in its delay slot. -/
def BranchInSlot (ops : Array Op) (index : Nat) : Prop :=
  ∃ o d, ops[index]? = some o ∧ o.instr.hasDelaySlot = true ∧
    ops[index + 1]? = some d ∧ d.instr.hasDelaySlot = true

/-- Only branches with a branch in their delay slot are left to the interpreter. -/
def LeavesImpossible (ops : Array Op) : Prop :=
  ∀ {index : Nat} {o : Op}, ops[index]? = some o → o.flags.emulateBranch = true →
    BranchInSlot ops index

/-- The instructions of `ops` with more marks, all of them true. -/
structure Annotates (pc : UInt32) (ops ops' : Array Op) : Prop where
  size : ops'.size = ops.size
  op : ∀ {index : Nat} {o' : Op}, ops'[index]? = some o' → ∃ o, ops[index]? = some o ∧
    o'.instr = o.instr ∧
    (o'.flags.localBranch = true →
      o.flags.localBranch = true ∨ BranchesInside pc ops index o.instr) ∧
    (o'.flags.noDelaySlot = true → o.flags.noDelaySlot = true ∨ SlotIsNop ops index) ∧
    (o'.flags.emulateBranch = true → o.flags.emulateBranch = true ∨ BranchInSlot ops index)

namespace Annotates

variable {pc : UInt32} {ops ops' ops'' : Array Op}

theorem refl (pc : UInt32) (ops : Array Op) : Annotates pc ops ops :=
  ⟨rfl, fun ho => ⟨_, ho, rfl, .inl, .inl, .inl⟩⟩

/-- The instructions behind an index are the same. -/
theorem slotIsNop (h : Annotates pc ops ops') {index : Nat} (hn : SlotIsNop ops' index) :
    SlotIsNop ops index := by
  intro d hd
  have hlt : index + 1 < ops'.size := by
    rw [h.size]
    exact (Array.getElem?_eq_some_iff.mp hd).1
  have hd' : ops'[index + 1]? = some ops'[index + 1] := Array.getElem?_eq_getElem hlt
  obtain ⟨d1, hd1, hi, -⟩ := h.op hd'
  rw [hd] at hd1
  cases hd1
  rw [← hi]
  exact hn hd'

theorem branchInSlot (h : Annotates pc ops ops') {index : Nat} :
    BranchInSlot ops' index ↔ BranchInSlot ops index := by
  constructor
  · rintro ⟨o', d', ho', hbranch, hd', hslot⟩
    obtain ⟨o, ho, hi, -⟩ := h.op ho'
    obtain ⟨d, hd, hid, -⟩ := h.op hd'
    exact ⟨o, d, ho, hi ▸ hbranch, hd, hid ▸ hslot⟩
  · rintro ⟨o, d, ho, hbranch, hd, hslot⟩
    have hget : ∀ {k : Nat} {o : Op}, ops[k]? = some o → ∃ o', ops'[k]? = some o' ∧ o'.instr = o.instr := by
      intro k o ho
      have hlt : k < ops'.size := by
        rw [h.size]
        exact (Array.getElem?_eq_some_iff.mp ho).1
      obtain ⟨o1, ho1, hi, -⟩ := h.op (Array.getElem?_eq_getElem hlt)
      cases ho.symm.trans ho1
      exact ⟨_, Array.getElem?_eq_getElem hlt, hi⟩
    obtain ⟨o', ho', hi⟩ := hget ho
    obtain ⟨d', hd', hid⟩ := hget hd
    exact ⟨o', d', ho', hi ▸ hbranch, hd', hid ▸ hslot⟩

theorem leavesImpossible (h : Annotates pc ops ops') (hops : LeavesImpossible ops) :
    LeavesImpossible ops' := by
  intro index o' ho' hflag
  obtain ⟨o, ho, -, -, -, he⟩ := h.op ho'
  rcases he hflag with hf | hb
  · exact h.branchInSlot.mpr (hops ho hf)
  · exact h.branchInSlot.mpr hb

theorem trans (h1 : Annotates pc ops ops') (h2 : Annotates pc ops' ops'') :
    Annotates pc ops ops'' where
  size := h2.size.trans h1.size
  op := by
    intro index o'' ho''
    obtain ⟨o', ho', hi', hl', hn', he'⟩ := h2.op ho''
    obtain ⟨o, ho, hi, hl, hn, he⟩ := h1.op ho'
    refine ⟨o, ho, hi'.trans hi, fun h => ?_, fun h => ?_, fun h => ?_⟩
    · rcases hl' h with h | h
      · exact hl h
      · rw [BranchesInside, h1.size, hi] at h
        exact .inr h
    · rcases hn' h with h | h
      · exact hn h
      · exact .inr (h1.slotIsNop h)
    · rcases he' h with h | h
      · exact he h
      · exact .inr (h1.branchInSlot.mp h)

/-- A pass that changes each instruction on its own. -/
theorem mapIdx {g : Nat → Op → Op}
    (hg : ∀ {index o}, ops[index]? = some o → (g index o).instr = o.instr ∧
      ((g index o).flags.localBranch = true →
        o.flags.localBranch = true ∨ BranchesInside pc ops index o.instr) ∧
      ((g index o).flags.noDelaySlot = true →
        o.flags.noDelaySlot = true ∨ SlotIsNop ops index) ∧
      ((g index o).flags.emulateBranch = true →
        o.flags.emulateBranch = true ∨ BranchInSlot ops index)) :
    Annotates pc ops (ops.mapIdx g) where
  size := Array.size_mapIdx
  op := by
    intro index o' ho'
    rw [Array.getElem?_mapIdx] at ho'
    obtain ⟨o, ho, rfl⟩ := Option.map_eq_some_iff.mp ho'
    exact ⟨o, ho, hg ho⟩

/-- A pass that changes one instruction. -/
theorem modify {k : Nat} {g : Op → Op} (hg : ∀ {o}, ops[k]? = some o → (g o).instr = o.instr ∧
      ((g o).flags.localBranch = true →
        o.flags.localBranch = true ∨ BranchesInside pc ops k o.instr) ∧
      ((g o).flags.noDelaySlot = true → o.flags.noDelaySlot = true ∨ SlotIsNop ops k) ∧
      ((g o).flags.emulateBranch = true → o.flags.emulateBranch = true ∨ BranchInSlot ops k)) :
    Annotates pc ops (ops.modify k g) where
  size := Array.size_modify
  op := by
    intro index o' ho'
    rw [Array.getElem?_modify] at ho'
    split at ho'
    · rename_i hk
      subst hk
      obtain ⟨o, ho, rfl⟩ := Option.map_eq_some_iff.mp ho'
      exact ⟨o, ho, hg ho⟩
    · exact ⟨o', ho', rfl, .inl, .inl, .inl⟩

/-- Access tags are no marks of interest. -/
theorem set {k : Nat} {o : Op} (ho : ops[k]? = some o) {flags : OpFlags}
    (hl : flags.localBranch = o.flags.localBranch) (hn : flags.noDelaySlot = o.flags.noDelaySlot)
    (he : flags.emulateBranch = o.flags.emulateBranch) :
    Annotates pc ops (ops.setIfInBounds k { o with flags }) where
  size := Array.size_setIfInBounds
  op := by
    intro index o' ho'
    by_cases hk : k = index
    · subst hk
      have hlt := (Array.getElem?_eq_some_iff.mp ho).1
      rw [Array.getElem?_setIfInBounds_self_of_lt hlt] at ho'
      cases ho'
      exact ⟨o, ho, rfl, fun h => .inl (hl ▸ h), fun h => .inl (hn ▸ h), fun h => .inl (he ▸ h)⟩
    · rw [Array.getElem?_setIfInBounds_ne hk] at ho'
      exact ⟨o', ho', rfl, .inl, .inl, .inl⟩

end Annotates

namespace Annotate

variable (pc : UInt32)

/-! ## The passes -/

variable (ops : Array Op)

theorem annotates_impossibleBranches : Annotates pc ops (impossibleBranches ops) := by
  refine Annotates.mapIdx fun {index o} ho => ?_
  split
  · rename_i himpossible
    refine ⟨rfl, .inl, .inl, fun _ => .inr ?_⟩
    unfold isImpossible at himpossible
    split at himpossible
    · rename_i o' d ho' hd
      obtain ⟨hbranch, hslot⟩ := Bool.and_eq_true_iff.mp himpossible
      exact ⟨o', d, ho', hbranch, hd, hslot⟩
    · cases himpossible
  · exact ⟨rfl, .inl, .inl, .inl⟩

theorem annotates_markLocal (index : Nat) : Annotates pc ops (markLocal pc ops index) := by
  unfold markLocal
  cases ht : localTarget? pc ops index with
  | none => exact Annotates.refl pc ops
  | some inside =>
    have hbranch : ∀ {o}, ops[index]? = some o → BranchesInside pc ops index o.instr := by
      intro o ho
      unfold localTarget? at ht
      rw [ho] at ht
      dsimp only at ht
      split at ht
      · cases ht
      · split at ht
        · cases ht
        · rename_i target htarget
          refine ⟨target, inside, htarget, ?_⟩
          rw [← ht]
          rfl
    dsimp only
    refine Annotates.trans ?_ (Annotates.modify fun _ => ⟨rfl, .inl, .inl, .inl⟩)
    exact Annotates.modify fun ho => ⟨rfl, fun _ => .inr (hbranch ho), .inl, .inl⟩

theorem annotates_localBranches : Annotates pc ops (localBranches pc ops) := by
  unfold localBranches
  generalize List.range ops.size = indices
  induction indices generalizing ops with
  | nil => exact Annotates.refl pc ops
  | cons index indices ih => exact (annotates_markLocal pc ops index).trans (ih _)

theorem annotates_nopDelaySlots : Annotates pc ops (nopDelaySlots ops) := by
  refine Annotates.mapIdx fun {index o} _ => ?_
  cases hd : ops[index + 1]? with
  | none => exact ⟨rfl, .inl, .inl, .inl⟩
  | some d =>
    dsimp only
    split
    · rename_i hnop
      refine ⟨rfl, .inl, fun _ => .inr ?_, .inl⟩
      intro d' hd'
      rw [hd] at hd'
      cases hd'
      exact (Bool.and_eq_true_iff.mp hnop).2
    · exact ⟨rfl, .inl, .inl, .inl⟩

/-- Two instructions that differ in access tags at most. -/
structure SameMarks (o o' : Op) : Prop where
  instr : o'.instr = o.instr
  localBranch : o'.flags.localBranch = o.flags.localBranch
  noDelaySlot : o'.flags.noDelaySlot = o.flags.noDelaySlot
  emulateBranch : o'.flags.emulateBranch = o.flags.emulateBranch

theorem sameMarks_tagged (o : Op) (kind : RegionKind) :
    SameMarks o { o with flags := o.flags.tagged kind } := by
  have hf : (o.flags.tagged kind).localBranch = o.flags.localBranch ∧
      (o.flags.tagged kind).noDelaySlot = o.flags.noDelaySlot ∧
      (o.flags.tagged kind).emulateBranch = o.flags.emulateBranch := by
    unfold OpFlags.tagged
    split
    · exact ⟨rfl, rfl, rfl⟩
    · cases kind with
      | direct => exact ⟨Bool.or_false _, Bool.or_false _, Bool.or_false _⟩
      | device => exact ⟨Bool.or_false _, Bool.or_false _, Bool.or_false _⟩
  exact ⟨rfl, hf.1, hf.2.1, hf.2.2⟩

variable (layout : Layout)

theorem sameMarks_tagKnown (k : Known) (o : Op) : SameMarks o (tagKnown layout k o) := by
  unfold tagKnown
  split
  · split
    · exact ⟨rfl, rfl, rfl, rfl⟩
    · split
      · exact sameMarks_tagged o _
      · exact ⟨rfl, rfl, rfl, rfl⟩
  · exact ⟨rfl, rfl, rfl, rfl⟩

theorem length_staticIoFrom (k : Known) (ops : List Op) :
    (staticIoFrom layout k ops).length = ops.length := by
  induction ops generalizing k with
  | nil => rfl
  | cons o ops ih => simp only [staticIoFrom, List.length_cons, ih]

theorem sameMarks_staticIoFrom (k : Known) {ops : List Op} {index : Nat} {o' : Op}
    (h : (staticIoFrom layout k ops)[index]? = some o') :
    ∃ o, ops[index]? = some o ∧ SameMarks o o' := by
  induction ops generalizing k index with
  | nil => cases h
  | cons o ops ih =>
    cases index with
    | zero =>
      cases h
      exact ⟨o, rfl, sameMarks_tagKnown layout _ o⟩
    | succ index => exact ih _ h

theorem annotates_staticIo (ops : Array Op) : Annotates pc ops (staticIo layout ops) where
  size := length_staticIoFrom layout _ ops.toList
  op := by
    intro index o' ho'
    have h : (staticIoFrom layout Known.initial ops.toList)[index]? = some o' := by
      simpa [staticIo] using ho'
    obtain ⟨o, ho, hsame⟩ := sameMarks_staticIoFrom layout Known.initial h
    exact ⟨o, by simpa using ho, hsame.instr, fun h => .inl (hsame.localBranch ▸ h),
      fun h => .inl (hsame.noDelaySlot ▸ h), fun h => .inl (hsame.emulateBranch ▸ h)⟩

end Annotate

/-- A pass that is made if the settings ask for it. -/
theorem Annotates.thenIf {pc : UInt32} {ops ops' : Array Op} (h : Annotates pc ops ops')
    {pass : Array Op → Array Op} (hpass : ∀ ops, Annotates pc ops (pass ops)) (wanted : Bool) :
    Annotates pc ops (if wanted then pass ops' else ops') := by
  cases wanted with
  | true => exact h.trans (hpass ops')
  | false => exact h

/-- Annotation only adds marks that are true. -/
theorem annotates_annotate (layout : Layout) (config : Config) (pc : UInt32) (ops : Array Op) :
    Annotates pc ops (annotate layout config pc ops).ops := by
  have h1 := (Annotates.refl pc ops).thenIf (Annotate.annotates_impossibleBranches pc)
    config.detectImpossibleBranches
  have h2 := h1.thenIf (Annotate.annotates_localBranches pc) config.localBranches
  have h3 := h2.trans (Annotate.annotates_nopDelaySlots pc _)
  exact h3.thenIf (Annotate.annotates_staticIo pc layout) config.flagIo

/-- Without marks there is none that could be wrong. -/
theorem faithful_of_plain {pc : UInt32} {ops : Array Op} {exact : Prop} (hsize : ops.size ≤ 65535)
    (hplain : ∀ o ∈ ops, o.flags.localBranch = false ∧ o.flags.noDelaySlot = false)
    (hslot : exact → ∀ {index o}, ops[index]? = some o →
      o.instr.hasDelaySlot = true → index + 1 < ops.size)
    (hdecided : exact → ∀ o ∈ ops, Interpreter.isSelfLez o.instr = false) :
    BlockSource.Faithful { pc, ops } exact where
  size := hsize
  noDelaySlot ho hflag _ := by
    rw [(hplain _ (Array.mem_of_getElem? ho)).2] at hflag
    cases hflag
  localBranch ho hflag := by
    rw [(hplain _ (Array.mem_of_getElem? ho)).1] at hflag
    cases hflag
  slot hx _ _ ho := hslot hx ho
  decided hx _ _ ho := hdecided hx _ (Array.mem_of_getElem? ho)

/-- True marks stay true when more of them are added. -/
theorem Annotates.faithful {pc : UInt32} {ops ops' : Array Op} {exact : Prop}
    (h : Annotates pc ops ops') (hF : BlockSource.Faithful { pc, ops } exact) :
    BlockSource.Faithful { pc, ops := ops' } exact where
  size := h.size ▸ hF.size
  noDelaySlot := by
    intro index o' d' ho' hflag hd'
    obtain ⟨o, ho, -, -, hn, -⟩ := h.op ho'
    obtain ⟨d, hd, hi, -⟩ := h.op hd'
    rw [hi]
    -- the mark was there before, or the slot was found to have no effect
    rcases hn hflag with hf | hnop
    · exact hF.noDelaySlot ho hf hd
    · exact hnop hd
  localBranch := by
    intro index o' ho' hflag
    obtain ⟨o, ho, hi, hl, -⟩ := h.op ho'
    have hinside : BranchesInside pc ops index o.instr := by
      rcases hl hflag with hf | hinside
      · obtain ⟨target, inside, o1, ho1, -, htarget, hin⟩ := hF.localBranch ho hf
        rw [ho] at ho1
        cases ho1
        exact ⟨target, inside, htarget, hin⟩
      · exact hinside
    obtain ⟨target, inside, htarget, hin⟩ := hinside
    exact ⟨target, inside, o', ho', hflag, hi ▸ htarget, h.size ▸ hin⟩
  slot := by
    intro hx index o' ho' hdelay
    obtain ⟨o, ho, hi, -⟩ := h.op ho'
    have hlt := hF.slot hx ho (hi ▸ hdelay)
    exact h.size ▸ hlt
  decided := by
    intro hx index o' ho'
    obtain ⟨o, ho, hi, -⟩ := h.op ho'
    rw [hi]
    exact hF.decided hx ho

end Dynarec
