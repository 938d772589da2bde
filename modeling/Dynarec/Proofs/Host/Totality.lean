/-
  Dynarec.Proofs.Host.Totality

  Code can be generated for every block, and it is in order.

  The instructions of a block may be any words with any flags; the flags need
  not fit them, nor one another. Each instruction needs seven host registers at
  most, adds thirteen operations at most, and charges no more cycles than the
  interpreter does, so that nothing runs out: `Opened.lowerOp`. What it adds is a
  straight line, at the end of which there may be a jump inside the block.

  The finished program is `HostProgram.InOrder`. Its jumps lead to its entries,
  and from an entry to a jump behind it there is always something to pay.
-/
import Dynarec.Host.Generator
import Dynarec.Proofs.Host.Costs
import Dynarec.Proofs.Host.Layout

namespace Dynarec

/-- The place that a jump inside the block leads to. -/
def HostOp.label? : HostOp → Option Nat
  | .jump label _ | .jumpIf label _ => some label
  | _ => none

theorem HostOp.isStraight_iff {op : HostOp} : op.IsStraight ↔ op.label? = none := by
  cases op <;> simp [IsStraight, label?]

namespace Lowering

/-! ## Code in order -/

/-- Cycles charged by the operations in front of `place`. -/
def before (ops : List HostOp) (place : Nat) : Nat := ticks (ops.take place)

variable {ops : List HostOp}

theorem before_append {place : Nat} (h : place ≤ ops.length)
    (ops' : List HostOp) : before (ops ++ ops') place = before ops place := by
  unfold before
  rw [List.take_append_of_le_length h]

theorem before_le_ticks (ops : List HostOp) (place : Nat) : before ops place ≤ ticks ops := by
  have hsplit := ticks_append (ops.take place) (ops.drop place)
  rw [List.take_append_drop] at hsplit
  unfold before
  omega

theorem before_length (ops : List HostOp) : before ops ops.length = ticks ops := by
  unfold before
  rw [List.take_length]

/-- The code so far is in order: labels stand in it, every jump has a fixup of its own, and from a
label to a jump behind it cycles are charged. -/
structure InOrder (s : Lowering) : Prop where
  labels : ∀ {inside place : Nat}, s.labels[inside]? = some (some place) → place ≤ s.program.size
  fixups : s.fixups.toList.Pairwise fun x y => x.1 < y.1
  placed : ∀ {x : Nat × Nat}, x ∈ s.fixups.toList → x.1 < s.program.size
  jumps : ∀ {place : Nat} {op : HostOp}, s.program.toList[place]? = some op → ¬op.IsStraight →
    ∃ inside, (place, inside) ∈ s.fixups.toList
  paced : ∀ {inside place : Nat} {x : Nat × Nat}, s.labels[inside]? = some (some place) →
    x ∈ s.fixups.toList → place ≤ x.1 →
      before s.program.toList place < before s.program.toList x.1

variable {s s' s'' : Lowering} {locks room charged : Nat}

theorem Extends.size_eq (h : s.Extends s' ops) : s'.program.size = s.program.size + ops.length := by
  rw [← Array.length_toList, h.program, List.length_append, Array.length_toList]

theorem InOrder.of_extends (h : s.InOrder) (he : s.Extends s' ops) : s'.InOrder where
  labels := by
    intro inside place hl
    rw [he.labels] at hl
    have hle := h.labels hl
    rw [he.size_eq]
    omega
  fixups := by
    rw [he.fixups]
    exact h.fixups
  placed := by
    intro x hx
    rw [he.fixups] at hx
    have hlt := h.placed hx
    rw [he.size_eq]
    omega
  jumps := by
    intro place op hop hjump
    rw [he.program] at hop
    rw [he.fixups]
    rcases Nat.lt_or_ge place s.program.toList.length with hlt | hge
    · rw [List.getElem?_append_left hlt] at hop
      exact h.jumps hop hjump
    · rw [List.getElem?_append_right hge] at hop
      -- what was appended has no jumps
      exact absurd (he.straight op (List.mem_of_getElem? hop)) hjump
  paced := by
    intro inside place x hl hx hle
    rw [he.labels] at hl
    rw [he.fixups] at hx
    have hpaced := h.paced hl hx hle
    have hlt := h.placed hx
    rw [he.program, before_append (by simpa using h.labels hl), before_append (by simp; omega)]
    exact hpaced

/-- A label is the new one or an old one. -/
theorem eq_or_of_getElem?_setIfInBounds {labels : Array (Option Nat)} {index inside new place : Nat}
    (h : (labels.setIfInBounds index (some new))[inside]? = some (some place)) :
    place = new ∨ labels[inside]? = some (some place) := by
  rw [Array.getElem?_setIfInBounds] at h
  split at h
  · split at h
    · cases h
      exact .inl rfl
    · cases h
  · exact .inr h

/-- Nothing is behind a new label yet. -/
theorem InOrder.label (h : s.InOrder) (index : Nat) :
    InOrder { s with labels := s.labels.setIfInBounds index (some s.program.size) } where
  labels := by
    intro inside place hl
    rcases eq_or_of_getElem?_setIfInBounds hl with rfl | hl
    · exact Nat.le_refl _
    · exact h.labels hl
  fixups := h.fixups
  placed := h.placed
  jumps := h.jumps
  paced := by
    intro inside place x hl hx hle
    rcases eq_or_of_getElem?_setIfInBounds hl with rfl | hl
    · exact absurd (h.placed hx) (Nat.not_lt_of_le hle)
    · exact h.paced hl hx hle

/-- A jump with its fixup, all cycles in front of it charged. -/
theorem InOrder.jump (h : s.InOrder) (op : HostOp) (inside : Nat)
    (hpaced : ∀ {j place : Nat}, s.labels[j]? = some (some place) →
      before s.program.toList place < ticks s.program.toList) :
    InOrder { s with
      program := s.program.push op, fixups := s.fixups.push (s.program.size, inside) } where
  labels := by
    intro j place hl
    have hle := h.labels hl
    simp only [Array.size_push]
    omega
  fixups := by
    rw [Array.toList_push]
    refine List.pairwise_append.mpr ⟨h.fixups, by simp, fun x hx y hy => ?_⟩
    rw [List.mem_singleton.mp hy]
    exact h.placed hx
  placed := by
    intro x hx
    simp only [Array.size_push]
    rcases List.mem_append.mp (Array.toList_push ▸ hx) with hx | hx
    · have hlt := h.placed hx
      omega
    · rw [List.mem_singleton.mp hx]
      exact Nat.lt_succ_self _
  jumps := by
    intro place op' hop hjump
    simp only [Array.toList_push] at hop ⊢
    rcases Nat.lt_or_ge place s.program.toList.length with hlt | hge
    · rw [List.getElem?_append_left hlt] at hop
      obtain ⟨j, hj⟩ := h.jumps hop hjump
      exact ⟨j, List.mem_append_left _ hj⟩
    · -- the jump itself
      have hbound := (List.getElem?_eq_some_iff.mp hop).1
      have hplace : place = s.program.size := by
        simp only [List.length_append, List.length_singleton, Array.length_toList] at hbound hge
        omega
      exact ⟨inside, by simp [hplace]⟩
  paced := by
    intro j place x hl hx hle
    have hplace := h.labels hl
    simp only [Array.toList_push] at hx ⊢
    rw [before_append (by simpa using hplace)]
    rcases List.mem_append.mp hx with hx | hx
    · have hlt := h.placed hx
      rw [before_append (by simp; omega)]
      exact h.paced hl hx hle
    · -- between any label and the jump there is a charge
      rw [List.mem_singleton.mp hx, before_append (by simp), ← Array.length_toList, before_length]
      exact hpaced hl

/-! ## Instructions -/

/-- From `s` to `s'` the code of an instruction was generated: a straight line and perhaps a jump
inside the block, in front of which all cycles are charged. -/
inductive Lowers (s s' : Lowering) (charged : Nat) : Prop
  | line (happends : s.Appends s' 7 12 charged) : Lowers s s' charged
  | jump {mid : Lowering} (happends : s.Appends mid 7 11 charged) (hcycles : mid.cycles = 0)
      (hcharged : 0 < charged) (op : HostOp) (inside : Nat) (hop : op.cycles = 0)
      (hjump : s' = { mid with
        program := mid.program.push op, fixups := mid.fixups.push (mid.program.size, inside) }) :
      Lowers s s' charged

theorem Lowers.wellFormed (h : Lowers s s' charged) : s'.cache.WellFormed := by
  cases h with
  | line ha => exact ha.wellFormed
  | jump ha _ _ _ _ _ hjump =>
    subst hjump
    exact ha.wellFormed

theorem Lowers.weight_le (h : Lowers s s' charged) : s'.weight ≤ s.weight + 12 := by
  cases h with
  | line ha => exact ha.weight
  | jump ha _ _ _ _ _ hjump =>
    subst hjump
    have hle := ha.weight
    simp only [weight, Array.size_push] at hle ⊢
    omega

theorem Lowers.labels_eq (h : Lowers s s' charged) : s'.labels = s.labels := by
  cases h with
  | line ha =>
    obtain ⟨ops, he, -⟩ := ha.line
    exact he.labels
  | jump ha _ _ _ _ _ hjump =>
    obtain ⟨ops, he, -⟩ := ha.line
    subst hjump
    exact he.labels

theorem Appends.ticks_eq (h : s.Appends s' locks room charged) :
    ticks s'.program.toList + s'.cycles.toNat =
      ticks s.program.toList + s.cycles.toNat + charged := by
  obtain ⟨ops, he, hsum⟩ := h.line
  rw [he.program, ticks_append]
  omega

theorem Lowers.ticks_eq (h : Lowers s s' charged) : ticks s'.program.toList + s'.cycles.toNat =
      ticks s.program.toList + s.cycles.toNat + charged := by
  cases h with
  | line ha => exact ha.ticks_eq
  | jump ha _ _ op _ hop hjump =>
    subst hjump
    have hsum := ha.ticks_eq
    simp only [Array.toList_push, ticks_append, ticks_cons, ticks_nil, hop]
    omega

theorem Appends.inOrder (h : s.Appends s' locks room charged) (hs : s.InOrder) : s'.InOrder := by
  obtain ⟨ops, he, -⟩ := h.line
  exact hs.of_extends he

theorem Lowers.inOrder (h : Lowers s s' charged) (hs : s.InOrder) : s'.InOrder := by
  cases h with
  | line ha => exact ha.inOrder hs
  | jump ha hcycles hcharged op inside hop hjump =>
    rename_i mid
    subst hjump
    refine (ha.inOrder hs).jump op inside fun {j place} hl => ?_
    -- labels stand in front of this instruction, which charges something before it jumps
    have hsum := ha.ticks_eq
    obtain ⟨ops, he, -⟩ := ha.line
    rw [he.labels] at hl
    have hbefore := before_le_ticks s.program.toList place
    rw [he.program, before_append (by simpa using hs.labels hl), ← he.program]
    rw [hcycles, UInt32.toNat_zero] at hsum
    omega

variable {source : BlockSource} {index : Nat} {o : Op}

/-- Behind its delay slot a branch leaves or jumps. -/
theorem Appends.lowerJump (h : s.Appends s' 7 10 charged) (hcharged : 0 < charged)
    (hi : o.instr.hasDelaySlot = true) (source : BlockSource) (pc : UInt32) :
    ∃ s'', lowerJump source o pc s' = .ok () s'' ∧ Lowers s s'' charged := by
  unfold Lowering.lowerJump
  by_cases hj : isRegisterJump o.instr = true
  · rw [if_pos hj]
    obtain ⟨_, s1, h1, ha1⟩ := costs_exitWith .exitToTarget (by trivial) h.wellFormed
      (Nat.zero_le _) s'.cycles.toNat_lt
    exact ⟨s1, h1, .line (h.trans ha1)⟩
  · rw [if_neg hj]
    obtain ⟨target, ht⟩ := Interpreter.branchTarget?_isSome hi (by simpa using hj) pc
    rw [ht]
    dsimp only
    obtain ⟨s1, ha1, hcycles, hgo⟩ := settles h.wellFormed
    rw [hgo]
    split
    · refine ⟨_, rfl, .jump (h.trans ha1) hcycles hcharged _ _ ?_ rfl⟩
      split <;> rfl
    · have hplain : (if (decidingCondition? o.instr).isSome then HostOp.exitIf target
          else .exit target).IsPlain := by split <;> trivial
      obtain ⟨_, s2, h2, ha2⟩ := costs_emit hplain ha1.wellFormed (Nat.zero_le _) s1.cycles.toNat_lt
      exact ⟨s2, h2, .line (h.trans (ha1.trans ha2))⟩

/-- A branch at `index`, behind the state `s` in which its cycles are not charged yet. -/
theorem lowerBranch_total (hi : o.instr.hasDelaySlot = true) (hindex : index < source.ops.size)
    (hw : s.cache.WellFormed) (hroom : 7 ≤ s.cache.unlocked)
    (hcycles : s.cycles.toNat + 4 < 4294967296) {u : Unit} {s1 : Lowering}
    (h1 : charge cyclesPerOp s = .ok u s1) (ha1 : s.Appends s1 0 0 cyclesPerOp.toNat)
    (pc : UInt32) :
    ∃ next s' charged, lowerBranch source index o pc s1 = .ok next s' ∧ Lowers s s' charged ∧
      index < next ∧ 2 * index + charged ≤ 2 * min next source.ops.size := by
  have htwo : cyclesPerOp.toNat = 2 := rfl
  have hsum1 := ha1.ticks_eq
  unfold lowerBranch
  split
  · -- left to the interpreter; the cycles just charged are taken back
    obtain ⟨_, s2, h2⟩ : ∃ v s2, uncharge cyclesPerOp s1 = .ok v s2 := ⟨_, _, rfl⟩
    rw [bind_eq_of_ok h2, uncharge_charge h1 h2]
    obtain ⟨_, s3, h3, ha3⟩ :=
      costs_exitWith (.exit pc) (by trivial) hw (Nat.zero_le _) s.cycles.toNat_lt
    rw [bind_eq_of_ok h3]
    exact ⟨index + 2, s3, 0, rfl, .line (ha3.mono (by omega) (by omega)), by omega, by omega⟩
  · obtain ⟨_, s2, h2, ha2⟩ := costs_latch o.instr ha1.wellFormed
      (by have := ha1.unlocked; omega) s1.cycles.toNat_lt
    have ha2 := ha1.trans ha2
    obtain ⟨_, s3, h3, ha3⟩ := costs_lowerLink o.instr pc ha2.wellFormed
      (by have := ha2.unlocked; omega) s2.cycles.toNat_lt
    have ha3 := ha2.trans ha3
    obtain ⟨_, s4, h4, ha4⟩ := costs_releaseLocks ha3.wellFormed (Nat.zero_le _) s3.cycles.toNat_lt
    have ha4 := ha3.trans ha4
    rw [bind_eq_of_ok h2, bind_eq_of_ok h3, bind_eq_of_ok h4]
    -- the operands and the link took three host registers at most; the delay slot takes four
    cases hslot : source.ops[index + 1]? with
    | none =>
      dsimp only
      have hfits : s.Appends s4 7 10 _ := ha4.mono (by omega) (by omega)
      obtain ⟨s5, h5, hl⟩ := hfits.lowerJump (by omega) hi source pc
      rw [bind_eq_of_ok h5]
      exact ⟨index + 1, s5, _, rfl, hl, by omega, by omega⟩
    | some d =>
      have hnext := (Array.getElem?_eq_some_iff.mp hslot).1
      dsimp only
      obtain ⟨ops, -, hsum⟩ := ha4.line
      obtain ⟨_, s5, h5, ha5⟩ := costs_lowerSlot (index + 1) o d (pc + 4) ha4.wellFormed
        (by have := ha4.unlocked; omega) (by omega)
      obtain ⟨s6, h6, hl⟩ := (ha4.trans ha5).lowerJump (by omega) hi source pc
      rw [bind_eq_of_ok h5, bind_eq_of_ok h6]
      exact ⟨index + 2, s6, _, rfl, hl, by omega, by omega⟩

/-- Code for one instruction. -/
theorem lowerOp_total (ho : source.ops[index]? = some o) (hw : s.cache.WellFormed)
    (hroom : 7 ≤ s.cache.unlocked) (hcycles : s.cycles.toNat + 4 < 4294967296) :
    ∃ next s' charged, lowerOp source index o s = .ok next s' ∧ Lowers s s' charged ∧
      index < next ∧ 2 * index + charged ≤ 2 * min next source.ops.size := by
  have hindex := (Array.getElem?_eq_some_iff.mp ho).1
  have htwo : cyclesPerOp.toNat = 2 := rfl
  unfold lowerOp
  split
  · obtain ⟨_, s1, h1, ha1⟩ := costs_exitWith (.exit (source.pc + index.toUInt32 * 4))
      (by trivial) hw (Nat.zero_le _) s.cycles.toNat_lt
    rw [bind_eq_of_ok h1]
    exact ⟨index + 2, s1, 0, rfl, .line (ha1.mono (by omega) (by omega)), by omega, by omega⟩
  · obtain ⟨_, s1, h1, ha1⟩ := costs_charge cyclesPerOp hw (Nat.zero_le _) (by omega)
    rw [bind_eq_of_ok h1]
    split
    · rename_i hi
      exact lowerBranch_total hi hindex hw hroom hcycles h1 ha1 _
    · obtain ⟨_, s2, h2, ha2⟩ := costs_lowerSimple index o (source.pc + index.toUInt32 * 4)
        ha1.wellFormed (by have := ha1.unlocked; omega) s1.cycles.toNat_lt
      rw [bind_eq_of_ok h2]
      exact ⟨index + 1, s2, _, rfl, .line ((ha1.trans ha2).mono (by omega) (by omega)), by omega,
        by omega⟩

/-! ## Blocks -/

/-- In front of the instruction at `index` the generator has made what there is to make so far, and
has room for the rest. -/
structure Ready (source : BlockSource) (index : Nat) (s : Lowering) : Prop where
  inOrder : s.InOrder
  wellFormed : s.cache.WellFormed
  unlocked : s.cache.unlocked = 8
  size : s.labels.size = source.ops.size
  weight : s.weight ≤ 13 * min index source.ops.size
  cycles : ticks s.program.toList + s.cycles.toNat ≤ 2 * min index source.ops.size
  opened : index ≠ 0 → ∃ place, s.labels[0]? = some (some place)

/-- Where code generation starts. -/
def start (source : BlockSource) (cache : RegisterCache) : Lowering :=
  { labels := Array.replicate source.ops.size none, cache }

theorem inOrder_start (source : BlockSource) (cache : RegisterCache) :
    (start source cache).InOrder where
  labels := by
    intro inside place h
    simp [start, Array.getElem?_replicate] at h
  fixups := by simp [start]
  placed := by simp [start]
  jumps := by simp [start]
  paced := by simp [start]

theorem ready_start (source : BlockSource) (cache : RegisterCache) :
    Ready source 0 (start source cache.reset) where
  inOrder := inOrder_start source cache.reset
  wellFormed := cache.wellFormed_reset
  unlocked := cache.unlocked_reset
  size := Array.size_replicate
  weight := by
    have hempty : cache.reset.Empty := fun h => by simp [RegisterCache.reset]
    have hwait := (hempty.clean cache.wellFormed_reset).waiting_eq
    simp [start, Lowering.weight, hwait]
  cycles := by simp [start]
  opened := fun h => absurd rfl h

/-- The instruction at `index` got its label if it needs one; its code comes next. -/
structure Opened (source : BlockSource) (index : Nat) (s : Lowering) : Prop where
  inOrder : s.InOrder
  wellFormed : s.cache.WellFormed
  unlocked : s.cache.unlocked = 8
  size : s.labels.size = source.ops.size
  weight : s.weight ≤ 13 * index + 1
  cycles : ticks s.program.toList + s.cycles.toNat ≤ 2 * index
  entry : ∃ place, s.labels[0]? = some (some place)

theorem Ready.openAt (h : Ready source index s) (hindex : index < source.ops.size) (o : Op) :
    ∃ s', openAt index o s = .ok () s' ∧ Opened source index s' := by
  have hcycles := h.cycles
  have hweight := h.weight
  unfold Lowering.openAt
  split
  · -- everything is written back in front of a label
    obtain ⟨s1, ha, -, hgo⟩ := settles h.wellFormed
    obtain ⟨ops, he, -⟩ := ha.line
    refine ⟨{ s1 with labels := s1.labels.setIfInBounds index (some s1.program.size) }, hgo _, ?_⟩
    · exact {
        inOrder := (ha.inOrder h.inOrder).label index
        wellFormed := ha.wellFormed
        unlocked := by
          have hle := ha.unlocked
          rw [h.unlocked] at hle
          exact Nat.le_antisymm s1.cache.unlocked_le hle
        size := by simp only [Array.size_setIfInBounds, he.labels, h.size]
        weight := by
          have hle : s1.weight ≤ s.weight + 1 := ha.weight
          show s1.weight ≤ _
          omega
        cycles := by
          have hsum := ha.ticks_eq
          show ticks s1.program.toList + s1.cycles.toNat ≤ _
          omega
        -- the first instruction of a block always has a label
        entry := by
          rw [Array.getElem?_setIfInBounds, he.labels]
          split
          · rw [if_pos (by rw [h.size]; omega)]
            exact ⟨_, rfl⟩
          · exact h.opened (by assumption) }
  · rename_i hno
    refine ⟨s, rfl, ?_⟩
    exact {
      inOrder := h.inOrder
      wellFormed := h.wellFormed
      unlocked := h.unlocked
      size := h.size
      weight := by omega
      cycles := by omega
      entry := h.opened fun h0 => by simp [h0] at hno }

/-- There is room for the cycles of an instruction and its delay slot. -/
theorem Opened.cycles_lt (h : Opened source index s) (hindex : index < source.ops.size)
    (hsize : source.ops.size ≤ 65535) : s.cycles.toNat + 4 < 4294967296 := by
  have hcycles := h.cycles
  omega

theorem Opened.lowerOp (h : Opened source index s) (hsize : source.ops.size ≤ 65535)
    (ho : source.ops[index]? = some o) :
    ∃ next s', lowerOp source index o s = .ok next s' ∧ index < next ∧
      Ready source next { s' with cache := s'.cache.releaseLocks } := by
  have hindex := (Array.getElem?_eq_some_iff.mp ho).1
  have hroom : 7 ≤ s.cache.unlocked := by
    rw [h.unlocked]
    omega
  -- no instruction needs more than seven host registers, and all are unlocked in front of it
  obtain ⟨next, s', charged, hs', hl, hnext, hcharged⟩ :=
    lowerOp_total ho h.wellFormed hroom (h.cycles_lt hindex hsize)
  have hrelease := s'.cache.sameUse_releaseLocks
  refine ⟨next, s', hs', hnext, ?_⟩
  exact {
    inOrder := { hl.inOrder h.inOrder with }
    wellFormed := hrelease.wellFormed hl.wellFormed
    unlocked := s'.cache.unlocked_releaseLocks
    size := (congrArg Array.size hl.labels_eq).trans h.size
    weight := by
      have hbefore := h.weight
      have hadded := hl.weight_le
      simp only [Lowering.weight, hrelease.waiting_eq] at hbefore hadded ⊢
      omega
    cycles := by
      have hbefore := h.cycles
      have hadded := hl.ticks_eq
      show ticks s'.program.toList + s'.cycles.toNat ≤ _
      omega
    opened := fun _ => by
      show ∃ place, s'.labels[0]? = some (some place)
      rw [hl.labels_eq]
      exact h.entry }

/-- The rest of a block. -/
theorem Ready.lowerFrom (h : Ready source index s) (hsize : source.ops.size ≤ 65535) {fuel : Nat}
    (hfuel : source.ops.size ≤ fuel + index) :
    ∃ last s', lowerFrom source fuel index s = .ok () s' ∧ source.ops.size ≤ last ∧
      Ready source last s' := by
  induction fuel generalizing index s with
  | zero => exact ⟨index, s, rfl, by omega, h⟩
  | succ fuel ih =>
    unfold Lowering.lowerFrom
    cases ho : source.ops[index]? with
    | none => exact ⟨index, s, rfl, Array.getElem?_eq_none_iff.mp ho, h⟩
    | some o =>
      obtain ⟨s1, h1, hopened⟩ := h.openAt (Array.getElem?_eq_some_iff.mp ho).1 o
      obtain ⟨next, s2, h2, hnext, h3⟩ := hopened.lowerOp hsize ho
      -- thirteen operations for each of 65535 instructions stay below the limit
      have hlength : ¬maxProgram < s2.program.size := by
        have hweight := h3.weight
        have hmin := Nat.min_le_right next source.ops.size
        simp only [Lowering.weight] at hweight
        unfold maxProgram
        omega
      have hcheck : checkSize { s2 with cache := s2.cache.releaseLocks } =
          .ok () { s2 with cache := s2.cache.releaseLocks } := by
        unfold checkSize
        rw [bind_eq_of_ok (x := get) rfl, if_neg hlength]
        rfl
      obtain ⟨last, s', hrest, hlast, hready⟩ := ih h3 (by omega)
      refine ⟨last, s', ?_, hlast, hready⟩
      dsimp only
      rw [bind_eq_of_ok h1, bind_eq_of_ok h2, bind_eq_of_ok (x := releaseLocks) rfl,
        bind_eq_of_ok hcheck]
      exact hrest

/-- Generating code for the block, the generator gets to the instruction at `index`. -/
inductive ArrivesAt (source : BlockSource) (cache : RegisterCache) : Nat → Lowering → Prop
  | start : ArrivesAt source cache 0 (start source cache)
  | next {index next : Nat} {o : Op} {s s1 s2 : Lowering} (hs : ArrivesAt source cache index s)
      (ho : source.ops[index]? = some o) (hopen : openAt index o s = .ok () s1)
      (hop : lowerOp source index o s1 = .ok next s2) :
      ArrivesAt source cache next { s2 with cache := s2.cache.releaseLocks }

theorem ArrivesAt.ready {cache : RegisterCache} (h : ArrivesAt source cache.reset index s)
    (hsize : source.ops.size ≤ 65535) : Ready source index s := by
  -- the steps that were made are the ones that succeed, for there is only one result
  induction h with
  | start => exact ready_start source cache
  | next _ ho hopen hop ih =>
    obtain ⟨s1, h1, hopened⟩ := ih.openAt (Array.getElem?_eq_some_iff.mp ho).1 _
    cases hopen.symm.trans h1
    obtain ⟨next, s2, h2, -, hready⟩ := hopened.lowerOp hsize ho
    cases hop.symm.trans h2
    exact hready

/-- The cycles that a branch takes back were charged just before. -/
theorem ArrivesAt.cyclesPerOp_le {cache : RegisterCache} (h : ArrivesAt source cache.reset index s)
    (hsize : source.ops.size ≤ 65535) (ho : source.ops[index]? = some o) {s1 s2 : Lowering}
    (hopen : openAt index o s = .ok () s1) (hcharge : charge cyclesPerOp s1 = .ok () s2) :
    cyclesPerOp ≤ s2.cycles := by
  have hindex := (Array.getElem?_eq_some_iff.mp ho).1
  obtain ⟨s1', h1, hopened⟩ := (h.ready hsize).openAt hindex o
  cases hopen.symm.trans h1
  have hfits := hopened.cycles_lt hindex hsize
  cases hcharge
  have htwo : cyclesPerOp.toNat = 2 := rfl
  rw [UInt32.le_iff_toNat_le, UInt32.toNat_add, Nat.mod_eq_of_lt (by omega)]
  omega

/-! ## Jumps in place -/

theorem cycles_patchOp (place : Option Nat) (op : HostOp) :
    (patchOp place op).cycles = op.cycles := by
  cases op with
  | jump | jumpIf => cases place <;> rfl
  | _ => rfl

/-- A jump that is given a place leads there; without one it leaves. -/
theorem eq_of_label?_patchOp {place : Option Nat} {op : HostOp} {label : Nat} (hs : ¬op.IsStraight)
    (h : (patchOp place op).label? = some label) : place = some label := by
  cases op with
  | jump | jumpIf =>
    cases place with
    | none => cases h
    | some place => exact h
  | _ =>
    exact absurd trivial hs

theorem size_foldl_patch (labels : Array (Option Nat)) (fixups : List (Nat × Nat))
    (program : Array HostOp) : (fixups.foldl (patch labels) program).size = program.size := by
  induction fixups generalizing program with
  | nil => rfl
  | cons fixup fixups ih => rw [List.foldl_cons, ih, patch, Array.size_modify]

/-- Only the cycles of operations count. -/
theorem ticks_congr {ops ops' : List HostOp} (h : ops.map HostOp.cycles = ops'.map HostOp.cycles) :
    ticks ops = ticks ops' := by
  induction ops generalizing ops' with
  | nil =>
    cases ops' with
    | nil => rfl
    | cons op' ops' => cases h
  | cons op ops ih =>
    cases ops' with
    | nil => cases h
    | cons op' ops' =>
      rw [List.map_cons, List.map_cons] at h
      obtain ⟨hop, hops⟩ := List.cons.inj h
      rw [ticks_cons, ticks_cons, hop, ih hops]

theorem before_congr {ops ops' : List HostOp} (h : ops.map HostOp.cycles = ops'.map HostOp.cycles)
    (place : Nat) : before ops place = before ops' place := by
  apply ticks_congr
  rw [List.map_take, List.map_take, h]

/-- Jumps charge nothing, with or without a place. -/
theorem map_cycles_foldl_patch (labels : Array (Option Nat)) (fixups : List (Nat × Nat))
    (program : Array HostOp) :
    (fixups.foldl (patch labels) program).toList.map HostOp.cycles =
      program.toList.map HostOp.cycles := by
  induction fixups generalizing program with
  | nil => rfl
  | cons fixup fixups ih =>
    rw [List.foldl_cons, ih]
    apply List.ext_getElem?
    intro j
    rw [List.getElem?_map, List.getElem?_map, Array.getElem?_toList, Array.getElem?_toList, patch,
      Array.getElem?_modify]
    split
    · cases program[j]? with
      | none => rfl
      | some op => exact congrArg some (cycles_patchOp _ op)
    · rfl

end Lowering

namespace HostProgram

open Lowering (before ticks)

/-- A program that stays inside itself and, while it does, pays as it goes: its entries stand in
order, its jumps lead to entries, it ends with an exit, and from an entry to a jump behind it cycles
are charged, though no more than twice the number `n` of instructions in all. -/
structure InOrder (p : HostProgram) (n : Nat) : Prop where
  sorted : p.entries.toList.Pairwise fun x y => x.1 < y.1
  entry : ∃ place, (0, place) ∈ p.entries.toList
  placed : ∀ {offset place : Nat}, (offset, place) ∈ p.entries.toList → place < p.ops.size
  jumps : ∀ {place label : Nat} {op : HostOp}, p.ops[place]? = some op → op.label? = some label →
    ∃ offset, (offset, label) ∈ p.entries.toList
  last : ∃ next, p.ops[p.ops.size - 1]? = some (.exit next)
  paced : ∀ {offset place place' label : Nat} {op : HostOp}, (offset, place) ∈ p.entries.toList →
    p.ops[place']? = some op → op.label? = some label → place ≤ place' →
      before p.ops.toList place < before p.ops.toList place'
  total : ticks p.ops.toList ≤ 2 * n

end HostProgram

namespace Lowering

variable {s : Lowering}

/-- Jumps given their places. -/
theorem InOrder.assemble (h : s.InOrder) (hsize : s.labels.size ≤ 65536)
    (hentry : ∃ place, s.labels[0]? = some (some place))
    (hplaced : ∀ {inside place : Nat}, s.labels[inside]? = some (some place) →
      place < s.program.size)
    (hlast : ∃ next, s.program[s.program.size - 1]? = some (.exit next)) {n : Nat}
    (htotal : ticks s.program.toList ≤ 2 * n) (pc : UInt32) :
    HostProgram.InOrder
      { pc, ops := s.fixups.foldl (patch s.labels) s.program, entries := entries s.labels } n := by
  rw [← Array.foldl_toList]
  have hmap := map_cycles_foldl_patch s.labels s.fixups.toList s.program
  -- a jump with a place had a fixup, and the place is that of its label
  have hjump {place label : Nat} {op : HostOp}
      (hop : (s.fixups.toList.foldl (patch s.labels) s.program)[place]? = some op)
      (hl : op.label? = some label) : ∃ inside, (place, inside) ∈ s.fixups.toList ∧
        s.labels[inside]? = some (some label) := by
    have hlt := (Array.getElem?_eq_some_iff.mp hop).1
    rw [size_foldl_patch] at hlt
    have hold := Array.getElem?_eq_getElem hlt
    by_cases hs : s.program[place].IsStraight
    · rw [foldl_patch_of_isStraight s.labels hold hs] at hop
      cases hop
      rw [HostOp.isStraight_iff.mp hs] at hl
      cases hl
    · obtain ⟨inside, hmem⟩ := h.jumps (Array.getElem?_toList.trans hold) hs
      rw [foldl_patch_of_mem s.labels h.fixups hmem hold] at hop
      cases hop
      have hplace := eq_of_label?_patchOp hs hl
      exact ⟨inside, hmem, Option.join_eq_some_iff.mp hplace⟩
  exact {
    sorted := pairwise_entries hsize
    entry := by
      obtain ⟨place, hplace⟩ := hentry
      exact ⟨place, (mem_entries hsize).mpr hplace⟩
    placed := by
      intro offset place hmem
      rw [size_foldl_patch]
      exact hplaced ((mem_entries hsize).mp hmem)
    jumps := by
      intro place label op hop hl
      obtain ⟨inside, -, hlabel⟩ := hjump hop hl
      exact ⟨inside, (mem_entries hsize).mpr hlabel⟩
    last := by
      obtain ⟨next, hnext⟩ := hlast
      rw [size_foldl_patch]
      exact ⟨next, foldl_patch_of_isStraight s.labels hnext trivial⟩
    paced := by
      intro offset place place' label op hmem hop hl hle
      obtain ⟨inside, hfix, -⟩ := hjump hop hl
      rw [before_congr hmap, before_congr hmap]
      exact h.paced ((mem_entries hsize).mp hmem) hfix hle
    total := by
      rw [ticks_congr hmap]
      exact htotal }

theorem exitWith_total (op : HostOp) (hw : s.cache.WellFormed) : ∃ mid, s.Appends mid 0 1 0 ∧
      exitWith op s = .ok () { mid with program := mid.program.push op } := by
  obtain ⟨s1, ha, -, hgo⟩ := settles hw
  exact ⟨s1, ha, hgo (emit op)⟩

/-- Code for a whole block. -/
theorem lowerBlock_total (source : BlockSource) (cache : RegisterCache) (hpos : 0 < source.ops.size)
    (hsize : source.ops.size ≤ 65535) :
    ∃ p s, lowerBlock source (start source cache.reset) = .ok p s ∧
      p.InOrder source.ops.size := by
  obtain ⟨last, s, hs, hlast, hready⟩ :=
    (ready_start source cache).lowerFrom hsize (Nat.le_add_right _ 0)
  obtain ⟨s1, ha, hexit⟩ :=
    exitWith_total (.exit (source.pc + source.ops.size.toUInt32 * 4)) hready.wellFormed
  obtain ⟨ops, he, -⟩ := ha.line
  -- the exit at the end stands behind all labels, so that each of them has an operation
  have hin1 := ha.inOrder hready.inOrder
  have hstraight : (HostOp.exit (source.pc + source.ops.size.toUInt32 * 4)).IsStraight := trivial
  have hin := hin1.of_extends (Extends.push hstraight ha.wellFormed)
  refine ⟨_, { s1 with program := #[] }, ?_, hin.assemble ?_ ?_ ?_ ?_ ?_ source.pc⟩
  · unfold lowerBlock
    rw [bind_eq_of_ok hs, bind_eq_of_ok hexit]
    rfl
  · show s1.labels.size ≤ 65536
    rw [he.labels, hready.size]
    omega
  · show ∃ place, s1.labels[0]? = some (some place)
    rw [he.labels]
    exact hready.opened (by omega)
  · intro inside place hl
    have hle := hin1.labels hl
    rw [Array.size_push]
    omega
  · refine ⟨source.pc + source.ops.size.toUInt32 * 4, ?_⟩
    rw [Array.size_push, Nat.add_sub_cancel, Array.getElem?_push_size]
  · have hcycles := hready.cycles
    have hsum := ha.ticks_eq
    rw [Array.toList_push, ticks_append]
    show ticks s1.program.toList + 0 ≤ _
    omega

end Lowering

namespace HostProgram

/-! ## Programs in order -/

theorem inOrder_of_generate {source : BlockSource} (cache : RegisterCache)
    (hpos : 0 < source.ops.size) (hsize : source.ops.size ≤ 65535) :
    ∃ p, (generate source cache.reset).result = .ok p ∧ p.InOrder source.ops.size := by
  obtain ⟨p, s, hs, hp⟩ := Lowering.lowerBlock_total source cache hpos hsize
  refine ⟨p, ?_, hp⟩
  have hempty : ¬source.ops.isEmpty = true := by
    rw [Array.isEmpty_iff_size_eq_zero]
    omega
  unfold Lowering.start at hs
  unfold generate
  rw [if_neg hempty, hs]

variable {p : HostProgram} {n : Nat}

/-- Offset zero and every target is an entry. -/
theorem InOrder.mem_entries (h : p.InOrder n) {offset : Nat}
    (hoffset : offset = 0 ∨ offset ∈ p.targets) : ∃ place, (offset, place) ∈ p.entries.toList := by
  rcases hoffset with rfl | hmem
  · exact h.entry
  · obtain ⟨⟨k, place⟩, hentry, hk⟩ := List.mem_filterMap.mp hmem
    dsimp only at hk
    split at hk
    · cases hk
    · cases hk
      exact ⟨place, hentry⟩

theorem InOrder.entryPoint? (h : p.InOrder n) {offset : Nat}
    (hoffset : offset = 0 ∨ offset ∈ p.targets) :
    ∃ place, p.entryPoint? offset = some place ∧ (offset, place) ∈ p.entries.toList := by
  obtain ⟨place, hmem⟩ := h.mem_entries hoffset
  exact ⟨place, entryPoint?_of_mem h.sorted hmem, hmem⟩

theorem mem_entries_of_entryPoint? {offset place : Nat} (h : p.entryPoint? offset = some place) :
    (offset, place) ∈ p.entries.toList := by
  unfold entryPoint? at h
  split at h
  · rename_i found place' hfound
    split at h
    · rename_i heq
      cases h
      rw [← heq]
      exact Array.mem_toList_iff.mpr (Array.mem_of_getElem? hfound)
    · cases h
  · cases h

variable {δ κ : Type} [Device δ] [Coprocessor κ]

/-- Code goes on behind an operation, or where the operation leads. -/
theorem place_of_perform {pc : UInt32} {op : HostOp} {f f' : Frame δ κ}
    (h : perform pc f op = .running f') :
    f'.place = f.place + 1 ∨ ∃ label, op.label? = some label ∧ f'.place = label ∧
      f'.machine = f.machine ∧ f.machine.clock.shouldStop = false := by
  by_cases hs : op.IsStraight
  · exact .inl (place_perform hs h)
  · have hjump {label : Nat} {next : UInt32} (hj : f.jump label next = .running f') :
        f'.place = label ∧ f'.machine = f.machine ∧ f.machine.clock.shouldStop = false := by
      unfold Frame.jump at hj
      split at hj
      · cases hj
      · rename_i hgo
        cases hj
        exact ⟨rfl, rfl, by simpa using hgo⟩
    cases op with
    | jump label next => exact .inr ⟨label, rfl, hjump h⟩
    | jumpIf label next =>
      simp only [perform] at h
      split at h
      · exact .inr ⟨label, rfl, hjump h⟩
      · cases h
        exact .inl rfl
    | _ =>
      exact absurd trivial hs

/-- Behind an operation that does not leave the code there is another one. -/
theorem InOrder.place_step (h : p.InOrder n) {f f' : Frame δ κ} (hf : f.place < p.ops.size)
    (hstep : p.step f = .running f') : f'.place < p.ops.size := by
  have hop := Array.getElem?_eq_getElem hf
  unfold step at hstep
  rw [hop] at hstep
  rcases place_of_perform hstep with hnext | ⟨label, hlabel, hplace, -⟩
  · rw [hnext]
    obtain ⟨next, hlast⟩ := h.last
    rcases Nat.lt_or_eq_of_le (Nat.le_sub_one_of_lt hf) with hlt | heq
    · omega
    · -- the last operation leaves
      rw [← heq, hop] at hlast
      rw [Option.some.inj hlast] at hstep
      cases hstep
  · rw [hplace]
    obtain ⟨offset, hmem⟩ := h.jumps hop hlabel
    exact h.placed hmem

/-- However long the code runs, it stays in the program. -/
theorem InOrder.place_call (h : p.InOrder n) {fuel offset : Nat} {m : Machine δ κ} {b : Block}
    {f : Frame δ κ} (hcall : p.call fuel offset m b = .running f) : f.place < p.ops.size := by
  unfold call at hcall
  split at hcall
  · cases hcall
  · rename_i place hplace
    have hstart := h.placed (mem_entries_of_entryPoint? hplace)
    exact iterate_keeps (fun hf hstep => h.place_step hf hstep) hstart hcall

end HostProgram

namespace HostGenerator

open Lowering

theorem inOrder_of_compile (g : HostGenerator) {source : BlockSource} (cache : RegisterCache)
    (hpos : 0 < source.ops.size) (hsize : source.ops.size ≤ 65535) :
    ∃ e, (g.compile source cache.reset).result = .ok e ∧ e.targets = e.program.targets ∧
      e.program.InOrder source.ops.size := by
  obtain ⟨p, hresult, hp⟩ := HostProgram.inOrder_of_generate cache hpos hsize
  refine ⟨{ program := p, targets := p.targets, codeSize := p.codeSize }, ?_, rfl, hp⟩
  unfold compile
  dsimp only
  rw [hresult]

/-- Code can be generated for every block that is not empty and has at most 65535 instructions,
whatever its words and flags. No more cycles are taken back than were charged; the entries are in
order and the first instruction is one of them; jumps inside the block lead to entries; the code can
be entered at the first instruction and at every target, and it is left before it ends. -/
theorem compile_total (g : HostGenerator) (source : BlockSource) (cache : RegisterCache)
    (hpos : 0 < source.ops.size) (hsize : source.ops.size ≤ 65535) :
    (∀ {index : Nat} {o : Op} {s s₁ s₂ : Lowering}, ArrivesAt source cache.reset index s →
      source.ops[index]? = some o → openAt index o s = .ok () s₁ →
        charge cyclesPerOp s₁ = .ok () s₂ → cyclesPerOp ≤ s₂.cycles) ∧
    ∃ e, (g.compile source cache.reset).result = .ok e ∧
      (e.program.entries.toList.Pairwise fun x y => x.1 < y.1) ∧
      (∃ place, (0, place) ∈ e.program.entries.toList) ∧
      (∀ op ∈ e.program.ops.toList, ∀ place, op.label? = some place →
        ∃ offset, (offset, place) ∈ e.program.entries.toList) ∧
      (∀ offset, offset = 0 ∨ offset ∈ e.targets → (e.program.entryPoint? offset).isSome) ∧
      ∀ {δ κ : Type} [Device δ] [Coprocessor κ] (fuel offset : Nat) (m : Machine δ κ) (b : Block)
        (f : HostProgram.Frame δ κ),
        e.program.call fuel offset m b = .running f → f.place < e.program.ops.size := by
  refine ⟨fun hs ho hopen hcharge => hs.cyclesPerOp_le hsize ho hopen hcharge, ?_⟩
  obtain ⟨e, hcompile, htargets, hp⟩ := g.inOrder_of_compile cache hpos hsize
  refine ⟨e, hcompile, hp.sorted, hp.entry, ?_, ?_, ?_⟩
  · intro op hop place hlabel
    obtain ⟨j, hj⟩ := List.mem_iff_getElem?.mp hop
    exact hp.jumps (Array.getElem?_toList.symm.trans hj) hlabel
  · intro offset hoffset
    rw [htargets] at hoffset
    obtain ⟨place, hplace, -⟩ := hp.entryPoint? hoffset
    exact Option.isSome_iff_exists.mpr ⟨place, hplace⟩
  · intro δ κ _ _ fuel offset m b f hcall
    exact hp.place_call hcall

/-- A block with flags that do not fit: one jump inside the block leads to a delay slot, which is
marked as an entry, and one stands in front of another branch. -/
def tangle : BlockSource where
  pc := 0x1000
  ops := #[.ofWord 0x24a5ffff,
    { instr := { word := 0x14a0fffe }, flags := { localBranch := true } },
    { instr := { word := 0x00a03021 }, flags := { sync := true } },
    { instr := { word := 0x14a0fffe }, flags := { localBranch := true } },
    { instr := { word := 0 }, flags := { sync := true } },
    { instr := { word := 0x1000fffe }, flags := { localBranch := true } },
    { instr := { word := 0x1000fffe }, flags := { noDelaySlot := true } }]

theorem compile_total_tangle : tangle.ops.size = 7 ∧
    ∃ e, (({} : HostGenerator).compile tangle ({} : RegisterCache).reset).result = .ok e ∧
      e.program.ops.toList.filterMap HostOp.label? = [0] ∧
      (∃ place, (0, place) ∈ e.program.entries.toList) ∧ (e.program.entryPoint? 0).isSome := by
  refine ⟨rfl, ?_⟩
  obtain ⟨-, e, hcompile, -, hentry, -, hpoint, -⟩ :=
    compile_total {} tangle {} (by decide) (by decide)
  have hjumps : (({} : HostGenerator).compile tangle ({} : RegisterCache).reset).result.toOption.map
      (fun e => e.program.ops.toList.filterMap HostOp.label?) = some [0] := by decide +kernel
  rw [hcompile] at hjumps
  exact ⟨e, hcompile, Option.some.inj hjumps, hentry, hpoint 0 (.inl rfl)⟩

end HostGenerator

end Dynarec
