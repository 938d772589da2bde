/-
  Dynarec.Proofs.Stopping

  When the interpreter gives control back.

  The interpreter looks at the budget where a jump goes back inside the block,
  and only there. Between two such looks it goes from instruction to
  instruction, each behind the one before, so it looks again after a round
  through the block at the latest, or leaves the block.

  There is one way around. A branch that is taken in the delay slot of another
  one piles up: control goes where the first one leads, and the second one is
  still pending. That jump may go back without a look at the budget. Where
  branches pile up again and again the interpreter need not come back at all;
  otherwise it does, and where they do not pile up it comes back in time.
-/
import Dynarec.Proofs.Engine.Progress

namespace Dynarec

variable {δ κ : Type}

/-- Cycles that fit are counted exactly. -/
theorem Machine.Charges.toNat_eq {m m' : Machine δ κ} {n : Nat} (h : m.Charges n m')
    (hfits : m.clock.current.toNat + 2 * n < 4294967296) :
    m'.clock.current.toNat = m.clock.current.toNat + 2 * n := by
  have hn : n.toUInt32.toNat = n := UInt32.toNat_ofNat_of_lt' (by
    rw [UInt32.size]
    omega)
  rw [h, UInt32.toNat_add, UInt32.toNat_mul, hn]
  show (m.clock.current.toNat + n * 2 % 4294967296) % 4294967296 = _
  omega

namespace Interpreter

/-! ## Positions -/

/-- Behind an instruction of the block there is another one or the end. -/
theorem indexIn?_add_four {base pc : UInt32} {count index : Nat} (hcount : count < 1073741824)
    (h : indexIn? base count pc = some index) :
    indexIn? base count (pc + 4) = if index + 1 < count then some (index + 1) else none := by
  obtain ⟨hlt, hpc, -⟩ := address_of_indexIn? h
  have hword : index.toUInt32.toNat = index := UInt32.toNat_ofNat_of_lt' (by
    rw [UInt32.size]
    omega)
  have hdistance : (pc + 4 - base).toNat = (index + 1) * 4 := by
    have hsub : pc + 4 - base = index.toUInt32 * 4 + 4 := by
      rw [hpc, UInt32.add_assoc, UInt32.add_comm, UInt32.add_sub_cancel]
    rw [hsub, UInt32.toNat_add, UInt32.toNat_mul, hword]
    show (index * 4 % 4294967296 + 4) % 4294967296 = (index + 1) * 4
    omega
  unfold indexIn?
  dsimp only
  rw [hdistance, Nat.mul_mod_left, Nat.mul_div_cancel _ (by decide)]
  simp

/-- Position of the next instruction; behind all of them when it is not in the block. -/
def Cursor.position (base : UInt32) (c : Cursor δ κ) : Nat :=
  (indexIn? base c.ops.size c.pc).getD c.ops.size

theorem Cursor.position_of_indexIn? {base : UInt32} {c : Cursor δ κ} {index : Nat}
    (h : indexIn? base c.ops.size c.pc = some index) : c.position base = index := by
  unfold position
  rw [h]
  rfl

variable {base : UInt32} {c c' : Cursor δ κ}

theorem position_le_size (base : UInt32) (c : Cursor δ κ) : c.position base ≤ c.ops.size := by
  unfold Cursor.position
  cases h : indexIn? base c.ops.size c.pc with
  | none => exact Nat.le_refl _
  | some index => exact Nat.le_of_lt (address_of_indexIn? h).1

/-- Without a branch that is pending the next instruction stands behind this one. -/
theorem position_of_pc_add_four (hsize : c.ops.size < 1073741824) {index : Nat}
    (hindex : indexIn? base c.ops.size c.pc = some index) (hops : c'.ops.size = c.ops.size)
    (hpc : c'.pc = c.pc + 4) : c.position base < c'.position base := by
  rw [Cursor.position_of_indexIn? hindex, Cursor.position, hops, hpc,
    indexIn?_add_four hsize hindex]
  have hlt := (address_of_indexIn? hindex).1
  split
  · exact Nat.lt_succ_self _
  · exact hlt

/-! ## Iterations -/

variable [Device δ] [Coprocessor κ]

/-- An iteration from `c` that goes on: a branch is taken, or control goes where the branch before
this instruction leads. Where that is back, the run does not have to stop. -/
inductive Advances (base : UInt32) (c : Cursor δ κ) : Cursor δ κ → Prop
  | branch {index : Nat} {target : UInt32} (hindex : indexIn? base c.ops.size c.pc = some index)
      (hstep : (c.effect index).step = .branch target) :
      Advances base c { c.ran index (c.effect index) with
        pc := c.pending.getD (c.pc + 4), pending := some target }
  | next {index : Nat} (hindex : indexIn? base c.ops.size c.pc = some index)
      (hlook : ∀ target, c.pending = some target → goesBack base c.ops.size index target = true →
        (c.effect index).machine.clock.shouldStop = false) :
      Advances base c { c.ran index (c.effect index) with
        pc := c.pending.getD (c.pc + 4), pending := none }

theorem advances_of_step (h : step base c = .running c') : Advances base c c' := by
  unfold step at h
  cases hindex : indexIn? base c.ops.size c.pc with
  | none =>
    rw [hindex] at h
    -- outside of the block every step is the last one
    cases hpending : c.pending with
    | none =>
      rw [hpending] at h
      cases h
    | some target =>
      rw [hpending] at h
      cases h
  | some index =>
    rw [hindex] at h
    dsimp only at h
    cases hstep : (c.effect index).step with
    | exit next =>
      unfold Cursor.effect at hstep
      rw [hstep] at h
      cases h
    | branch target =>
      have hadvances := Advances.branch hindex hstep
      unfold Cursor.effect at hstep
      rw [hstep] at h
      cases h
      exact hadvances
    | next =>
      unfold Cursor.effect at hstep
      rw [hstep] at h
      dsimp only at h
      cases hpending : c.pending with
      | none =>
        rw [hpending] at h
        cases h
        have hadvances : Advances base c _ := .next hindex fun target ht => by
          rw [hpending] at ht
          cases ht
        rw [hpending] at hadvances
        exact hadvances
      | some target =>
        rw [hpending] at h
        dsimp only at h
        split at h
        · cases h
        · rename_i hgo
          cases h
          -- a jump back that would stop here is not a step that goes on
          have hadvances : Advances base c _ := .next hindex fun target' ht hback => by
            rw [hpending] at ht
            cases ht
            rw [hback, Bool.true_and] at hgo
            exact Bool.eq_false_iff.mpr hgo
          rw [hpending] at hadvances
          exact hadvances

/-- A branch is taken in the delay slot of one that was taken. -/
def Cursor.PilesUp (base : UInt32) (c : Cursor δ κ) : Prop :=
  c.pending.isSome ∧ ∃ c', step base c = .running c' ∧ c'.pending.isSome

/-- No branches pile up from here on. -/
def Cursor.Steady (base : UInt32) (c : Cursor δ κ) : Prop :=
  ∀ ⦃fuel : Nat⦄ ⦃c' : Cursor δ κ⦄, iterate (step base) fuel c = .running c' → ¬c'.PilesUp base

variable {fuel : Nat}

theorem Cursor.Steady.iterate (h : c.Steady base)
    (hrun : Dynarec.iterate (step base) fuel c = .running c') : c'.Steady base := by
  intro fuel' c'' hrun'
  apply @h (fuel + fuel') c''
  rw [iterate_add, hrun]
  exact hrun'

theorem Advances.size_eq (h : Advances base c c') : c'.ops.size = c.ops.size := by
  cases h with
  | branch | next => exact size_ops_ran c _ _

/-- Where no branches pile up, an iteration gets on in the block or has cycles left. -/
theorem Advances.position_lt (h : Advances base c c') (hstep : step base c = .running c')
    (hsteady : ¬c.PilesUp base) (hsize : c.ops.size < 1073741824) :
    c.position base < c'.position base ∨ c'.machine.clock.shouldStop = false := by
  cases h with
  | branch hindex hbranch =>
    left
    refine position_of_pc_add_four hsize hindex (size_ops_ran c _ _) ?_
    cases hpending : c.pending with
    | none => rfl
    | some target =>
      -- this branch and the one before it would pile up
      exact absurd ⟨by rw [hpending]; rfl, _, hstep, rfl⟩ hsteady
  | next hindex hlook =>
    rename_i index
    cases hpending : c.pending with
    | none =>
      left
      exact position_of_pc_add_four hsize hindex (size_ops_ran c _ _) rfl
    | some target =>
      cases hback : goesBack base c.ops.size index target with
      | true => exact .inr (hlook target hpending hback)
      | false =>
        left
        rw [Cursor.position_of_indexIn? hindex, Cursor.position, size_ops_ran, Option.getD_some]
        unfold goesBack at hback
        cases htarget : indexIn? base c.ops.size target with
        | none => exact (address_of_indexIn? hindex).1
        | some t =>
          rw [htarget] at hback
          simp only [decide_eq_false_iff_not] at hback
          exact Nat.lt_of_not_le hback

/-! ## From look to look -/

/-- After a round through the block at the latest the block is left, or there are cycles left. -/
theorem Cursor.Steady.getsOn (hsteady : c.Steady base) (hsize : c.ops.size < 1073741824)
    {left : Nat} (hleft : c.ops.size ≤ c.position base + left) :
    ∃ fuel ≤ left + 1, (∃ o, Dynarec.iterate (step base) fuel c = .finished o) ∨
      0 < fuel ∧ ∃ c', Dynarec.iterate (step base) fuel c = .running c' ∧
        c'.machine.clock.shouldStop = false := by
  -- `left` is how far the end of the block is; at the end nothing is behind, so control goes back
  induction left generalizing c with
  | zero =>
    refine ⟨1, Nat.le_refl 1, ?_⟩
    rw [iterate_succ]
    cases hstep : step base c with
    | finished o => exact .inl ⟨o, rfl⟩
    | running c' =>
      have hadvances := advances_of_step hstep
      refine .inr ⟨Nat.one_pos, c', rfl, ?_⟩
      have hend := position_le_size base c'
      rw [hadvances.size_eq] at hend
      rcases hadvances.position_lt hstep (hsteady (iterate_zero _ _)) hsize with hlt | hrun
      · omega
      · exact hrun
  | succ left ih =>
    cases hstep : step base c with
    | finished o =>
      refine ⟨1, by omega, .inl ⟨o, ?_⟩⟩
      rw [iterate_succ, hstep]
    | running c' =>
      have hadvances := advances_of_step hstep
      have hone : Dynarec.iterate (step base) 1 c = .running c' := by
        rw [iterate_succ, hstep]
        rfl
      rcases hadvances.position_lt hstep (hsteady (iterate_zero _ _)) hsize with hlt | hrun
      · -- one instruction further, with one less in front
        have hsize' := hadvances.size_eq
        obtain ⟨fuel, hfuel, hends⟩ := ih (hsteady.iterate hone) (by omega) (by omega)
        have hmore : Dynarec.iterate (step base) (fuel + 1) c =
            Dynarec.iterate (step base) fuel c' := by
          rw [iterate_succ, hstep]
        refine ⟨fuel + 1, by omega, ?_⟩
        rw [hmore]
        rcases hends with ⟨o, ho⟩ | ⟨-, c'', hrun, hgo⟩
        · exact .inl ⟨o, ho⟩
        · exact .inr ⟨Nat.succ_pos fuel, c'', hrun, hgo⟩
      · exact ⟨1, by omega, .inr ⟨Nat.one_pos, c', hone, hrun⟩⟩

/-! ## Cycles -/

theorem charges_running (ht : KeepsTime δ κ)
    (h : iterate (step base) fuel c = .running c') : c.machine.Charges fuel c'.machine := by
  induction fuel generalizing c with
  | zero =>
    cases h
    exact .zero rfl
  | succ fuel ih =>
    have hone := charges_step ht base c
    rw [iterate_succ] at h
    cases hstep : step base c with
    | finished o =>
      rw [hstep] at h
      cases h
    | running d =>
      rw [hstep] at h hone
      rw [Nat.add_comm fuel 1]
      exact hone.trans (ih h)

/-- Without a reason to leave the target is where it was. -/
theorem follows_iterate (ht : KeepsTime δ κ) (h : iterate (step base) fuel c = .running c') :
    c.machine.clock.Follows c'.machine.clock := by
  have hguest := Machine.guestRelation_follows ht
  have hall := hguest.iterate machineOf (hguest.step base) fuel c
  rwa [h] at hall

theorem size_iterate (h : iterate (step base) fuel c = .running c') : c'.ops.size = c.ops.size := by
  refine iterate_keeps (P := fun d => d.ops.size = c.ops.size) (fun hd hstep => ?_) rfl h
  exact (advances_of_step hstep).size_eq.trans hd

/-! ## The budget -/

/-- A run that has cycles left comes back, after another round through the block at the latest once
they are gone. -/
theorem Cursor.Steady.returns_inTime (ht : KeepsTime δ κ) (hsteady : c.Steady base)
    (hsize : c.ops.size < 1073741824) (hrun : c.machine.clock.shouldStop = false)
    (htarget : c.machine.clock.target.toNat + 2 * (c.ops.size + 1) < 4294967296) :
    ∃ fuel o, Dynarec.iterate (step base) fuel c = .finished o ∧
      o.machine.clock.current.toNat < c.machine.clock.target.toNat + 2 * (c.ops.size + 1) := by
  -- the cycles left get fewer from look to look
  induction hleft : c.machine.clock.target.toNat - c.machine.clock.current.toNat
    using Nat.strongRecOn generalizing c with
  | ind left ih =>
    obtain ⟨-, hlt⟩ := Clock.lt_target_of_shouldStop hrun
    obtain ⟨fuel, hfuel, ⟨o, ho⟩ | ⟨hpos, c', hc', hrun'⟩⟩ :=
      hsteady.getsOn hsize (Nat.le_add_left c.ops.size (c.position base))
    · obtain ⟨n, hn, hcharges, -⟩ := charges_iterate ht ho
      have hnow := hcharges.toNat_eq (by omega)
      exact ⟨fuel, o, ho, by omega⟩
    · -- a look at the clock at which the run goes on, so the target is the one from before
      obtain ⟨hnormal, hlt'⟩ := Clock.lt_target_of_shouldStop hrun'
      have hsame := (follows_iterate ht hc' hnormal).2
      have hnow := (charges_running ht hc').toNat_eq (by omega)
      have hops := size_iterate hc'
      obtain ⟨fuel', o, ho, hbound⟩ := ih _ (by rw [hsame] at hlt' ⊢; omega) (hsteady.iterate hc')
        (by omega) hrun' (by rw [hsame, hops]; exact htarget) rfl
      refine ⟨fuel + fuel', o, ?_, ?_⟩
      · rw [iterate_add, hc']
        exact ho
      · rw [hsame, hops] at hbound
        exact hbound

/-- A run in which no branches pile up comes back, and in time. -/
theorem Cursor.Steady.returns (ht : KeepsTime δ κ) (hsteady : c.Steady base)
    (hsize : c.ops.size < 1073741824)
    (htarget : c.machine.clock.exit.isNormal = true →
      c.machine.clock.target.toNat + 2 * (c.ops.size + 1) < 4294967296) :
    ∃ fuel o, Dynarec.iterate (step base) fuel c = .finished o ∧
      (c.machine.clock.current.toNat + 2 * (c.ops.size + 1) < 4294967296 →
        o.machine.clock.current.toNat <
          max (c.machine.clock.current.toNat + 1) c.machine.clock.target.toNat +
            2 * (c.ops.size + 1)) := by
  obtain ⟨fuel, hfuel, ⟨o, ho⟩ | ⟨hpos, c', hc', hrun'⟩⟩ :=
    hsteady.getsOn hsize (Nat.le_add_left c.ops.size (c.position base))
  · obtain ⟨n, hn, hcharges, -⟩ := charges_iterate ht ho
    refine ⟨fuel, o, ho, fun hcurrent => ?_⟩
    have hnow := hcharges.toNat_eq (by omega)
    omega
  · obtain ⟨hnormal, -⟩ := Clock.lt_target_of_shouldStop hrun'
    obtain ⟨hnormal0, hsame⟩ := follows_iterate ht hc' hnormal
    have hops := size_iterate hc'
    obtain ⟨fuel', o, ho, hbound⟩ := (hsteady.iterate hc').returns_inTime ht (by omega) hrun'
      (by rw [hsame, hops]; exact htarget hnormal0)
    refine ⟨fuel + fuel', o, ?_, fun _ => ?_⟩
    · rw [iterate_add, hc']
      exact ho
    · rw [hsame, hops] at hbound
      omega

/-- A run comes back, or branches pile up in it again and again. -/
theorem returns_or_piles (ht : KeepsTime δ κ) (base : UInt32) (hsize : c.ops.size < 1073741824)
    (htarget : c.machine.clock.target.toNat + 2 * (c.ops.size + 1) < 4294967296) :
    (∃ fuel o, iterate (step base) fuel c = .finished o) ∨
      ∀ n, ∃ fuel c', n ≤ fuel ∧ iterate (step base) fuel c = .running c' ∧ c'.PilesUp base := by
  by_cases hpiles : ∀ n, ∃ fuel c', n ≤ fuel ∧ iterate (step base) fuel c = .running c' ∧
      c'.PilesUp base
  · exact .inr hpiles
  · left
    -- from some iteration on none pile up any more, and the run from there on comes back
    obtain ⟨n, hn⟩ := Classical.not_forall.mp hpiles
    cases hrun : iterate (step base) n c with
    | finished o => exact ⟨n, o, hrun⟩
    | running d =>
      have hsteady : d.Steady base := by
        intro fuel c' hc' hup
        refine hn ⟨n + fuel, c', Nat.le_add_right n fuel, ?_, hup⟩
        rw [iterate_add, hrun]
        exact hc'
      have hops := size_iterate hrun
      obtain ⟨fuel, o, ho, -⟩ := hsteady.returns ht (by omega) fun hnormal => by
        rw [(follows_iterate ht hrun hnormal).2, hops]
        exact htarget
      refine ⟨n + fuel, o, ?_⟩
      rw [iterate_add, hrun]
      exact ho

/-! ## Blocks without branches in delay slots -/

/-- No branch stands behind a branch. -/
def Parted (ops : Array Op) : Prop :=
  ∀ index, (ops.getD index default).instr.hasDelaySlot = true →
    (ops.getD (index + 1) default).instr.hasDelaySlot = false

/-- A branch that is pending stands in front of the next instruction. -/
structure Cursor.BehindBranch (base : UInt32) (ops : Array Op) (c : Cursor δ κ) : Prop where
  retags : Retags ops c.ops
  branch : c.pending.isSome → ∃ pc index, indexIn? base ops.size pc = some index ∧
    (ops.getD index default).instr.hasDelaySlot = true ∧ c.pc = pc + 4

theorem Cursor.BehindBranch.not_pilesUp {ops : Array Op} (hparted : Parted ops)
    (hsize : ops.size < 1073741824) (h : c.BehindBranch base ops) : ¬c.PilesUp base := by
  rintro ⟨hpending, c', hstep, hpending'⟩
  obtain ⟨pc, index, hindex, hbranch, hpc⟩ := h.branch hpending
  cases advances_of_step hstep with
  | next => cases hpending'
  | branch hnext hslot =>
    rename_i slot target
    rw [hpc, h.retags.size, indexIn?_add_four hsize hindex] at hnext
    split at hnext
    · -- the delay slot would be a branch, too
      cases hnext
      have hagain := hasDelaySlot_of_execute hslot
      rw [h.retags.instr, hparted index hbranch] at hagain
      cases hagain
    · cases hnext

theorem Cursor.BehindBranch.step {ops : Array Op} (hparted : Parted ops)
    (hsize : ops.size < 1073741824) (h : c.BehindBranch base ops)
    (hstep : Interpreter.step base c = .running c') : c'.BehindBranch base ops := by
  have hnot := h.not_pilesUp hparted hsize
  cases advances_of_step hstep with
  | next => exact ⟨retags_tagAccess h.retags _ _ _, fun hnone => by cases hnone⟩
  | branch hindex hbranch =>
    rename_i index target
    have hown := hasDelaySlot_of_execute hbranch
    rw [h.retags.instr] at hown
    rw [h.retags.size] at hindex
    refine ⟨retags_tagAccess h.retags _ _ _, fun _ => ⟨c.pc, index, hindex, hown, ?_⟩⟩
    cases hpending : c.pending with
    | none => rfl
    | some first => exact absurd ⟨by rw [hpending]; rfl, _, hstep, rfl⟩ hnot

theorem steady_of_parted {ops : Array Op} (hparted : Parted ops) (hsize : ops.size < 1073741824)
    (h : c.BehindBranch base ops) : c.Steady base := by
  intro fuel c' hrun
  have hkept := iterate_keeps (P := Cursor.BehindBranch base ops)
    (fun hd hstep => hd.step hparted hsize hstep) h hrun
  exact hkept.not_pilesUp hparted hsize

/-! ## Blocks -/

omit [Device δ] [Coprocessor κ] in
/-- The instructions that are run for a block: its own, or those in memory if they were freed. -/
def instructions (m : Machine δ κ) (b : Block) : Array Op :=
  match b.ops with
  | some ops => ops
  | none =>
    match Block.decode m.memory b.pc b.opCount with
    | .ok ops => ops.extract 0 b.opCount
    | .error _ => #[]

/-- Where a block is entered. -/
def entering (m : Machine δ κ) (b : Block) (pc : UInt32) : Cursor δ κ :=
  { machine := m, ops := instructions m b
    pc := b.pc + ((pc - b.pc) >>> (2 : UInt32)).toNat.toUInt32 * 4 }

/-- Interpreting a block is running its instructions, unless they cannot be decoded again: then
control is given back at once. -/
theorem emulate_cases (m : Machine δ κ) (b : Block) (pc : UInt32) :
    (∃ r, r.machine.clock.current = m.clock.current ∧
      ∀ fuel, emulate fuel m b pc = .finished r) ∨
    ((∀ {fuel c}, iterate (step b.pc) fuel (entering m b pc) = .running c →
        emulate fuel m b pc = .running c) ∧
      ∀ {fuel o}, iterate (step b.pc) fuel (entering m b pc) = .finished o →
        ∃ r, emulate fuel m b pc = .finished r ∧
          r.machine.clock.current = o.machine.clock.current) := by
  cases hops : b.ops with
  | some ops =>
    right
    have hrun (fuel : Nat) : run fuel m b.pc ops ((pc - b.pc) >>> (2 : UInt32)).toNat =
        iterate (step b.pc) fuel (entering m b pc) := by
      simp only [run, entering, instructions, hops]
    refine ⟨fun h => ?_, fun {fuel o} h => ?_⟩
    · simp only [emulate, hops, hrun, h]
    · simp only [emulate, hops, hrun, h]
      cases o.tagged with
      | true => exact ⟨_, rfl, rfl⟩
      | false => exact ⟨_, rfl, rfl⟩
  | none =>
    cases hdecode : Block.decode m.memory b.pc b.opCount with
    | error fault =>
      left
      simp only [emulate, hops, hdecode]
      exact ⟨_, Clock.current_setExit _ _, fun _ => rfl⟩
    | ok ops =>
      right
      have hrun (fuel : Nat) : run fuel m b.pc (ops.extract 0 b.opCount)
          ((pc - b.pc) >>> (2 : UInt32)).toNat = iterate (step b.pc) fuel (entering m b pc) := by
        simp only [run, entering, instructions, hops, hdecode]
      refine ⟨fun h => ?_, fun {fuel o} h => ?_⟩
      · simp only [emulate, hops, hdecode, hrun, h]
      · simp only [emulate, hops, hdecode, hrun, h]
        exact ⟨_, rfl, rfl⟩

/-- The interpreter gives control back, unless branches taken in the delay slots of taken branches
pile up again and again. Where they do not, it is back in time: once the budget is used up, fewer
cycles are spent than a round through the block takes, and one more delay slot. They never pile up
in a block in which no branch stands behind another. -/
theorem emulate_returns_unless_branches_pile_up (ht : KeepsTime δ κ) (m : Machine δ κ) (b : Block)
    (pc : UInt32) (hsize : (instructions m b).size < 1073741824)
    (hcurrent : m.clock.current.toNat + 2 * ((instructions m b).size + 2) ≤ 4294967296)
    (htarget : m.clock.target.toNat + 2 * ((instructions m b).size + 2) ≤ 4294967296) :
    ((∃ fuel r, emulate fuel m b pc = .finished r) ∨
      ∀ n, ∃ fuel c, n ≤ fuel ∧ emulate fuel m b pc = .running c ∧ c.PilesUp b.pc) ∧
    ((∀ fuel c, emulate fuel m b pc = .running c → ¬c.PilesUp b.pc) →
      ∃ fuel r, emulate fuel m b pc = .finished r ∧
        r.machine.clock.current.toNat <
          max (m.clock.current.toNat + 1) m.clock.target.toNat +
            2 * ((instructions m b).size + 1)) ∧
    (Parted (instructions m b) →
      ∀ fuel c, emulate fuel m b pc = .running c → ¬c.PilesUp b.pc) := by
  rcases emulate_cases m b pc with ⟨r, hr, hall⟩ | ⟨hgo, hend⟩
  · refine ⟨.inl ⟨0, r, hall 0⟩, fun _ => ⟨0, r, hall 0, ?_⟩, fun _ fuel c hrun => ?_⟩
    · rw [hr]
      omega
    · rw [hall] at hrun
      cases hrun
  · have hroom : (entering m b pc).machine.clock.target.toNat +
        2 * ((entering m b pc).ops.size + 1) < 4294967296 :=
      show m.clock.target.toNat + 2 * ((instructions m b).size + 1) < 4294967296 by omega
    refine ⟨?_, fun hnever => ?_, fun hparted fuel c hrun => ?_⟩
    · rcases returns_or_piles ht b.pc hsize hroom with ⟨fuel, o, ho⟩ | hpiles
      · obtain ⟨r, hr, -⟩ := hend ho
        exact .inl ⟨fuel, r, hr⟩
      · right
        intro n
        obtain ⟨fuel, c, hn, hc, hup⟩ := hpiles n
        exact ⟨fuel, c, hn, hgo hc, hup⟩
    · have hsteady : (entering m b pc).Steady b.pc := fun fuel c hc => hnever fuel c (hgo hc)
      obtain ⟨fuel, o, ho, hbound⟩ := hsteady.returns ht hsize fun _ => hroom
      obtain ⟨r, hr, hnow⟩ := hend ho
      refine ⟨fuel, r, hr, ?_⟩
      rw [hnow]
      apply hbound
      show m.clock.current.toNat + 2 * ((instructions m b).size + 1) < 4294967296
      omega
    · have hstart : (entering m b pc).BehindBranch b.pc (instructions m b) :=
        ⟨Retags.refl _, fun hnone => by cases hnone⟩
      have hsteady := steady_of_parted hparted hsize hstart
      cases hc : iterate (step b.pc) fuel (entering m b pc) with
      | running d =>
        rw [hgo hc] at hrun
        cases hrun
        exact hsteady hc
      | finished o =>
        obtain ⟨r, hr, -⟩ := hend hc
        rw [hr] at hrun
        cases hrun

/-! Two branches, each to itself, the second in the delay slot of the first. -/

/-- The block of the two branches. -/
def twins : Block := .ofOps 0x1000 #[.ofWord 0x1000ffff, .ofWord 0x1000ffff] {}

/-- Control alternates between the branches, and the target of one of them is pending. -/
structure Cursor.Alternates (c : Cursor δ κ) : Prop where
  ops : c.ops = #[.ofWord 0x1000ffff, .ofWord 0x1000ffff]
  place : c.pc = 0x1000 ∧ (c.pending = none ∨ c.pending = some 0x1004) ∨
    c.pc = 0x1004 ∧ c.pending = some 0x1000

/-- A register equals itself, so the branch to itself is taken. -/
theorem execute_branchToSelf (m : Machine δ κ) (pc : UInt32) :
    execute m (Op.ofWord 0x1000ffff).instr pc = { machine := m, step := .branch pc } := by
  have hself : (Op.ofWord 0x1000ffff).instr.branchTarget? pc = some pc := by
    show some (pc + 4 + 0xfffffffc) = some pc
    rw [UInt32.add_assoc]
    show some (pc + 0) = some pc
    rw [UInt32.add_zero]
  have hop : (Op.ofWord 0x1000ffff).instr.operation = .branch .eq false := by decide
  have hregs : (Op.ofWord 0x1000ffff).instr.rs = (Op.ofWord 0x1000ffff).instr.rt := by decide
  simp [execute_eq, executeOperation, hop, hself, hregs, Condition.holds]

theorem step_branchToSelf {index : Nat} (hindex : indexIn? base c.ops.size c.pc = some index)
    (hop : c.ops.getD index default = .ofWord 0x1000ffff) :
    step base c = .running { c with
      machine := c.machine.tick cyclesPerOp
      pc := c.pending.getD (c.pc + 4)
      pending := some c.pc } := by
  unfold step
  rw [hindex]
  simp only [hop, execute_branchToSelf, tagAccess]

/-- Wherever control is, the branch there is taken, and control goes on at the other one. -/
theorem Cursor.Alternates.step (h : c.Alternates) :
    ∃ c', Interpreter.step 0x1000 c = .running c' ∧ c'.Alternates := by
  obtain ⟨m, ops, tagged, pc, pending⟩ := c
  obtain ⟨hops, hplace⟩ := h
  dsimp only at hops hplace
  subst hops
  have hfirst : indexIn? 0x1000 2 0x1000 = some 0 := by decide
  have hsecond : indexIn? 0x1000 2 0x1004 = some 1 := by decide
  rcases hplace with ⟨rfl, rfl | rfl⟩ | ⟨rfl, rfl⟩
  · exact ⟨_, step_branchToSelf hfirst rfl, rfl, .inr ⟨rfl, rfl⟩⟩
  · exact ⟨_, step_branchToSelf hfirst rfl, rfl, .inr ⟨rfl, rfl⟩⟩
  · exact ⟨_, step_branchToSelf hsecond rfl, rfl, .inl ⟨rfl, .inr rfl⟩⟩

theorem Cursor.Alternates.iterate (h : c.Alternates) (fuel : Nat) :
    ∃ c', Dynarec.iterate (Interpreter.step 0x1000) fuel c = .running c' := by
  induction fuel generalizing c with
  | zero => exact ⟨c, rfl⟩
  | succ fuel ih =>
    obtain ⟨d, hstep, hd⟩ := h.step
    rw [iterate_succ, hstep]
    exact ih hd

/-- However long the two branches are run, the interpreter is not back, and branches pile up again
and again. -/
theorem emulate_returns_unless_branches_pile_up_twins :
    (∀ fuel, ∃ c, emulate fuel (.withBudget 100) twins 0x1000 = .running c) ∧
      ∀ n, ∃ fuel c, n ≤ fuel ∧ emulate fuel (.withBudget 100) twins 0x1000 = .running c ∧
        c.PilesUp twins.pc := by
  have hstart : (entering (.withBudget 100) twins 0x1000).Alternates :=
    ⟨rfl, .inl ⟨by decide, .inl rfl⟩⟩
  have hnever (fuel : Nat) : ∃ c, emulate fuel (.withBudget 100) twins 0x1000 = .running c := by
    obtain ⟨c, hc⟩ := hstart.iterate fuel
    rcases emulate_cases (.withBudget 100) twins 0x1000 with ⟨r, -, hall⟩ | ⟨hgo, -⟩
    · cases hall 0
    · exact ⟨c, hgo hc⟩
  obtain ⟨hends, -⟩ := emulate_returns_unless_branches_pile_up keepsTime_standard (.withBudget 100)
    twins 0x1000 (by decide) (by decide) (by decide)
  refine ⟨hnever, ?_⟩
  rcases hends with ⟨fuel, r, hr⟩ | hpiles
  · obtain ⟨c, hc⟩ := hnever fuel
    rw [hr] at hc
    cases hc
  · exact hpiles

end Interpreter

end Dynarec
