/-
  Dynarec.Proofs.Host.Budget

  Generated code comes back in time.

  Operations pay for themselves: what passes on the clock while code goes from
  one place to another is what the operations in between charge. From an entry
  the code is left, or it gets to a jump inside the block; there something was
  paid, and the jump is made only while the budget lasts. So the cycles left
  get fewer from jump to jump, and when they are gone the code is left at the
  next jump at the latest.
-/
import Dynarec.Proofs.Host.Totality
import Dynarec.Proofs.Machine.Time

namespace Dynarec

variable {δ κ : Type} [Device δ] [Coprocessor κ]

theorem Machine.current_transfer (ht : KeepsTime δ κ) (m : Machine δ κ) (i : Instruction)
    (base data : UInt32) : (m.transfer i base data).machine.clock.current = m.clock.current := by
  cases hk : i.memoryAccess? with
  | none =>
    unfold transfer
    rw [hk]
    exact Clock.current_setExit _ _
  | some kind =>
    rcases clock_transfer ht hk m base data with h | h
    · rw [h]
    · rw [h]
      exact Clock.current_setExit _ _

namespace HostProgram

open Lowering (before ticks)

/-! ## What operations pay -/

omit [Device δ] [Coprocessor κ] in
theorem clock_tag (f : Frame δ κ) (index : Nat) (o : Op) (kind : Option RegionKind) :
    (f.tag index o kind).machine.clock = f.machine.clock := by
  unfold Frame.tag
  cases kind with
  | none => rfl
  | some kind =>
    dsimp only
    split
    · rfl
    · split
      · rfl
      · rfl

theorem current_memory (ht : KeepsTime δ κ) (f : Frame δ κ) (pc : UInt32) (index : Nat) (o : Op)
    (base : HostReg) (data dst : Option HostReg) :
    (machineOf (f.memory pc index o base data dst)).clock.current = f.machine.clock.current := by
  rw [Frame.memory_eq]
  have haccessed : (f.accessed index o (f.machine.transfer o.instr f.host[base]
      (f.dataOf data))).machine.clock.current = f.machine.clock.current := by
    unfold Frame.accessed
    rw [clock_tag]
    exact Machine.current_transfer ht f.machine o.instr _ _
  dsimp only
  split
  · exact haccessed
  · cases dst with
    | none => exact haccessed
    | some h => exact haccessed

/-- An operation passes the cycles that it charges. -/
theorem current_perform (ht : KeepsTime δ κ) (pc : UInt32) (f : Frame δ κ) (op : HostOp)
    (hfits : f.machine.clock.current.toNat + op.cycles < 4294967296) :
    (machineOf (perform pc f op)).clock.current.toNat =
      f.machine.clock.current.toNat + op.cycles := by
  have hjump (label : Nat) (next : UInt32) :
      (machineOf (f.jump label next)).clock.current = f.machine.clock.current := by
    unfold Frame.jump
    split <;> rfl
  cases op with
  | tick cycles =>
    show (f.machine.clock.current + cycles).toNat = _
    rw [UInt32.toNat_add]
    exact Nat.mod_eq_of_lt hfits
  | load | store | const | move | alu | aluImmediate | mulDiv | setCondition | setTarget | exit
  | exitToTarget => rfl
  | raise flags => exact congrArg UInt32.toNat (Clock.current_setExit _ _)
  | copRead instr reg control dst =>
    exact congrArg (fun c : Clock => c.current.toNat)
      (Machine.clock_copRead ht f.machine instr reg control)
  | copWrite instr reg control src =>
    exact congrArg (fun c : Clock => c.current.toNat)
      (Machine.clock_copWrite ht f.machine instr reg f.host[src] control)
  | copExecute instr =>
    exact congrArg (fun c : Clock => c.current.toNat) (Machine.clock_copExecute ht f.machine instr)
  | memory index o base data dst =>
    exact congrArg UInt32.toNat (current_memory ht f pc index o base data dst)
  | exitIf next =>
    simp only [perform]
    split <;> rfl
  | jump label next => exact congrArg UInt32.toNat (hjump label next)
  | jumpIf label next =>
    simp only [perform]
    split
    · exact congrArg UInt32.toNat (hjump label next)
    · rfl

theorem before_succ {ops : List HostOp} {place : Nat} {op : HostOp} (h : ops[place]? = some op) :
    before ops (place + 1) = before ops place + op.cycles := by
  unfold before
  rw [List.take_add_one, h, Lowering.ticks_append]
  rfl

/-! ## From jump to jump -/

variable {p : HostProgram} {n : Nat}

/-- From `f` the code gets to `f'` by a jump inside the block, the budget not being used up, and the
operations up to the jump are paid for. -/
structure JumpsOn (p : HostProgram) (f f' : Frame δ κ) : Prop where
  entry : ∃ offset, (offset, f'.place) ∈ p.entries.toList
  paid : ∃ place op label, f.place ≤ place ∧ p.ops[place]? = some op ∧ op.label? = some label ∧
    f'.machine.clock.current.toNat + before p.ops.toList f.place =
      f.machine.clock.current.toNat + before p.ops.toList place
  inTime : f'.machine.clock.shouldStop = false

/-- What code can do from a place on: it is left, or it jumps on. -/
inductive Proceeds (p : HostProgram) (f : Frame δ κ) : Prop
  | leaves {fuel : Nat} {r : Returned δ κ} (hrun : iterate p.step fuel f = .finished r)
      (hpaid : r.machine.clock.current.toNat + before p.ops.toList f.place ≤
        f.machine.clock.current.toNat + ticks p.ops.toList) : Proceeds p f
  | jumps {fuel : Nat} {f' : Frame δ κ} (hrun : iterate p.step fuel f = .running f')
      (hjump : JumpsOn p f f') : Proceeds p f

/-- One operation more in front. -/
theorem Proceeds.of_step {f g : Frame δ κ} {op : HostOp} (hop : p.ops[f.place]? = some op)
    (hstep : p.step f = .running g) (hplace : g.place = f.place + 1)
    (hpaid : g.machine.clock.current.toNat = f.machine.clock.current.toNat + op.cycles)
    (h : Proceeds p g) : Proceeds p f := by
  have hbefore := before_succ (Array.getElem?_toList.trans hop)
  rw [← hplace] at hbefore
  cases h with
  | leaves hrun hle =>
    rename_i fuel r
    have hmore : iterate p.step (fuel + 1) f = .finished r := by
      rw [iterate_succ, hstep]
      exact hrun
    exact .leaves hmore (by omega)
  | jumps hrun hjump =>
    rename_i fuel f'
    obtain ⟨place, op', label, hle, hop', hlabel, hsum⟩ := hjump.paid
    have hmore : iterate p.step (fuel + 1) f = .running f' := by
      rw [iterate_succ, hstep]
      exact hrun
    exact .jumps hmore ⟨hjump.entry, ⟨place, op', label, by omega, hop', hlabel, by omega⟩,
      hjump.inTime⟩

/-- The induction is on the operations from here to the end: a jump ends the way, and whatever else
goes on stands in front of fewer of them. -/
theorem InOrder.proceeds (h : p.InOrder n) (ht : KeepsTime δ κ) {left : Nat} {f : Frame δ κ}
    (hleft : f.place + left = p.ops.size) (hpos : 0 < left)
    (hfits : f.machine.clock.current.toNat + ticks p.ops.toList <
      4294967296 + before p.ops.toList f.place) : Proceeds p f := by
  induction left generalizing f with
  | zero => exact absurd hpos (Nat.lt_irrefl 0)
  | succ left ih =>
    have hplace : f.place < p.ops.size := by omega
    have hop := Array.getElem?_eq_getElem hplace
    generalize p.ops[f.place] = op at hop
    have hbefore := before_succ (Array.getElem?_toList.trans hop)
    have hle := Lowering.before_le_ticks p.ops.toList (f.place + 1)
    have hstep : p.step f = perform p.pc f op := by
      unfold step
      rw [hop]
    have hpaid := current_perform ht p.pc f op (by omega)
    cases hnext : perform p.pc f op with
    | finished r =>
      rw [hnext] at hpaid hstep
      change r.machine.clock.current.toNat = _ at hpaid
      have hone : iterate p.step 1 f = .finished r := by rw [iterate_succ, hstep]
      exact .leaves hone (by omega)
    | running g =>
      rw [hnext] at hpaid hstep
      change g.machine.clock.current.toNat = _ at hpaid
      rcases place_of_perform hnext with hgo | ⟨label, hlabel, hgo, hmachine, hrun⟩
      · -- never past the end, for the last operation leaves
        have hin := h.place_step hplace hstep
        exact .of_step hop hstep hgo hpaid (ih (by omega) (by omega) (by rw [hgo]; omega))
      · obtain ⟨offset, hmem⟩ := h.jumps hop hlabel
        have hone : iterate p.step 1 f = .running g := by
          rw [iterate_succ, hstep]
          rfl
        refine .jumps hone ⟨⟨offset, hgo ▸ hmem⟩,
          ⟨f.place, op, label, Nat.le_refl _, hop, hlabel, ?_⟩, ?_⟩
        · rw [hmachine]
        · rw [hmachine]
          exact hrun

/-! ## The budget -/

theorem follows_step (ht : KeepsTime δ κ) (p : HostProgram) (f : Frame δ κ) :
    f.machine.clock.Follows (machineOf (p.step f)).clock := by
  have hguest := Machine.guestRelation_follows ht
  unfold step
  split
  · exact hguest.setExit f.machine _
  · exact hguest.perform p.pc f _

/-- At a jump there are cycles left, up to the target that the code started with. -/
theorem JumpsOn.lt_target (ht : KeepsTime δ κ) {fuel : Nat} {f f' : Frame δ κ} (h : JumpsOn p f f')
    (hrun : iterate p.step fuel f = .running f') :
    f'.machine.clock.target = f.machine.clock.target ∧
      f'.machine.clock.current.toNat < f.machine.clock.target.toNat := by
  have hfollows : f.machine.clock.Follows f'.machine.clock := by
    have hall := (Machine.guestRelation_follows ht).iterate machineOf (follows_step ht p) fuel f
    rwa [hrun] at hall
  obtain ⟨hnormal, hlt⟩ := Clock.lt_target_of_shouldStop h.inTime
  have htarget := (hfollows hnormal).2
  exact ⟨htarget, htarget ▸ hlt⟩

/-- Code entered at an entry is left, with no more on the clock than a run from there to the end can
add to the last cycle of the budget. -/
theorem InOrder.returns (h : p.InOrder n) (ht : KeepsTime δ κ) {f : Frame δ κ} {offset : Nat}
    (hentry : (offset, f.place) ∈ p.entries.toList)
    (hcurrent : f.machine.clock.current.toNat + 2 * n < 4294967296)
    (htarget : f.machine.clock.target.toNat + 2 * n < 4294967296) :
    ∃ fuel r, iterate p.step fuel f = .finished r ∧
      (f.machine.clock.current < f.machine.clock.target →
        r.machine.clock.current.toNat < f.machine.clock.target.toNat + 2 * n) := by
  -- the cycles left get fewer from jump to jump
  induction hleft : f.machine.clock.target.toNat - f.machine.clock.current.toNat
    using Nat.strongRecOn generalizing f offset with
  | ind left ih =>
    have htotal := h.total
    have hplace := h.placed hentry
    rcases h.proceeds ht (Nat.add_sub_cancel' (Nat.le_of_lt hplace)) (by omega) (by omega) with
      ⟨hrun, hpaid⟩ | ⟨hrun, hjump⟩
    · -- all operations together charge no more than two cycles for each instruction
      rename_i fuel r
      refine ⟨fuel, r, hrun, fun hlt => ?_⟩
      have hlt' := UInt32.lt_iff_toNat_lt.mp hlt
      omega
    · -- something was paid between the entry and the jump, and the budget was not used up there
      rename_i fuel f'
      obtain ⟨place, op, label, hle, hop, hlabel, hpaid⟩ := hjump.paid
      have hpaced := h.paced hentry hop hlabel hle
      obtain ⟨hsame, hlt⟩ := hjump.lt_target ht hrun
      obtain ⟨offset', hentry'⟩ := hjump.entry
      obtain ⟨fuel', r, hrun', hbound⟩ := ih _ (by rw [hsame]; omega) hentry' (by omega)
        (by rw [hsame]; omega) rfl
      refine ⟨fuel + fuel', r, ?_, fun _ => ?_⟩
      · rw [iterate_add, hrun]
        exact hrun'
      · rw [hsame] at hbound
        exact hbound (UInt32.lt_iff_toNat_lt.mpr hlt)

end HostProgram

namespace HostGenerator

/-- Generated code comes back. With `n` instructions in the block and a budget that is not used up
at the start, fewer than `2 * n` cycles are spent beyond it. -/
theorem call_within_budget (ht : KeepsTime δ κ) (g : HostGenerator) (source : BlockSource)
    (cache : RegisterCache) (hpos : 0 < source.ops.size) (hsize : source.ops.size ≤ 65535) :
    ∃ e, (g.compile source cache.reset).result = .ok e ∧
      ∀ (offset : Nat) (m : Machine δ κ) (b : Block), offset = 0 ∨ offset ∈ e.targets →
        m.clock.current.toNat + 2 * source.ops.size < 4294967296 →
        m.clock.target.toNat + 2 * source.ops.size < 4294967296 →
        ∃ fuel r, e.program.call fuel offset m b = .finished r ∧
          (m.clock.current < m.clock.target →
            r.machine.clock.current.toNat < m.clock.target.toNat + 2 * source.ops.size) := by
  obtain ⟨e, hcompile, htargets, hp⟩ := g.inOrder_of_compile cache hpos hsize
  refine ⟨e, hcompile, fun offset m b hoffset hcurrent htarget => ?_⟩
  rw [htargets] at hoffset
  obtain ⟨place, hplace, hmem⟩ := hp.entryPoint? hoffset
  unfold HostProgram.call
  rw [hplace]
  exact hp.returns ht hmem hcurrent htarget

/-- A branch to itself. -/
def spin : BlockSource where
  pc := 0x1000
  ops := #[{ instr := { word := 0x1000ffff }, flags := { localBranch := true } }, .ofWord 0]

/-- What never ends by itself is left once the budget is used up. -/
theorem call_within_budget_spin :
    ∃ e, (({} : HostGenerator).compile spin ({} : RegisterCache).reset).result = .ok e ∧
      ∃ fuel r, e.program.call fuel 0 (.withBudget 100) (.ofOps 0x1000 spin.ops {}) = .finished r ∧
        r.machine.clock.current.toNat < 104 := by
  obtain ⟨e, hcompile, hcall⟩ :=
    call_within_budget keepsTime_standard {} spin {} (by decide) (by decide)
  obtain ⟨fuel, r, hr, hbound⟩ :=
    hcall 0 (.withBudget 100) (.ofOps 0x1000 spin.ops {}) (.inl rfl) (by decide) (by decide)
  exact ⟨e, hcompile, fuel, r, hr, hbound (by decide)⟩

end HostGenerator

end Dynarec
