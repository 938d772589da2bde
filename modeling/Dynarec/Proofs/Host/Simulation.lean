/-
  Dynarec.Proofs.Host.Simulation

  Generated code against the interpreter.

  `explains_of_point` is the simulation: from any place in front of an
  instruction, a run of the code that ends is explained by a run of the
  interpreter through the block. It goes by the number of host operations that
  are left, which a jump inside the block makes fewer, and between jumps by
  what is left of the block.
-/
import Dynarec.Proofs.Annotate
import Dynarec.Proofs.Host.Assembly

namespace Dynarec

/-- A loop that ends after it has gone on for `m` steps ends after some more. -/
theorem iterate_rest {σ ρ : Type} {step : σ → Progress σ ρ} {m n : Nat} {s s' : σ} {r : ρ}
    (h1 : iterate step m s = .running s') (h2 : iterate step n s = .finished r) :
    ∃ k, n = m + k ∧ iterate step k s' = .finished r := by
  rcases Nat.le_total n m with hle | hle
  · rw [iterate_finished_mono h2 hle] at h1
    cases h1
  · obtain ⟨k, rfl⟩ := Nat.exists_eq_add_of_le hle
    rw [iterate_add, h1] at h2
    exact ⟨k, rfl, h2⟩

theorem iterate_unique {σ ρ : Type} {step : σ → Progress σ ρ} {m n : Nat} {s : σ} {r r' : ρ}
    (h1 : iterate step m s = .finished r) (h2 : iterate step n s = .finished r') : r = r' := by
  have h := iterate_finished_mono h1 (Nat.le_max_left m n)
  rw [iterate_finished_mono h2 (Nat.le_max_right m n)] at h
  cases h
  rfl

/-- From `first` on, no jump inside the block leads in front of it. -/
def BlockSource.StaysFrom (source : BlockSource) (first : Nat) : Prop :=
  ∀ {index inside : Nat} {target : UInt32}, first ≤ index →
    source.JumpsTo index target inside → first ≤ inside

namespace Lowering

open HostProgram
open Interpreter (Cursor)

variable {δ κ : Type} [Device δ] [Coprocessor κ] {σ : Site δ κ} {sEnd s s' : Lowering}
  {p : HostProgram} {fuel index next N : Nat} {f : Frame δ κ} {c c' : Cursor δ κ}
  {r : Returned δ κ}

omit [Device δ] [Coprocessor κ] in
/-- Most instructions that are run from `index` on by `N` operations of code. Each of them can be a
jump back, and between jumps an instruction is run at most with its delay slot. -/
def range (σ : Site δ κ) (N index : Nat) : Nat :=
  2 * (σ.source.ops.size - index) + 2 * σ.source.ops.size * N

variable {M : Nat}

omit [Device δ] [Coprocessor κ] in
theorem range_mono (h : M ≤ N) (index : Nat) : range σ M index ≤ range σ N index :=
  Nat.add_le_add_left (Nat.mul_le_mul_left _ h) _

omit [Device δ] [Coprocessor κ] in
theorem range_next (h : M ≤ N) (hlt : index < next) (hnext : next ≤ σ.source.ops.size) :
    2 + range σ M next ≤ range σ N index := by
  have hmul := Nat.mul_le_mul_left (2 * σ.source.ops.size) h
  unfold range
  omega

omit [Device δ] [Coprocessor κ] in
theorem range_jump (h : M < N) (hlt : index < σ.source.ops.size) (inside : Nat) :
    2 + range σ M inside ≤ range σ N index := by
  have hmul := Nat.mul_le_mul_left (2 * σ.source.ops.size) (Nat.succ_le_of_lt h)
  rw [Nat.mul_succ] at hmul
  unfold range
  omega

/-- A run of the interpreter from instruction `index` on explains what code came back with after at
most `N` operations. -/
def Follows (σ : Site δ κ) (N index : Nat) (c : Cursor δ κ) (r : Returned δ κ) : Prop :=
  ∃ path, Reaches σ path c r ∧ path.length ≤ range σ N index ∧
    ∀ {first : Nat}, first ≤ index → σ.source.StaysFrom first → ∀ k ∈ path, first ≤ k

/-- Such a run, which runs an instruction exactly if the first one is not left alone. -/
def Explains (σ : Site δ κ) (N index : Nat) (c : Cursor δ κ) (r : Returned δ κ) : Prop :=
  ∃ path, Reaches σ path c r ∧ (path = [] ↔ σ.source.LeavesAlone index) ∧
    path.length ≤ range σ N index ∧
    ∀ {first : Nat}, first ≤ index → σ.source.StaysFrom first → ∀ k ∈ path, first ≤ k

theorem Explains.follows (h : Explains σ M index c r) (hM : M ≤ N) : Follows σ N index c r := by
  obtain ⟨path, hreach, -, hlength, hstays⟩ := h
  exact ⟨path, hreach, Nat.le_trans hlength (range_mono hM index), hstays⟩

theorem follows_of_ends (hpending : c.pending = none) (hend : Ends σ r c c.pc) (N index : Nat) :
    Follows σ N index c r := by
  have hrun : Path σ [] c c := rfl
  exact ⟨[], .arrives hrun hpending hend, Nat.zero_le _, by simp⟩

theorem le_of_mem_path {path : List Nat} (hpath : path <+: [index, index + 1]) {k : Nat}
    (hk : k ∈ path) : index ≤ k := by
  have hmem := hpath.subset hk
  simp only [List.mem_cons, List.not_mem_nil, or_false] at hmem
  omega

/-- The instruction at `index`, and what comes behind it. -/
theorem Follows.explains {path : List Nat} (h : Follows σ M next c' r) (hrun : Path σ path c c')
    (hpath : path <+: [index, index + 1]) (hne : path ≠ []) (hbusy : ¬ σ.source.LeavesAlone index)
    (hrange : 2 + range σ M next ≤ range σ N index)
    (hnext : ∀ {first}, first ≤ index → σ.source.StaysFrom first → first ≤ next) :
    Explains σ N index c r := by
  obtain ⟨rest, hreach, hlength, hstays⟩ := h
  refine ⟨path ++ rest, hrun.reaches hreach, iff_of_false (fun hnil => ?_) hbusy, ?_, ?_⟩
  · exact hne (List.append_eq_nil_iff.mp hnil).1
  · have hshort : path.length ≤ 2 := hpath.length_le
    rw [List.length_append]
    omega
  · intro first hle hfirst k hk
    rcases List.mem_append.mp hk with hk | hk
    · exact Nat.le_trans hle (le_of_mem_path hpath hk)
    · exact hstays (hnext hle hfirst) hfirst k hk

/-- All runs of at most `N` operations, from places with at most `fuel` steps of generation behind
them. -/
def RunsFrom (σ : Site δ κ) (sEnd : Lowering) (p : HostProgram) (N fuel : Nat) : Prop :=
  ∀ {index : Nat} {s : Lowering} {f : Frame δ κ} {c : Cursor δ κ} {r : Returned δ κ},
    Point σ sEnd fuel index s → Stands σ s.cache s.cycles f c → f.place = s.program.size →
      c.pc = σ.address index → c.pending = none → iterate p.step N f = .finished r →
      Explains σ N index c r

/-- Straight code of the generator stands in the program. -/
theorem Assembled.codeAt (ha : Assembled σ sEnd p) (hgrows : s'.Grows sEnd) {ops : List HostOp}
    (rest : List HostOp) (hprogram : s'.program.toList = s.program.toList ++ (ops ++ rest))
    (hs : ∀ op ∈ ops, op.IsStraight) : p.CodeAt s.program.size ops := by
  intro j op hj
  refine ha.straight (hgrows.getElem? ?_) (hs op (List.mem_of_getElem? hj))
  have hlt : j < ops.length := (List.getElem?_eq_some_iff.mp hj).1
  rw [← Array.getElem?_toList, hprogram, List.getElem?_append_right (by simp)]
  simp only [Array.length_toList, Nat.add_sub_cancel_left]
  rw [List.getElem?_append_left hlt, hj]

/-- Code goes on with the instruction `next`, or with the exit behind the last one. -/
theorem follows_of_lowerFrom (hF : σ.source.Faithful σ.exact) (ha : Assembled σ sEnd p)
    (hrest : ∀ {M rest}, M ≤ N → rest < fuel → RunsFrom σ sEnd p M rest) (hw : s.cache.WellFormed)
    (hfuel : σ.source.ops.size ≤ fuel + next) (h : lowerFrom σ.source fuel next s = .ok () sEnd)
    (hst : Stands σ s.cache s.cycles f c) (hplace : f.place = s.program.size)
    (hpc : c.pc = σ.address next) (hpending : c.pending = none) (hnext : next ≤ σ.source.ops.size)
    (hrun : iterate p.step N f = .finished r) :
    Follows σ N next c r := by
  rcases lowerFrom_ok hF hfuel hw h with ⟨hle, rfl⟩ | ⟨rest, s1, rfl, hopens, hpoint⟩
  · obtain ⟨ops, hcode, hs, hline⟩ := ha.last
    obtain ⟨r', hr', hend⟩ := hline hst
    have hfinished : iterate p.step ops.length f = .finished r' :=
      iterate_line_finished (hplace ▸ hcode) hs (ha.pc ▸ hr')
    rw [iterate_unique hrun hfinished]
    rw [show σ.source.ops.size = next by omega, ← hpc] at hend
    exact follows_of_ends hpending hend N next
  · obtain ⟨ops, hprogram, hs, hline⟩ := hopens.line
    obtain ⟨f1, hr1, hst1⟩ := hline hst
    have hgrows : s1.Grows sEnd := by
      obtain ⟨-, next', s2, hcoded, hfuel', h'⟩ := hpoint
      exact hcoded.grows.trans (lowerFrom_grows hF hfuel' hcoded.wellFormed h').1
    have hcode : p.CodeAt s.program.size ops :=
      ha.codeAt hgrows [] (by simpa using hprogram) hs
    obtain ⟨hgo, hplace1⟩ := iterate_line_running (hplace ▸ hcode) hs (ha.pc ▸ hr1)
    obtain ⟨M, rfl, hrun1⟩ := iterate_rest hgo hrun
    have hplace1 : f1.place = s1.program.size := by
      rw [hplace1, hplace, ← Array.length_toList, ← Array.length_toList, hprogram, List.length_append]
    exact (hrest (by omega) (by omega) hpoint hst1 hplace1 hpc hpending hrun1).follows (by omega)

/-- Jump to a place, or leave for the address if there is none. -/
def jumpTo (f : Frame δ κ) (place : Option Nat) (target : UInt32) :
    Progress (Frame δ κ) (Returned δ κ) :=
  match place with
  | some place => f.jump place target
  | none => f.leave target

/-- What a jump inside the block does once it has its place. -/
theorem step_localJump {j : LocalJump} {place : Option Nat}
    (hop : p.ops[f.place]? = some (patchOp place j.op)) :
    p.step f = if j.conditional && !f.condition then f.goOn else jumpTo f place j.target := by
  rw [HostProgram.step, hop]
  unfold LocalJump.op
  cases hcond : j.conditional with
  | false => cases place <;> rfl
  | true =>
    cases hf : f.condition with
    | true => cases place <;> simp [patchOp, perform, hf, jumpTo]
    | false => cases place <;> simp [patchOp, perform, hf]

/-- A jump inside the block that is taken leaves for its target or goes on there. -/
theorem follows_of_jump (ha : Assembled σ sEnd p)
    (hjump : ∀ {M rest}, M ≤ N → RunsFrom σ sEnd p M rest) {j : LocalJump}
    (hop : p.ops[f.place]? = some (patchOp (sEnd.labels[j.inside]?).join j.op))
    (htaken : (j.conditional && !f.condition) = false) (hw : s.cache.WellFormed)
    (hempty : s.cache.Empty) (hst : Stands σ s.cache 0 f c) (htarget : c.pc = j.target)
    (hpc : c.pc = σ.address j.inside) (hpending : c.pending = none)
    (hrun : iterate p.step (N + 1) f = .finished r) : Follows σ N j.inside c r := by
  have hleave {M : Nat} (h : iterate p.step M f = .finished r)
      (hstep : p.step f = f.leave j.target) : Follows σ N j.inside c r := by
    obtain ⟨r', hr', hend⟩ := hst.ends (hempty.clean hw) j.target
    have hfinished : iterate p.step 1 f = .finished r' := by rw [iterate_succ, hstep, hr']
    rw [iterate_unique h hfinished]
    exact follows_of_ends hpending (htarget ▸ hend) N _
  have hstep := step_localJump hop
  rw [htaken, if_neg (by simp)] at hstep
  cases hlabel : sEnd.labels[j.inside]? with
  | none =>
    rw [hlabel] at hstep
    exact hleave hrun hstep
  | some label =>
    cases label with
    | none =>
      rw [hlabel] at hstep
      exact hleave hrun hstep
    | some place =>
      rw [hlabel] at hstep
      change p.step f = f.jump place j.target at hstep
      unfold Frame.jump at hstep
      split at hstep
      · exact hleave hrun hstep
      · -- the target starts with an empty cache and nothing to charge, as the jump ends
        obtain ⟨fuel, s1, hpoint, hplace, hempty1, hlag1⟩ := (ha.labelled hlabel).point
        rw [iterate_succ, hstep] at hrun
        have hst1 : Stands σ s1.cache s1.cycles { f with place } c :=
          hlag1 ▸ (hst.ofEmpty hempty hempty1).withControl _ _ _
        exact (hjump (Nat.le_refl N) hpoint hst1 hplace.symm hpc hpending hrun).follows
          (Nat.le_refl N)

theorem runsFrom_step (hF : σ.source.Faithful σ.exact) (ha : Assembled σ sEnd p)
    (hjump : ∀ {M rest}, M < N → RunsFrom σ sEnd p M rest)
    (hrest : ∀ {M rest}, M ≤ N → rest < fuel → RunsFrom σ sEnd p M rest) :
    RunsFrom σ sEnd p N fuel := by
  intro index s f c r hpoint hst hplace hpc hpending hrun
  obtain ⟨hlt, next, s', hcoded, hfuel, h⟩ := hpoint
  have hw := hcoded.wellFormed
  have hgrows := (lowerFrom_grows hF hfuel hw h).1
  obtain ⟨hindex, ops, jump, hseg, hcarries⟩ := hcoded
  have hcode := ha.codeAt hgrows _ hseg.program hseg.straight
  have hc := hcarries hst hpc hpending
  -- The straight part of the code either leaves or comes to the jump at its end, if it has one.
  cases hout : runLine σ.source.pc ops f with
  | finished r' =>
    rw [hout] at hc
    have hfinished : iterate p.step ops.length f = .finished r' :=
      iterate_line_finished (hplace ▸ hcode) hseg.straight (ha.pc ▸ hout)
    rw [iterate_unique hrun hfinished]
    cases hc with
    | leaves hreach hpath halone =>
      refine ⟨_, hreach, halone, ?_, ?_⟩
      · have hshort : _ ≤ 2 := hpath.length_le
        unfold range
        omega
      · intro first hle _ k hk
        exact Nat.le_trans hle (le_of_mem_path hpath hk)
  | running f' =>
    rw [hout] at hc
    obtain ⟨hgo, hplace'⟩ := iterate_line_running (hplace ▸ hcode) hseg.straight (ha.pc ▸ hout)
    obtain ⟨M, rfl, hrunM⟩ := iterate_rest hgo hrun
    cases hc with
    | goesOn hrun' hpath hne hbusy hst' hpending' hpc' hnext =>
      -- Nothing in front of `first` is reached by falling through; a jump cannot either, by
      -- `StaysFrom`.
      have hbehind : ∀ {first}, first ≤ index → σ.source.StaysFrom first → first ≤ next :=
        fun hle _ => Nat.le_trans hle (Nat.le_of_lt hindex)
      have hsize : s'.program.size =
          s.program.size + (ops.length + (jump.map LocalJump.op).toList.length) := by
        rw [← Array.length_toList, hseg.program, List.length_append, List.length_append,
          Array.length_toList]
      cases jump with
      | none =>
        -- falls through to the code of the next instruction
        have hplace' : f'.place = s'.program.size := by rw [hplace', hplace, hsize]; rfl
        have hrest' : ∀ {K rest}, K ≤ M → rest < fuel → RunsFrom σ sEnd p K rest :=
          fun hK => hrest (by omega)
        have hfollows : Follows σ M next _ r := follows_of_lowerFrom hF ha hrest' hw hfuel h hst'
          hplace' hpc' hpending' hnext hrunM
        exact hfollows.explains hrun' hpath hne hbusy (range_next (by omega) hindex hnext) hbehind
      | some j =>
        obtain ⟨hlag, hempty, hto⟩ := hseg.jumps rfl
        have hsize : s'.program.size = f'.place + 1 := by rw [hsize, hplace', hplace]; rfl
        have hop : p.ops[f'.place]? = some (patchOp (sEnd.labels[j.inside]?).join j.op) := by
          refine ha.jump ?_ (hgrows.getElem? ?_)
          · obtain ⟨new, hnew, -⟩ := hgrows.fixups
            rw [hnew, hseg.fixups, hplace', hplace]
            simp
          · rw [hplace', hplace, ← Array.getElem?_toList, hseg.program]
            simp
        have hstep := step_localJump hop
        cases htaken : j.conditional && !f'.condition with
        | true =>
          -- the jump is not taken
          rw [htaken, if_pos rfl] at hstep
          have hgo : iterate p.step 1 f' = .running { f' with place := f'.place + 1 } := by
            rw [iterate_succ, hstep]
            rfl
          obtain ⟨M, rfl, hrun1⟩ := iterate_rest hgo hrunM
          rw [LocalJump.follow, htaken] at hpc'
          have hrest' : ∀ {K rest}, K ≤ M → rest < fuel → RunsFrom σ sEnd p K rest :=
            fun hK => hrest (by omega)
          have hfollows : Follows σ M next _ r := follows_of_lowerFrom hF ha hrest' hw hfuel h
            (hst'.withControl _ _ _) hsize.symm hpc' hpending' hnext hrun1
          exact hfollows.explains hrun' hpath hne hbusy (range_next (by omega) hindex hnext) hbehind
        | false =>
          -- The jump is taken. It took a step, so that the claim is there for all code that the
          -- rest of the run may go through.
          cases M with
          | zero => cases hrunM
          | succ M =>
            rw [LocalJump.follow, htaken, if_neg (by simp)] at hpc'
            obtain ⟨o, ho, hl, ht, hi⟩ := id hto
            have hinside := (Interpreter.address_of_indexIn? hi).2.1
            have hjump' : ∀ {K rest}, K ≤ M → RunsFrom σ sEnd p K rest :=
              fun hK => hjump (by omega)
            have hfollows : Follows σ M j.inside _ r := follows_of_jump ha hjump' hop htaken hw
              hempty (hlag ▸ hst') hpc' (hpc'.trans hinside) hpending' hrunM
            exact hfollows.explains hrun' hpath hne hbusy
              (range_jump (by omega) hlt _)
              fun hle hfirst => hfirst hle hto

/-- Every run of generated code that ends is explained by a run of the interpreter. -/
theorem explains_of_point (hF : σ.source.Faithful σ.exact) (ha : Assembled σ sEnd p)
    (N fuel : Nat) : RunsFrom σ sEnd p N fuel := by
  induction N using Nat.strongRecOn generalizing fuel with
  | ind N ihN =>
    induction fuel using Nat.strongRecOn with
    | ind fuel ihFuel =>
      refine runsFrom_step hF ha (fun hM => ihN _ hM _) ?_
      intro M rest hM hrest
      rcases Nat.lt_or_eq_of_le hM with hM | rfl
      · exact ihN M hM rest
      · exact ihFuel rest hrest

end Lowering

end Dynarec
