/-
  Dynarec.Proofs.Host.Assembly

  Generated code as a whole.

  `Coded` is the code of one instruction and `Point` a place of the generated
  code in front of one: from there on the rest of the block follows. Every
  label is the place of such a point, with no register cached. `Assembled`
  says all that running a program needs to know of how it was generated.
-/
import Dynarec.Host.Generator
import Dynarec.Proofs.Host.Branches
import Dynarec.Proofs.Host.Layout

namespace Dynarec

theorem RegisterCache.SameUse.empty {c d : RegisterCache} (h : c.SameUse d) (hc : c.Empty) :
    d.Empty := fun k => (h k).1.trans (hc k)

namespace Lowering

open HostProgram
open Interpreter (Cursor)

/-! ## From one instruction to the next -/

/-- From `s` to `s'` code was added, with fixups for the new jumps in it. -/
structure Grows (s s' : Lowering) : Prop where
  program : s.program.toList <+: s'.program.toList
  fixups : ∃ new, s'.fixups.toList = s.fixups.toList ++ new ∧
    (new.Pairwise fun x y => x.1 < y.1) ∧
    ∀ x ∈ new, s.program.size ≤ x.1 ∧ x.1 < s'.program.size
  size : s'.labels.size = s.labels.size
  labels : ∀ {j place : Nat}, s.labels[j]? = some (some place) →
    ∃ place', s'.labels[j]? = some (some place')

variable {s s' s'' : Lowering}

theorem Grows.refl (s : Lowering) : s.Grows s :=
  ⟨List.prefix_refl _, ⟨[], by simp⟩, rfl, fun h => ⟨_, h⟩⟩

theorem Grows.le (h : s.Grows s') : s.program.size ≤ s'.program.size := by
  simpa using h.program.length_le

theorem Grows.trans (h1 : s.Grows s') (h2 : s'.Grows s'') : s.Grows s'' where
  program := h1.program.trans h2.program
  fixups := by
    obtain ⟨new1, he1, hp1, hb1⟩ := h1.fixups
    obtain ⟨new2, he2, hp2, hb2⟩ := h2.fixups
    refine ⟨new1 ++ new2, by rw [he2, he1, List.append_assoc], ?_, ?_⟩
    · refine List.pairwise_append.mpr ⟨hp1, hp2, fun x hx y hy => ?_⟩
      exact Nat.lt_of_lt_of_le (hb1 x hx).2 (hb2 y hy).1
    · intro x hx
      have hle1 := h1.le
      have hle2 := h2.le
      rcases List.mem_append.mp hx with hx | hx
      · have hb := hb1 x hx
        omega
      · have hb := hb2 x hx
        omega
  size := h2.size.trans h1.size
  labels := by
    intro j place h
    obtain ⟨place', h'⟩ := h1.labels h
    exact h2.labels h'

/-- What stands in the program stays there. -/
theorem Grows.getElem? (h : s.Grows s') {place : Nat} {op : HostOp}
    (hop : s.program[place]? = some op) : s'.program[place]? = some op := by
  obtain ⟨ops, hops⟩ := h.program
  have hlt : place < s.program.toList.length := (Array.getElem?_eq_some_iff.mp hop).1
  rw [← Array.getElem?_toList, ← hops, List.getElem?_append_left hlt, Array.getElem?_toList, hop]

theorem Extends.grows {ops : List HostOp} (h : s.Extends s' ops) : s.Grows s' where
  program := ⟨ops, h.program.symm⟩
  fixups := ⟨[], by simp [h.fixups]⟩
  size := by rw [h.labels]
  labels := fun hl => ⟨_, h.labels ▸ hl⟩

variable {δ κ : Type} [Device δ] [Coprocessor κ] {σ : Site δ κ} {index next : Nat}

omit [Device δ] [Coprocessor κ] in
theorem Segment.grows {ops : List HostOp} {jump : Option LocalJump}
    (h : Segment σ s s' index ops jump) : s.Grows s' where
  program := ⟨_, h.program.symm⟩
  fixups := by
    refine ⟨_, h.fixups, ?_, ?_⟩
    · cases jump <;> simp
    · intro x hx
      have hsize : s'.program.size =
          s.program.size + (ops.length + (jump.map LocalJump.op).toList.length) := by
        rw [← Array.length_toList, h.program, List.length_append, List.length_append,
          Array.length_toList]
      cases jump with
      | none => cases hx
      | some j =>
        rw [hsize, List.mem_singleton.mp hx]
        simp only [Option.map_some, Option.toList_some, List.length_singleton]
        omega
  size := by rw [h.labels]
  labels := fun hl => ⟨_, h.labels ▸ hl⟩

/-- From `s` to `s'` the code of the instruction at `index` was generated; instruction `next` comes
behind it. -/
def Coded (σ : Site δ κ) (s s' : Lowering) (index next : Nat) : Prop :=
  index < next ∧ ∃ ops jump, Segment σ s s' index ops jump ∧
    ∀ {f : Frame δ κ} {c : Cursor δ κ}, Stands σ s.cache s.cycles f c →
      c.pc = σ.address index → c.pending = none →
      Carries σ s' jump index next (runLine σ.source.pc ops f) c

theorem Coded.grows (h : Coded σ s s' index next) : s.Grows s' := by
  obtain ⟨-, ops, jump, hseg, -⟩ := h
  exact hseg.grows

theorem Coded.wellFormed (h : Coded σ s s' index next) : s'.cache.WellFormed := by
  obtain ⟨-, ops, jump, hseg, -⟩ := h
  exact hseg.wellFormed

theorem Coded.labels (h : Coded σ s s' index next) : s'.labels = s.labels := by
  obtain ⟨-, ops, jump, hseg, -⟩ := h
  exact hseg.labels

theorem coded_of_ok (hF : σ.source.Faithful σ.exact) {o : Op} (ho : σ.source.ops[index]? = some o)
    (hw : s.cache.WellFormed) {u : Unit} (h1 : lowerOp σ.source index o s = .ok next s')
    (h2 : releaseLocks s' = .ok u s'') :
    Coded σ s s'' index next := by
  obtain ⟨hlt, ops, jump, hseg, hrun⟩ := lowerOp_ok hF ho hw h1
  have hs := s'.cache.sameUse_releaseLocks
  cases h2
  refine ⟨hlt, ops, jump, ?_, ?_⟩
  · refine { hseg with wellFormed := hs.wellFormed hseg.wellFormed, jumps := ?_ }
    intro j hj
    obtain ⟨hlag, hempty, hto⟩ := hseg.jumps hj
    exact ⟨hlag, hs.empty hempty, hto⟩
  · intro f c hst hpc hpending
    have hc := hrun hst hpc hpending
    generalize runLine σ.source.pc ops f = out at hc
    cases hc with
    | leaves hreach hpath halone => exact .leaves hreach hpath halone
    | goesOn hrun hpath hne hbusy hst hpending hpc hnext =>
      exact .goesOn hrun hpath hne hbusy (hst.withCache hs) hpending hpc hnext

/-- From `s` to `s'` the generator got ready for the instruction at `index`, which got a label if
other code leads there. -/
structure Opens (σ : Site δ κ) (s s' : Lowering) (index : Nat) : Prop where
  line : ∃ ops, s'.program.toList = s.program.toList ++ ops ∧ (∀ op ∈ ops, op.IsStraight) ∧
    ∀ {f : Frame δ κ} {c : Cursor δ κ}, Stands σ s.cache s.cycles f c →
      ∃ f', runLine σ.source.pc ops f = .running f' ∧ Stands σ s'.cache s'.cycles f' c
  fixups : s'.fixups = s.fixups
  wellFormed : s'.cache.WellFormed
  label : s'.labels = s.labels ∧ index ≠ 0 ∨
    s'.labels = s.labels.setIfInBounds index (some s'.program.size) ∧
      s'.cache.Empty ∧ s'.cycles = 0

theorem Opens.grows (h : Opens σ s s' index) : s.Grows s' := by
  obtain ⟨ops, hprogram, -⟩ := h.line
  refine ⟨⟨ops, hprogram.symm⟩, ⟨[], by simp [h.fixups]⟩, ?_, ?_⟩
  · rcases h.label with ⟨hl, -⟩ | ⟨hl, -⟩
    · rw [hl]
    · rw [hl, Array.size_setIfInBounds]
  · intro j place hj
    rcases h.label with ⟨hl, -⟩ | ⟨hl, -⟩
    · exact ⟨place, hl ▸ hj⟩
    · by_cases hk : index = j
      · subst hk
        rw [hl, Array.getElem?_setIfInBounds_self_of_lt (Array.getElem?_eq_some_iff.mp hj).1]
        exact ⟨_, rfl⟩
      · rw [hl, Array.getElem?_setIfInBounds_ne hk]
        exact ⟨place, hj⟩

theorem label_ok (σ : Site δ κ) {u : Unit} (hw : s.cache.WellFormed)
    (h : label index s = .ok u s') : Opens σ s s' index := by
  obtain ⟨_, s1, h1, h⟩ := bind_ok h
  obtain ⟨_, s2, h2, h3⟩ := bind_ok h
  obtain ⟨hr1, hc1, -⟩ := flushCycles_ok σ hw h1
  obtain ⟨hr2, hc2, hempty⟩ := unloadAll_ok σ hr1.wellFormed h2
  obtain ⟨ops, he, hrun⟩ := hr1.trans hr2
  cases h3
  refine ⟨⟨ops, he.program, he.straight, fun hst => ?_⟩, he.fixups, hr2.wellFormed,
    .inr ⟨?_, hempty, hc2.trans hc1⟩⟩
  · obtain ⟨f', hr, hst', -⟩ := hrun hst
    exact ⟨f', hr, hst'⟩
  · dsimp only
    rw [he.labels]

theorem openAt_ok (σ : Site δ κ) {o : Op} {u : Unit} (hw : s.cache.WellFormed)
    (h : openAt index o s = .ok u s') : Opens σ s s' index := by
  unfold openAt at h
  split at h
  · exact label_ok σ hw h
  · rename_i hno
    cases h
    refine ⟨⟨[], by simp, by simp, fun hst => ⟨_, rfl, hst⟩⟩, rfl, hw, .inl ⟨rfl, ?_⟩⟩
    intro h0
    simp [h0] at hno

theorem checkSize_ok {u : Unit} (h : checkSize s = .ok u s') : s' = s := by
  obtain ⟨s1, s2, h1, h2⟩ := bind_ok h
  cases h1
  split at h2
  · cases h2
  · cases h2
    rfl

/-! ## The rest of the block -/

/-- In front of the instruction at `index` the code is `s`; the code of this instruction and of
the rest of the block leads to `sEnd`. -/
def Point (σ : Site δ κ) (sEnd : Lowering) (fuel index : Nat) (s : Lowering) : Prop :=
  index < σ.source.ops.size ∧ ∃ next s', Coded σ s s' index next ∧
    σ.source.ops.size ≤ fuel + next ∧ lowerFrom σ.source fuel next s' = .ok () sEnd

variable {sEnd : Lowering} {fuel : Nat}

/-- Generation is over, or gets to the instruction at `index`. -/
theorem lowerFrom_ok (hF : σ.source.Faithful σ.exact) (hfuel : σ.source.ops.size ≤ fuel + index)
    (hw : s.cache.WellFormed) (h : lowerFrom σ.source fuel index s = .ok () sEnd) :
    σ.source.ops.size ≤ index ∧ sEnd = s ∨
      ∃ rest s', fuel = rest + 1 ∧ Opens σ s s' index ∧ Point σ sEnd rest index s' := by
  cases fuel with
  | zero =>
    cases h
    exact .inl ⟨by omega, rfl⟩
  | succ fuel =>
    unfold lowerFrom at h
    cases ho : σ.source.ops[index]? with
    | none =>
      rw [ho] at h
      cases h
      exact .inl ⟨Array.getElem?_eq_none_iff.mp ho, rfl⟩
    | some o =>
      rw [ho] at h
      obtain ⟨_, s1, h1, h⟩ := bind_ok h
      obtain ⟨next, s2, h2, h⟩ := bind_ok h
      obtain ⟨_, s3, h3, h⟩ := bind_ok h
      obtain ⟨_, s4, h4, h⟩ := bind_ok h
      -- a label, the instruction, and the locks given back
      have hopens := openAt_ok σ hw h1
      have hcoded := coded_of_ok hF ho hopens.wellFormed h2 h3
      have hlt := hcoded.1
      rw [checkSize_ok h4] at h
      exact .inr ⟨fuel, s1, rfl, hopens, (Array.getElem?_eq_some_iff.mp ho).1, next, s3, hcoded,
        by omega, h⟩

theorem lowerFrom_grows (hF : σ.source.Faithful σ.exact) (hfuel : σ.source.ops.size ≤ fuel + index)
    (hw : s.cache.WellFormed) (h : lowerFrom σ.source fuel index s = .ok () sEnd) :
    s.Grows sEnd ∧ sEnd.cache.WellFormed := by
  induction fuel generalizing index s with
  | zero =>
    cases h
    exact ⟨Grows.refl _, hw⟩
  | succ fuel ih =>
    rcases lowerFrom_ok hF hfuel hw h with ⟨-, rfl⟩ | ⟨_, s1, hrest, hopens, -, next, s2, hcoded, hfuel', h'⟩
    · exact ⟨Grows.refl _, hw⟩
    · cases hrest
      obtain ⟨hgrows, hend⟩ := ih hfuel' hcoded.wellFormed h'
      exact ⟨hopens.grows.trans (hcoded.grows.trans hgrows), hend⟩

/-- The place of an instruction that got a label: no register is cached there and nothing waits to
be charged. -/
structure Labelled (σ : Site δ κ) (sEnd : Lowering) (inside place : Nat) : Prop where
  point : ∃ fuel s, Point σ sEnd fuel inside s ∧ s.program.size = place ∧ s.cache.Empty ∧
    s.cycles = 0

/-- Every new label is where its instruction starts. -/
theorem labelled_of_lowerFrom (hF : σ.source.Faithful σ.exact)
    (hfuel : σ.source.ops.size ≤ fuel + index) (hw : s.cache.WellFormed)
    (h : lowerFrom σ.source fuel index s = .ok () sEnd) {inside place : Nat}
    (hlabel : sEnd.labels[inside]? = some (some place)) :
    s.labels[inside]? = some (some place) ∨ Labelled σ sEnd inside place := by
  induction fuel generalizing index s with
  | zero =>
    cases h
    exact .inl hlabel
  | succ fuel ih =>
    rcases lowerFrom_ok hF hfuel hw h with
      ⟨-, rfl⟩ | ⟨_, s1, hrest, hopens, hlt, next, s2, hcoded, hfuel', h'⟩
    · exact .inl hlabel
    · cases hrest
      rcases ih hfuel' hcoded.wellFormed h' with hold | hnew
      · rw [hcoded.labels] at hold
        rcases hopens.label with ⟨hl, -⟩ | ⟨hl, hempty, hlag⟩
        · exact .inl (hl ▸ hold)
        · by_cases hk : index = inside
          · -- this is the instruction that got it
            subst hk
            have hbound : index < s.labels.size := by
              rw [← hopens.grows.size]
              exact (Array.getElem?_eq_some_iff.mp hold).1
            rw [hl, Array.getElem?_setIfInBounds_self_of_lt hbound] at hold
            cases hold
            exact .inr ⟨fuel, s1, ⟨hlt, next, s2, hcoded, hfuel', h'⟩, rfl, hempty, hlag⟩
          · rw [hl, Array.getElem?_setIfInBounds_ne hk] at hold
            exact .inl hold
      · exact .inr hnew

/-- The first instruction gets a label. -/
theorem label_zero (hF : σ.source.Faithful σ.exact) (hfuel : σ.source.ops.size ≤ fuel)
    (hw : s.cache.WellFormed) (hlabels : s.labels.size = σ.source.ops.size)
    (hsize : 0 < σ.source.ops.size) (h : lowerFrom σ.source fuel 0 s = .ok () sEnd) :
    ∃ place, sEnd.labels[0]? = some (some place) := by
  rcases lowerFrom_ok hF hfuel hw h with ⟨hle, -⟩ | ⟨rest, s1, -, hopens, -, next, s2, hcoded, hfuel', h'⟩
  · omega
  · rcases hopens.label with ⟨-, h0⟩ | ⟨hl, -⟩
    · exact absurd rfl h0
    · have hplace : s2.labels[0]? = some (some s1.program.size) := by
        rw [hcoded.labels, hl, Array.getElem?_setIfInBounds_self_of_lt (by omega)]
      exact (lowerFrom_grows hF hfuel' hcoded.wellFormed h').1.labels hplace

/-! ## The finished program -/

/-- Program `p` is made of the code of all instructions, up to `sEnd`, and an exit behind it. -/
structure Assembled (σ : Site δ κ) (sEnd : Lowering) (p : HostProgram) : Prop where
  pc : p.pc = σ.source.pc
  straight : ∀ {place : Nat} {op : HostOp}, sEnd.program[place]? = some op → op.IsStraight →
    p.ops[place]? = some op
  jump : ∀ {place inside : Nat} {op : HostOp}, (place, inside) ∈ sEnd.fixups.toList →
    sEnd.program[place]? = some op →
    p.ops[place]? = some (patchOp (sEnd.labels[inside]?).join op)
  last : ∃ ops, p.CodeAt sEnd.program.size ops ∧ (∀ op ∈ ops, op.IsStraight) ∧
    ∀ {f : Frame δ κ} {c : Cursor δ κ}, Stands σ sEnd.cache sEnd.cycles f c →
      ∃ r, runLine σ.source.pc ops f = .finished r ∧
        Ends σ r c (σ.address σ.source.ops.size)
  labelled : ∀ {inside place : Nat}, sEnd.labels[inside]? = some (some place) →
    Labelled σ sEnd inside place
  entry : ∀ {offset place : Nat}, sEnd.labels[offset]? = some (some place) →
    p.entryPoint? offset = some place
  targets : ∀ {offset : Nat}, offset = 0 ∨ offset ∈ p.targets →
    ∃ place, sEnd.labels[offset]? = some (some place)

theorem lowerBlock_ok (hF : σ.source.Faithful σ.exact) (hsize : 0 < σ.source.ops.size)
    (hw : s.cache.WellFormed) (hfresh : s.fixups = #[])
    (hlabels : s.labels = Array.replicate σ.source.ops.size none) {p : HostProgram}
    (h : lowerBlock σ.source s = .ok p s') : ∃ sEnd, Assembled σ sEnd p := by
  obtain ⟨_, sEnd, h1, h⟩ := bind_ok h
  obtain ⟨_, sFin, h2, h3⟩ := bind_ok h
  obtain ⟨hgrows, hwEnd⟩ := lowerFrom_grows hF (Nat.le_refl _) hw h1
  obtain ⟨⟨ops, he, hrun⟩, -⟩ := exitWith_ok σ (fun _ => σ.address σ.source.ops.size) (by trivial)
    (fun _ => rfl) hwEnd h2
  cases h3
  have hlsize : sEnd.labels.size = σ.source.ops.size := by
    rw [hgrows.size, hlabels, Array.size_replicate]
  have hbound : sEnd.labels.size ≤ 65536 := by
    have := hF.size
    omega
  -- Jumps are patched once each, as their places differ.
  have hfix : sEnd.fixups.toList.Pairwise fun x y => x.1 < y.1 := by
    obtain ⟨new, hnew, hpair, -⟩ := hgrows.fixups
    rw [hnew, hfresh]
    exact hpair
  have hops : sFin.fixups.foldl (patch sFin.labels) sFin.program =
      sEnd.fixups.toList.foldl (patch sEnd.labels) sFin.program := by
    rw [he.fixups, he.labels, Array.foldl_toList]
  refine ⟨sEnd, rfl, ?_, ?_, ?_, ?_, ?_, ?_⟩
  · intro place op hop hs
    dsimp only
    rw [hops]
    exact foldl_patch_of_isStraight _ (he.grows.getElem? hop) hs
  · intro place inside op hmem hop
    dsimp only
    rw [hops]
    exact foldl_patch_of_mem _ hfix hmem (he.grows.getElem? hop)
  · -- the exit behind the last instruction
    refine ⟨ops, ?_, he.straight, hrun⟩
    intro j op hj
    dsimp only
    rw [hops]
    refine foldl_patch_of_isStraight _ ?_ (he.straight op (List.mem_of_getElem? hj))
    rw [← Array.getElem?_toList, he.program, List.getElem?_append_right (by simp)]
    simpa using hj
  · intro inside place hlabel
    rcases labelled_of_lowerFrom hF (Nat.le_refl _) hw h1 hlabel with hold | hnew
    · rw [hlabels] at hold
      simp [Array.getElem?_replicate] at hold
    · exact hnew
  · intro offset place hlabel
    refine entryPoint?_of_mem ?_ ?_
    · dsimp only
      rw [he.labels]
      exact pairwise_entries hbound
    · dsimp only
      rw [he.labels]
      exact (mem_entries hbound).mpr hlabel
  · intro offset hoffset
    -- every entry point has a label
    rcases hoffset with rfl | hmem
    · exact label_zero hF (Nat.le_refl _) hw (by rw [hlabels, Array.size_replicate]) hsize h1
    · obtain ⟨⟨k, place⟩, hentry, hk⟩ := List.mem_filterMap.mp hmem
      dsimp only at hk hentry
      split at hk
      · cases hk
      · cases hk
        rw [he.labels] at hentry
        exact ⟨place, (mem_entries hbound).mp hentry⟩

end Lowering

/-- Code that was generated. -/
theorem HostProgram.assembled_of_generate {δ κ : Type} [Device δ] [Coprocessor κ] {σ : HostProgram.Site δ κ}
    (hF : σ.source.Faithful σ.exact) {cache : RegisterCache} (hw : cache.WellFormed)
    {p : HostProgram} (h : (HostProgram.generate σ.source cache).result = .ok p) :
    ∃ sEnd, Lowering.Assembled σ sEnd p := by
  unfold HostProgram.generate at h
  split at h
  · cases h
  · rename_i hempty
    split at h
    · rename_i p' s' hl
      cases h
      refine Lowering.lowerBlock_ok hF ?_ hw rfl rfl hl
      exact Array.size_pos_iff.mpr (by simpa using hempty)
    · cases h

end Dynarec
