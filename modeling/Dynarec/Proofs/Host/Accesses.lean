/-
  Dynarec.Proofs.Host.Accesses

  Every access that a call of generated code makes is one of the guest.

  Code is entered at a label with an empty register cache, and so are the places
  that jumps lead to. While the generator goes on, what it has appended behind
  each label stays sound; in the end that is the whole of the program, and
  patching gives the jumps no other places than labels.
-/
import Dynarec.Proofs.Host.Assembly
import Dynarec.Proofs.Host.Reach

namespace Dynarec

open Interpreter (Cursor)
open HostProgram (Frame Stands MayJump Sound sound_append AccessAt perform runLine
  exists_of_runLine_append)

variable {δ κ : Type} [Device δ] [Coprocessor κ]

namespace Lowering

variable {source : BlockSource} {m : Machine δ κ} {s s' s'' : Lowering}
  {P Q : Machine δ κ → Prop} {index : Nat}

/-! ## Generation -/

/-- Behind each label the code up to `s` is sound, and its end is reached where the guest has a
machine with `P`. -/
structure Covers (source : BlockSource) (m : Machine δ κ) (s : Lowering)
    (P : Machine δ κ → Prop) : Prop where
  wellFormed : s.cache.WellFormed
  jumps : ∀ {place : Nat} {op : HostOp}, s.program.toList[place]? = some op → ¬op.IsStraight →
    ∃ inside, (place, inside) ∈ s.fixups
  placed : ∀ {index place : Nat}, s.labels[index]? = some (some place) → place ≤ s.program.size
  sound : ∀ {index place : Nat} {f : Frame δ κ}, s.labels[index]? = some (some place) →
    MayJump source m f → Sound source m (s.program.toList.drop place) f
  reaches : ∀ {index place : Nat} {f f' : Frame δ κ}, s.labels[index]? = some (some place) →
    MayJump source m f → runLine source.pc (s.program.toList.drop place) f = .running f' →
      ∃ c, Stands (anySite source) s.cache s.cycles f' c ∧ P c.machine

theorem covers_start (source : BlockSource) (m : Machine δ κ) {cache : RegisterCache}
    (hw : cache.WellFormed) : Covers source m (start source cache) P := by
  have hnone {index place : Nat} : (start source cache).labels[index]? ≠ some (some place) := by
    simp [start, Array.getElem?_replicate]
  exact ⟨hw, by simp [start], fun h => absurd h hnone, fun h => absurd h hnone,
    fun h => absurd h hnone⟩

/-- More code behind all labels. -/
theorem Covers.guards (h : Covers source m s P) (hg : Guards source m s s' P Q) :
    Covers source m s' Q := by
  obtain ⟨ops, ha, hrun⟩ := hg
  -- From a label on, the program is what it was with the new code behind it.
  have hdrop {index place : Nat} (hl : s.labels[index]? = some (some place)) :
      s'.program.toList.drop place = s.program.toList.drop place ++ ops := by
    rw [ha.program, List.drop_append_of_le_length (by simpa using h.placed hl)]
  refine ⟨ha.wellFormed, ?_, ?_, ?_, ?_⟩
  · intro place op hop hs
    rw [ha.program, List.getElem?_append] at hop
    split at hop
    · obtain ⟨inside, hmem⟩ := h.jumps hop hs
      exact ⟨inside, ha.fixups hmem⟩
    · rename_i hge
      obtain ⟨inside, hmem⟩ := ha.jumps hop hs
      rw [Array.length_toList] at hge hmem
      rw [Nat.add_sub_cancel' (Nat.le_of_not_lt hge)] at hmem
      exact ⟨inside, hmem⟩
  · intro index place hl
    rw [ha.labels] at hl
    have hsize := congrArg List.length ha.program
    simp only [Array.length_toList, List.length_append] at hsize
    exact Nat.le_trans (h.placed hl) (hsize ▸ Nat.le_add_right ..)
  · intro index place f hl hf
    rw [ha.labels] at hl
    rw [hdrop hl]
    refine sound_append (h.sound hl hf) fun hf' => ?_
    obtain ⟨c, hst, hP⟩ := h.reaches hl hf hf'
    exact (hrun hst hP).1
  · intro index place f f' hl hf hf'
    rw [ha.labels] at hl
    rw [hdrop hl] at hf'
    obtain ⟨g, hg, hf'⟩ := exists_of_runLine_append hf'
    obtain ⟨c, hst, hP⟩ := h.reaches hl hf hg
    exact (hrun hst hP).2 hf'

/-- A new label, where no register is cached and all cycles are charged. -/
theorem label_covers {u : Unit} (h : Covers source m s (source.Leads m index))
    (hopens : source.Opens index) (hl : label index s = .ok u s') :
    Covers source m s' (source.Leads m index) := by
  obtain ⟨_, s1, h1, hl⟩ := bind_ok hl
  obtain ⟨_, s2, h2, h3⟩ := bind_ok hl
  obtain ⟨hsettled, hlag, hempty⟩ : Guards source m s s2 (source.Leads m index)
      (source.Leads m index) ∧ s2.cycles = 0 ∧ s2.cache.Empty := settle_guards h.wellFormed h1 h2
  have hcovers := h.guards hsettled
  cases h3
  refine ⟨hcovers.wellFormed, hcovers.jumps, ?_, ?_, ?_⟩
  · intro inside place hl
    rcases eq_or_of_getElem?_setIfInBounds hl with rfl | hl
    · exact Nat.le_refl _
    · exact hcovers.placed hl
  · intro inside place f hl hf
    rcases eq_or_of_getElem?_setIfInBounds hl with rfl | hl
    · dsimp only
      rw [← Array.length_toList, List.drop_length]
      trivial
    · exact hcovers.sound hl hf
  · intro inside place f f' hl hf hf'
    rcases eq_or_of_getElem?_setIfInBounds hl with rfl | hl
    · -- nothing is behind the new label yet, and code may come to it from any jump
      dsimp only at hf'
      rw [← Array.length_toList, List.drop_length] at hf'
      cases hf'
      obtain ⟨m', hleads, halike⟩ := hf
      refine ⟨{ machine := m', ops := source.ops, pc := 0 }, ?_, hleads hopens⟩
      dsimp only
      rw [hlag]
      exact HostProgram.Mirrors.stands ⟨{ halike with
        regs := hempty.holds_iff.mpr halike.regs, entries := fun hx => hx.elim },
        fun hx => hx.elim, Retags.refl _⟩ fun hx => hx.elim
    · exact hcovers.reaches hl hf hf'

theorem openAt_covers {o : Op} {u : Unit} (h : Covers source m s (source.Leads m index))
    (ho : source.ops[index]? = some o) (hl : openAt index o s = .ok u s') :
    Covers source m s' (source.Leads m index) := by
  unfold openAt at hl
  split at hl
  · rename_i hopens
    refine label_covers h ?_ hl
    rcases Bool.or_eq_true_iff.mp hopens with h0 | hsync
    · exact .inl (by simpa using h0)
    · exact .inr ⟨o, ho, hsync⟩
  · cases hl
    exact h

/-- Instruction by instruction, to the end of the block. -/
theorem lowerFrom_covers (hskips : source.SkipsNops) {fuel : Nat}
    (h : Covers source m s (source.Leads m index))
    (hl : lowerFrom source fuel index s = .ok () s') :
    ∃ last, Covers source m s' (source.Leads m last) := by
  induction fuel generalizing index s with
  | zero =>
    cases hl
    exact ⟨index, h⟩
  | succ fuel ih =>
    unfold lowerFrom at hl
    cases ho : source.ops[index]? with
    | none =>
      rw [ho] at hl
      cases hl
      exact ⟨index, h⟩
    | some o =>
      rw [ho] at hl
      obtain ⟨_, s1, h1, hl⟩ := bind_ok hl
      obtain ⟨next, s2, h2, hl⟩ := bind_ok hl
      obtain ⟨_, s3, h3, hl⟩ := bind_ok hl
      obtain ⟨_, s4, h4, hl⟩ := bind_ok hl
      rw [checkSize_ok h4] at hl
      have hopened := openAt_covers h ho h1
      have hran := hopened.guards (lowerOp_guards hskips hopened.wellFormed ho h2)
      exact ih (hran.guards (releaseLocks_guards hran.wellFormed h3)) hl

/-! ## Patching -/

section Patching

omit [Device δ] [Coprocessor κ]

/-- The place is that of a label, if there is one. -/
def IsLabel (labels : Array (Option Nat)) (target : Option Nat) : Prop :=
  ∀ ⦃label : Nat⦄, target = some label → ∃ inside : Nat, labels[inside]? = some (some label)

theorem isLabel_none (labels : Array (Option Nat)) : IsLabel labels none := by
  intro label h
  cases h

theorem isLabel_join (labels : Array (Option Nat)) (inside : Nat) :
    IsLabel labels (labels[inside]?).join :=
  fun _ h => ⟨inside, Option.join_eq_some_iff.mp h⟩

variable {labels : Array (Option Nat)} {fixups : List (Nat × Nat)} {program : Array HostOp}
  {place inside : Nat} {op : HostOp} {target target' : Option Nat}

/-- Patching twice gives one of the two places. -/
theorem exists_patchOp_patchOp (hl : IsLabel labels target) (hl' : IsLabel labels target') :
    ∃ target'', IsLabel labels target'' ∧
      patchOp target' (patchOp target op) = patchOp target'' op := by
  cases op with
  | jump | jumpIf =>
    cases target with
    | none => exact ⟨none, hl, rfl⟩
    | some label => exact ⟨target', hl', rfl⟩
  | _ =>
    exact ⟨target', hl', rfl⟩

theorem exists_patch (hl : IsLabel labels target) (hop : program[place]? = some (patchOp target op))
    (fixup : Nat × Nat) :
    ∃ target', IsLabel labels target' ∧
      (patch labels program fixup)[place]? = some (patchOp target' op) := by
  rw [patch, Array.getElem?_modify]
  split
  · rw [hop]
    obtain ⟨target', hl', heq⟩ := exists_patchOp_patchOp hl (isLabel_join labels fixup.2)
    exact ⟨target', hl', congrArg some heq⟩
  · exact ⟨target, hl, hop⟩

/-- What was patched once stays patched. -/
theorem exists_foldl_patch (hl : IsLabel labels target)
    (hop : program[place]? = some (patchOp target op)) :
    ∃ target', IsLabel labels target' ∧
      (fixups.foldl (patch labels) program)[place]? = some (patchOp target' op) := by
  induction fixups generalizing program target with
  | nil => exact ⟨target, hl, hop⟩
  | cons fixup fixups ih =>
    obtain ⟨target', hl', hop'⟩ := exists_patch hl hop fixup
    exact ih hl' hop'

/-- An operation with a fixup is given the place of a label, or none. -/
theorem exists_foldl_patch_of_mem (hmem : (place, inside) ∈ fixups)
    (hop : program[place]? = some op) :
    ∃ target, IsLabel labels target ∧
      (fixups.foldl (patch labels) program)[place]? = some (patchOp target op) := by
  induction fixups generalizing program with
  | nil => cases hmem
  | cons fixup fixups ih =>
    have hpatched : (patch labels program fixup)[place]? =
        if fixup.1 = place then some (patchOp (labels[fixup.2]?).join op) else some op := by
      rw [patch, Array.getElem?_modify, hop]
      rfl
    by_cases hplace : fixup.1 = place
    · rw [if_pos hplace] at hpatched
      rw [List.foldl_cons]
      exact exists_foldl_patch (isLabel_join labels fixup.2) hpatched
    · rw [if_neg hplace] at hpatched
      rcases List.mem_cons.mp hmem with rfl | hmem
      · exact absurd rfl hplace
      · exact ih hmem hpatched

theorem exists_label_of_mem_entries {offset : Nat} (h : (offset, place) ∈ (entries labels).toList) :
    ∃ inside : Nat, labels[inside]? = some (some place) := by
  simp only [entries, Array.toList_filterMap, Array.toList_mapIdx, List.mem_filterMap,
    List.mem_mapIdx, Array.length_toList, Array.getElem_toList] at h
  obtain ⟨_, ⟨k, hk, rfl⟩, h⟩ := h
  obtain ⟨place', hplace, hpair⟩ := Option.map_eq_some_iff.mp h
  cases hpair
  exact ⟨k, by rw [Array.getElem?_eq_getElem hk]; exact congrArg some hplace⟩

end Patching

/-! ## Running -/

/-- The program is what patching makes of the code in `s`. -/
structure Patches (source : BlockSource) (s : Lowering) (p : HostProgram) : Prop where
  pc : p.pc = source.pc
  ops : p.ops = s.fixups.toList.foldl (patch s.labels) s.program
  entries : p.entries = entries s.labels

variable {p : HostProgram} {f f' : Frame δ κ}

/-- The operation at a place before patching. -/
theorem Covers.exists_op (h : Covers source m s P) (hp : Patches source s p) {place : Nat}
    {op' : HostOp} (hop' : p.ops[place]? = some op') :
    ∃ op target, op' = patchOp target op ∧ IsLabel s.labels target ∧
      s.program.toList.drop place = op :: s.program.toList.drop (place + 1) := by
  rw [hp.ops] at hop'
  have hlt := (Array.getElem?_eq_some_iff.mp hop').1
  rw [size_foldl_patch] at hlt
  have hop := Array.getElem?_eq_getElem hlt
  have hdrop : s.program.toList.drop place =
      s.program[place] :: s.program.toList.drop (place + 1) := by
    rw [List.drop_eq_getElem_cons (by simpa using hlt), Array.getElem_toList]
  by_cases hs : s.program[place].IsStraight
  · rw [foldl_patch_of_isStraight s.labels hop hs] at hop'
    cases hop'
    exact ⟨_, none, (patchOp_of_isStraight hs none).symm, isLabel_none _, hdrop⟩
  · obtain ⟨inside, hmem⟩ := h.jumps (Array.getElem?_toList.trans hop) hs
    obtain ⟨target, hlabel, htarget⟩ : ∃ target, IsLabel s.labels target ∧
        (s.fixups.toList.foldl (patch s.labels) s.program)[place]? =
          some (patchOp target s.program[place]) :=
      exists_foldl_patch_of_mem (Array.mem_toList_iff.mpr hmem) hop
    cases hop'.symm.trans htarget
    exact ⟨_, target, rfl, hlabel, hdrop⟩

/-- A patched jump goes to its place, or on as it would without one. -/
theorem perform_patchOp {pc : UInt32} {op : HostOp} {target : Option Nat} (hs : ¬op.IsStraight)
    (h : perform pc f (patchOp target op) = .running f') :
    (target = some f'.place ∧ f'.machine = f.machine) ∨
      (f'.place = f.place + 1 ∧ perform pc f op = .running f') := by
  have hjump {label : Nat} {next : UInt32} (h : f.jump label next = .running f') :
      some label = some f'.place ∧ f'.machine = f.machine := by
    unfold Frame.jump at h
    split at h
    · cases h
    · cases h
      exact ⟨rfl, rfl⟩
  cases op with
  | jump label next =>
    cases target with
    | none => cases h
    | some label' => exact .inl (hjump h)
  | jumpIf label next =>
    cases target with
    | none =>
      simp only [patchOp, perform] at h ⊢
      split at h
      · cases h
      · rename_i hcond
        rw [if_neg hcond]
        cases h
        exact .inr ⟨rfl, rfl⟩
    | some label' =>
      simp only [patchOp, perform] at h ⊢
      split at h
      · exact .inl (hjump h)
      · rename_i hcond
        rw [if_neg hcond]
        cases h
        exact .inr ⟨rfl, rfl⟩
  | _ =>
    exact absurd trivial hs

/-- One step of the program from sound code leads to sound code. -/
theorem Covers.step (h : Covers source m s P) (hp : Patches source s p)
    (hf : Sound source m (s.program.toList.drop f.place) f) (hstep : p.step f = .running f') :
    Sound source m (s.program.toList.drop f'.place) f' := by
  unfold HostProgram.step at hstep
  split at hstep
  · cases hstep
  · rename_i op' hop'
    obtain ⟨op, target, rfl, hlabel, hdrop⟩ := h.exists_op hp hop'
    rw [hdrop] at hf
    obtain ⟨-, hjump, hnext⟩ := hf
    rw [hp.pc] at hstep
    by_cases hs : op.IsStraight
    · rw [patchOp_of_isStraight hs] at hstep
      rw [HostProgram.place_perform hs hstep]
      exact hnext hstep
    · -- a jump leads to a label, or on
      rcases perform_patchOp hs hstep with ⟨hplace, hmachine⟩ | ⟨hplace, hstep⟩
      · obtain ⟨inside, hl⟩ := hlabel hplace
        obtain ⟨m', hleads, halike⟩ := hjump hs
        exact h.sound hl ⟨m', hleads, hmachine ▸ halike⟩
      · rw [hplace]
        exact hnext hstep

end Lowering

namespace HostProgram

open Lowering (Covers Patches start covers_start)

variable {source : BlockSource} {p : HostProgram} {cache : RegisterCache}

/-- Generated code is what patching makes of code that is sound behind each label. -/
theorem covers_of_generate (hskips : source.SkipsNops) (hw : cache.WellFormed)
    (h : (generate source cache).result = .ok p) (m : Machine δ κ) :
    ∃ s, Patches source s p ∧ Covers source m s fun _ => False := by
  unfold generate at h
  split at h
  · cases h
  · split at h
    · rename_i p' s' hblock
      cases h
      obtain ⟨_, s1, h1, h⟩ := bind_ok hblock
      obtain ⟨_, s2, h2, h3⟩ := bind_ok h
      cases h3
      obtain ⟨last, hcovers⟩ := Lowering.lowerFrom_covers (m := m) hskips (covers_start source m hw) h1
      refine ⟨s2, ⟨rfl, by simp, rfl⟩, hcovers.guards ?_⟩
      exact Lowering.exitWith_guards (fun _ => _) (by trivial) (by trivial) (fun _ => rfl)
        hcovers.wellFormed h2
    · cases h

/-- An access that a call makes is one of the guest: it has come to this load or store with the
machine and the values that the code has. -/
theorem accessAt_of_call (hskips : source.SkipsNops) (hw : cache.WellFormed)
    (h : (generate source cache).result = .ok p) {m : Machine δ κ} {b : Block} {n entry : Nat}
    {f : Frame δ κ} (hcall : p.call n entry m b = .running f) {place : Nat} {o : Op}
    {base : HostReg} {data dst : Option HostReg}
    (hop : p.ops[f.place]? = some (.memory place o base data dst)) :
    ∃ index m', place = index % 65536 ∧ AccessAt source m o base data f index m' := by
  obtain ⟨s, hp, hcovers⟩ := covers_of_generate hskips hw h m
  unfold call at hcall
  split at hcall
  · cases hcall
  · rename_i start hentry
    -- code is entered at a label, with the machine as it is
    have hmem := mem_entries_of_entryPoint? hentry
    rw [hp.entries] at hmem
    obtain ⟨inside, hlabel⟩ := Lowering.exists_label_of_mem_entries hmem
    have hsound : Sound source m (s.program.toList.drop f.place) f := by
      refine iterate_keeps (P := fun f => Sound source m (s.program.toList.drop f.place) f)
        (fun hf hstep => hcovers.step hp hf hstep) ?_ hcall
      exact hcovers.sound hlabel ⟨m, fun _ hopens => .enter hopens, .refl m⟩
    obtain ⟨op, target, hpatched, -, hdrop⟩ := hcovers.exists_op hp hop
    rw [hdrop] at hsound
    have hsame : op = .memory place o base data dst := by
      cases op with
      | jump | jumpIf => cases target <;> cases hpatched
      | _ =>
        exact hpatched.symm
    rw [hsame] at hsound
    exact hsound.1

/-- The code of a block, a call of it that still runs after `n` operations, and the operation it is in
front of. -/
def pausedAt? (source : BlockSource) (n entry : Nat) (m : Machine δ κ) (b : Block) :
    Option (Emitted × Frame δ κ × HostOp) :=
  match (({} : HostGenerator).compile source ({} : RegisterCache).reset).result with
  | .error _ => none
  | .ok emitted =>
    match emitted.program.call n entry m b with
    | .finished _ => none
    | .running f => emitted.program.ops[f.place]?.map fun op => (emitted, f, op)

theorem exists_of_pausedAt? {n entry : Nat} {m : Machine δ κ} {b : Block} {emitted : Emitted}
    {f : Frame δ κ} {op : HostOp} (h : pausedAt? source n entry m b = some (emitted, f, op)) :
    (({} : HostGenerator).compile source ({} : RegisterCache).reset).result = .ok emitted ∧
      emitted.program.call n entry m b = .running f ∧
      emitted.program.ops[f.place]? = some op := by
  unfold pausedAt? at h
  split at h
  · cases h
  · rename_i emitted' hcompile
    split at h
    · cases h
    · rename_i f' hcall
      obtain ⟨op', hop, heq⟩ := Option.map_eq_some_iff.mp h
      cases heq
      exact ⟨hcompile, hcall, hop⟩

end HostProgram

end Dynarec
