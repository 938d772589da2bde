/-
  Dynarec.Proofs.Execution

  Running a block of a program is running the guest.

  A guest that keeps to a program meets the same instructions whether they are
  fetched one by one or stand in a block. So a block that is interpreted, and
  code that is called in its place, end where the guest gets to, with a machine
  that guest code cannot tell apart from its own.
-/
import Dynarec.Proofs.Guest
import Dynarec.Proofs.Host.Refinement
import Dynarec.Proofs.Program

namespace Dynarec

variable {δ κ : Type}

theorem Machine.Changes.sameExcept {free : Prop} {m m' : Machine δ κ} (h : Changes free m m') :
    m.memory.SameExcept Memory.everywhere m'.memory := by
  induction h with
  | refl => exact .refl _ _
  | tail _ h ih =>
    refine ih.trans ?_
    cases h with
    | control hmemory => exact hmemory.mono fun h => h.elim
    | write _ hmemory => exact hmemory.mono fun _ => trivial
    | overwrite _ hmemory => exact hmemory
    | demote | invalidate | invalidateAll | mode => exact .refl _ _

variable [Device δ] [Coprocessor κ]

/-! ## Guests that keep to a program -/

/-- The guest fetches instructions from the addresses of a program only, at whole words, and never
changes them. None of them branches on the sign of a register and the register itself, and every
branch has a word behind it. -/
structure Guest.Behaves (p : Program δ) (g : Guest δ κ) : Prop where
  keeps : ∀ {g' : Guest δ κ}, g.Visits g' → ∀ {a : UInt32}, p.fetched a →
    g'.machine.memory.readWord a = p.memory.readWord a
  aligned : ∀ {g' : Guest δ κ}, g.Visits g' → g'.isRunning = true → g'.pc.toNat % 4 = 0
  fetched : ∀ {g' : Guest δ κ} {word : UInt32}, g.Visits g' → g'.isRunning = true →
    g'.machine.memory.readWord g'.pc = .ok word → p.fetched g'.pc
  decided : ∀ {g' : Guest δ κ} {word : UInt32}, g.Visits g' → g'.isRunning = true →
    g'.machine.memory.readWord g'.pc = .ok word → Interpreter.isSelfLez { word } = false
  slot : ∀ {g' : Guest δ κ} {word : UInt32}, g.Visits g' → g'.isRunning = true →
    g'.machine.memory.readWord g'.pc = .ok word → Instruction.hasDelaySlot { word } = true →
      p.memory.layout.GoesOn g'.pc

/-- Such a guest while it runs, with zero in register zero. -/
structure Guest.Executes (p : Program δ) (g : Guest δ κ) : Prop where
  behaves : g.Behaves p
  running : g.isRunning = true
  zero : g.machine.regs.get 0 = 0
  same : p.memory.SameExcept Memory.everywhere g.machine.memory

namespace Guest.Executes

variable {p : Program δ} {g g' : Guest δ κ}

theorem holds (h : g.Executes p) : p.In g.machine.memory :=
  ⟨h.same, h.behaves.keeps (.refl g)⟩

theorem holds_of_visits (h : g.Executes p) (hv : g.Visits g') : p.In g'.machine.memory :=
  ⟨h.same.trans hv.changes.sameExcept, h.behaves.keeps hv⟩

theorem visits (h : g.Executes p) (hv : g.Visits g') (hrunning : g'.isRunning = true) :
    g'.Executes p where
  behaves :=
    { keeps := fun hv' => h.behaves.keeps (hv.trans hv')
      aligned := fun hv' => h.behaves.aligned (hv.trans hv')
      fetched := fun hv' => h.behaves.fetched (hv.trans hv')
      decided := fun hv' => h.behaves.decided (hv.trans hv')
      slot := fun hv' => h.behaves.slot (hv.trans hv') }
  running := hrunning
  zero := hv.get_zero.trans h.zero
  same := h.same.trans hv.changes.sameExcept

theorem alike (h : g.Executes p) (hgh : g.Alike g') : g'.Executes p := by
  -- whatever the one guest meets, the other one has met
  have hback : ∀ {g''}, g'.Visits g'' → ∃ h', g.Visits h' ∧ h'.isRunning = g''.isRunning ∧
      h'.pc = g''.pc ∧ h'.machine.memory = g''.machine.memory := by
    intro g'' hv
    obtain ⟨h', hv', hh'⟩ := hv.alike hgh.symm
    exact ⟨h', hv', hh'.isRunning.symm, hh'.pc.symm, hh'.machine.memory.symm⟩
  refine ⟨⟨?_, ?_, ?_, ?_, ?_⟩, hgh.isRunning ▸ h.running, ?_, hgh.machine.memory ▸ h.same⟩
  · intro g'' hv a ha
    obtain ⟨h', hv', -, -, hmemory⟩ := hback hv
    exact hmemory ▸ h.behaves.keeps hv' ha
  · intro g'' hv hrunning
    obtain ⟨h', hv', hrun, hpc, -⟩ := hback hv
    exact hpc ▸ h.behaves.aligned hv' (hrun.trans hrunning)
  · intro g'' word hv hrunning hread
    obtain ⟨h', hv', hrun, hpc, hmemory⟩ := hback hv
    rw [← hpc, ← hmemory] at hread
    exact hpc ▸ h.behaves.fetched hv' (hrun.trans hrunning) hread
  · intro g'' word hv hrunning hread
    obtain ⟨h', hv', hrun, hpc, hmemory⟩ := hback hv
    rw [← hpc, ← hmemory] at hread
    exact h.behaves.decided hv' (hrun.trans hrunning) hread
  · intro g'' word hv hrunning hread hslot
    obtain ⟨h', hv', hrun, hpc, hmemory⟩ := hback hv
    rw [← hpc, ← hmemory] at hread
    exact hpc ▸ h.behaves.slot hv' (hrun.trans hrunning) hread hslot
  · rw [← hgh.machine.regs]
    exact h.zero

end Guest.Executes

/-- The guest gets to `next` with no branch pending, and a machine like `m` then. -/
def Guest.Gets (g : Guest δ κ) (next : UInt32) (m : Machine δ κ) : Prop :=
  ∃ g' : Guest δ κ, g.Visits g' ∧ g'.pending = none ∧ g'.pc = next ∧ m.Alike g'.machine

namespace Guest

variable {g g' : Guest δ κ} {pc next : UInt32} {m m' : Machine δ κ}

theorem Visits.gets (hv : g.Visits g') (h : g'.Gets next m) : g.Gets next m := by
  obtain ⟨g'', hv', hg''⟩ := h
  exact ⟨g'', hv.trans hv', hg''⟩

/-- Where it gets depends on what guest code can tell apart only. -/
theorem Gets.alike (h : g.Gets next m) (hgh : g.Alike g') (hm : m'.Alike m) : g'.Gets next m' := by
  obtain ⟨h', hv, hpending, hpc, halike⟩ := h
  obtain ⟨g'', hv'', hg''⟩ := hv.alike hgh
  exact ⟨g'', hv'', hg''.pending ▸ hpending, hg''.pc ▸ hpc, hm.trans (halike.trans hg''.machine)⟩

theorem Gets.trans (h : g.Gets pc m) (h' : Gets { machine := m, pc } next m') : g.Gets next m' := by
  obtain ⟨g', hv, hpending, rfl, halike⟩ := h
  exact hv.gets (h'.alike ⟨halike, rfl, hpending.symm⟩ (.refl m'))

theorem Executes.gets {p : Program δ} (hg : g.Executes p) (h : g.Gets pc m)
    (hrunning : m.clock.exit.isNormal = true) : Executes p { machine := m, pc } := by
  obtain ⟨g', hv, hpending, rfl, halike⟩ := h
  refine (hg.visits hv ?_).alike ⟨halike.symm, rfl, hpending⟩
  unfold isRunning
  rw [← halike.exit]
  exact hrunning

end Guest

namespace Interpreter

variable {m : Machine δ κ}

/-- Only a branch is taken. -/
theorem hasDelaySlot_of_execute {i : Instruction} {pc target : UInt32}
    (h : (execute m i pc).step = .branch target) : i.hasDelaySlot = true := by
  rw [Instruction.hasDelaySlot_eq]
  rw [execute_eq] at h
  unfold executeOperation at h
  cases hop : i.operation with
  | jumpRegister | jumpLinkRegister | jump | jumpLink | branch => rfl
  | copWrite control =>
    rw [hop] at h
    dsimp only at h
    split at h
    · cases h
    · cases h
  | memory access =>
    rw [hop] at h
    dsimp only [executeAccess] at h
    split at h
    · cases h
    · split at h
      · cases h
      · cases h
  | _ =>
    rw [hop] at h
    cases h

omit [Device δ] [Coprocessor κ] in
theorem opWords_ran (c : Cursor δ κ) (index : Nat) (e : Executed δ κ) :
    opWords (c.ran index e).ops = opWords c.ops :=
  (annotates_tagAccess 0 c.ops c.tagged index e.access).opWords_eq

omit [Device δ] [Coprocessor κ] in
/-- The guest that runs a block. -/
def Cursor.guest (c : Cursor δ κ) : Guest δ κ where
  machine := c.machine
  pc := c.pc
  pending := c.pending

/-! ## One instruction -/

variable {p : Program δ} {maxOps : Nat} {base : UInt32} {words : List UInt32} {c c' : Cursor δ κ}
  {index : Nat}

/-- The instruction at which the cursor stands is the one that the guest fetches. -/
theorem fetch_guest (hp : p.WellFormed) (hreads : p.Reads maxOps base words) (hops : opWords c.ops = words)
    (hg : c.guest.Executes p) (hindex : indexIn? base c.ops.size c.pc = some index) :
    ∃ word, words[index]? = some word ∧ (c.ops.getD index default).instr = { word } ∧
      c.machine.memory.readWord c.pc = .ok word ∧ c.guest.step = c.guest.after (c.effect index) := by
  obtain ⟨hlt, hpc, -⟩ := address_of_indexIn? hindex
  have hget : c.ops[index]? = some (c.ops.getD index default) := by
    simp [Array.getD_eq_getD_getElem?, hlt]
  have hword : words[index]? = some (c.ops.getD index default).instr.word := by
    rw [← hops, opWords, List.getElem?_map, Array.getElem?_toList, hget, Option.map_some]
  obtain ⟨hfetched, hread⟩ := hreads.word hp hword
  rw [← hpc] at hfetched hread
  have hnow := (hg.holds.word hfetched).trans hread
  exact ⟨_, hword, rfl, hnow, Guest.step_of_readWord hnow⟩

/-- An iteration that goes on is a step of the guest. -/
theorem step_guest (ht : KeepsTime δ κ) (hp : p.WellFormed) (hreads : p.Reads maxOps base words)
    (hops : opWords c.ops = words) (hg : c.guest.Executes p)
    (hstep : stepFreely base c = .running c') :
    c'.guest = c.guest.step ∧ opWords c'.ops = words ∧ c'.guest.isRunning = true := by
  unfold stepFreely at hstep
  cases hindex : indexIn? base c.ops.size c.pc with
  | none =>
    rw [hindex] at hstep
    cases hpending : c.pending with
    | none =>
      rw [hpending] at hstep
      cases hstep
    | some target =>
      rw [hpending] at hstep
      cases hstep
  | some index =>
    -- the guest fetches the same word
    obtain ⟨word, -, hinstr, -, hguest⟩ := fetch_guest hp hreads hops hg hindex
    have heffect : c.effect index = c.guest.effect word := by
      rw [Cursor.effect, hinstr]
      rfl
    have hrunning := heffect ▸ @Guest.isRunning_effect _ _ _ _ ht _ hg.running word
    have hwords := (opWords_ran c index (c.effect index)).trans hops
    rw [hindex] at hstep
    dsimp only at hstep
    unfold Guest.after at hguest
    cases hcontrol : (c.effect index).step with
    | exit next =>
      rw [hcontrol] at hstep
      cases hstep
    | branch target =>
      rw [hcontrol] at hstep hguest hrunning
      cases hstep
      exact ⟨hguest.symm, hwords, hrunning fun _ hexit => by cases hexit⟩
    | next =>
      rw [hcontrol] at hstep hguest hrunning
      cases hstep
      exact ⟨hguest.symm, hwords, hrunning fun _ hexit => by cases hexit⟩

/-- An instruction that leaves guest code leaves the guest where it goes on. -/
theorem gets_of_exit (hp : p.WellFormed) (hreads : p.Reads maxOps base words) (hops : opWords c.ops = words)
    (hg : c.guest.Executes p) (hindex : indexIn? base c.ops.size c.pc = some index) {next : UInt32}
    (hstep : (c.effect index).step = .exit next)
    (hm : m.Alike (c.effect index).machine) : c.guest.Gets next m := by
  obtain ⟨word, -, -, -, hguest⟩ := fetch_guest hp hreads hops hg hindex
  rw [Guest.after, hstep] at hguest
  exact ⟨_, .step hg.running, by rw [hguest], by rw [hguest], by rw [hguest]; exact hm⟩

/-- A branch of the block has its delay slot there. -/
theorem slot_lt_length (hp : p.WellFormed) (hreads : p.Reads maxOps base words) (hops : opWords c.ops = words)
    (hg : c.guest.Executes p) (hindex : indexIn? base c.ops.size c.pc = some index)
    (hslot : (c.ops.getD index default).instr.hasDelaySlot = true) : index + 1 < c.ops.size := by
  obtain ⟨word, hword, hinstr, hread, -⟩ := fetch_guest hp hreads hops hg hindex
  have hgoes := hg.behaves.slot (.refl _) hg.running hread (hinstr ▸ hslot)
  rw [show c.guest.pc = _ from (address_of_indexIn? hindex).2.1] at hgoes
  have hlt := hreads.slot hp hword (hinstr ▸ hslot) hgoes
  rwa [← hops, length_opWords] at hlt

/-! ## Interpreting a block -/

/-- Where a branch is pending, the cursor stands behind it in the block. -/
def Cursor.InSlot (base : UInt32) (c : Cursor δ κ) : Prop :=
  c.pending ≠ none → ∃ index, indexIn? base c.ops.size c.pc = some (index + 1) ∧
    (c.ops.getD index default).instr.hasDelaySlot = true

omit [Device δ] [Coprocessor κ] in
/-- No branch is taken in the delay slot of another. -/
theorem pending_eq_none (hp : p.WellFormed) (hreads : p.Reads maxOps base words)
    (hops : opWords c.ops = words) (hslot : c.InSlot base)
    (hindex : indexIn? base c.ops.size c.pc = some index)
    (hbranch : (c.ops.getD index default).instr.hasDelaySlot = true) : c.pending = none := by
  apply Decidable.byContradiction
  intro hpending
  obtain ⟨before, hindex', hbefore⟩ := hslot hpending
  cases hindex.symm.trans hindex'
  have hlt := (address_of_indexIn? hindex).1
  have hword : ∀ {i}, i < c.ops.size → words[i]? = some (c.ops.getD i default).instr.word := by
    intro i hi
    rw [← hops, opWords, List.getElem?_map, Array.getElem?_toList, Array.getD_eq_getD_getElem?,
      Array.getElem?_eq_getElem hi]
    rfl
  obtain ⟨hfetched, hread⟩ := hreads.word hp (hword (i := before) (by omega))
  obtain ⟨hfetched', hread'⟩ := hreads.word hp (hword hlt)
  rw [← address_succ] at hfetched' hread'
  rw [show Instruction.hasDelaySlot _ = false from
    hp.parted hfetched hfetched' hread hread' hbefore] at hbranch
  cases hbranch

theorem inSlot_step (hp : p.WellFormed) (hreads : p.Reads maxOps base words) (hmost : words.length ≤ 65535)
    (hops : opWords c.ops = words) (hg : c.guest.Executes p) (hslot : c.InSlot base)
    (hstep : stepFreely base c = .running c') : c'.InSlot base := by
  intro hpending
  unfold stepFreely at hstep
  cases hindex : indexIn? base c.ops.size c.pc with
  | none =>
    rw [hindex] at hstep
    cases hp : c.pending with
    | none =>
      rw [hp] at hstep
      cases hstep
    | some target =>
      rw [hp] at hstep
      cases hstep
  | some index =>
    rw [hindex] at hstep
    dsimp only at hstep
    cases hcontrol : (c.effect index).step with
    | exit next =>
      rw [hcontrol] at hstep
      cases hstep
    | next =>
      rw [hcontrol] at hstep
      cases hstep
      exact absurd rfl hpending
    | branch target =>
      rw [hcontrol] at hstep
      -- only a branch leaves something pending, and it has its slot in the block
      have hbranch := hasDelaySlot_of_execute hcontrol
      have hnone := pending_eq_none hp hreads hops hslot hindex hbranch
      have hlt := slot_lt_length hp hreads hops hg hindex hbranch
      have hpc := (address_of_indexIn? hindex).2.1
      have hsize : c.ops.size ≤ 65535 := by rwa [← hops, length_opWords] at hmost
      cases hstep
      refine ⟨index, ?_, ?_⟩
      · rw [hnone, Option.getD_none, size_ops_ran, hpc, address_succ]
        exact indexIn?_address base hlt (by omega)
      · have hsame := (retags_tagAccess (Retags.refl c.ops) c.tagged index
          (c.effect index).access).instr index
        exact (congrArg Instruction.hasDelaySlot hsame).trans hbranch

/-- Interpreting a block of the program is running the guest. -/
theorem gets_of_iterate (ht : KeepsTime δ κ) (hp : p.WellFormed) (hreads : p.Reads maxOps base words)
    (hmost : words.length ≤ 65535) {fuel : Nat} (hops : opWords c.ops = words)
    (hg : c.guest.Executes p) (hslot : c.InSlot base) {o : Outcome δ κ}
    (hrun : iterate (step base) fuel c = .finished o) : c.guest.Gets o.next o.machine := by
  -- by the steps that are left; the delay slot of a taken branch is always in the block
  induction fuel generalizing c with
  | zero => cases hrun
  | succ fuel ih =>
    rw [iterate_succ, step_eq_stepFreely] at hrun
    cases hstep : stepFreely base c with
    | running c' =>
      rw [hstep] at hrun
      dsimp only at hrun
      obtain ⟨hguest, hops', hrunning⟩ := step_guest ht hp hreads hops hg hstep
      have hvisits : c.guest.Visits c'.guest := hguest ▸ .step hg.running
      by_cases hback : (jumpsBack base c c' && c'.machine.clock.shouldStop) = true
      · rw [if_pos hback] at hrun
        -- a jump back that stops is not the one of a delay slot
        have hpending : c'.pending = none := by
          have hjump := (Bool.and_eq_true_iff.mp hback).1
          unfold jumpsBack at hjump
          split at hjump
          · assumption
          · cases hjump
        cases hrun
        exact ⟨c'.guest, hvisits, hpending, rfl, .refl _⟩
      · rw [if_neg hback] at hrun
        exact hvisits.gets (ih hops' (hg.visits hvisits hrunning)
          (inSlot_step hp hreads hmost hops hg hslot hstep) hrun)
    | finished o' =>
      rw [hstep] at hrun
      cases hrun
      unfold stepFreely at hstep
      cases hindex : indexIn? base c.ops.size c.pc with
      | none =>
        -- the run has left the block, with no branch pending by `InSlot`
        have hnone : c.pending = none := by
          apply Decidable.byContradiction
          intro hpending
          obtain ⟨_, hindex', -⟩ := hslot hpending
          cases hindex.symm.trans hindex'
        rw [hindex, hnone] at hstep
        cases hstep
        exact ⟨c.guest, .refl _, hnone, rfl, .refl _⟩
      | some index =>
        rw [hindex] at hstep
        dsimp only at hstep
        cases hcontrol : (c.effect index).step with
        | exit next =>
          rw [hcontrol] at hstep
          cases hstep
          exact gets_of_exit hp hreads hops hg hindex hcontrol (.refl _)
        | branch target =>
          rw [hcontrol] at hstep
          cases hstep
        | next =>
          rw [hcontrol] at hstep
          cases hstep

/-- A block of the program is interpreted as the guest runs it, with the instructions it has or those
decoded again. -/
theorem gets_of_emulate (ht : KeepsTime δ κ) (hp : p.WellFormed) {b : Block}
    (hreads : p.Reads maxOps b.pc b.words) (hcount : b.opCount = b.words.length)
    (hmost : b.words.length ≤ 65535) (hops : ∀ {ops}, b.ops = some ops → opWords ops = b.words)
    (hg : Guest.Executes p { machine := m, pc := b.pc }) {fuel : Nat} {r : Emulated δ κ}
    (h : emulate fuel m b b.pc = .finished r) :
    Guest.Gets { machine := m, pc := b.pc } r.next r.machine := by
  have hstart : b.pc + ((b.pc - b.pc) >>> (2 : UInt32)).toNat.toUInt32 * 4 = b.pc := by
    rw [UInt32.sub_self]
    exact UInt32.add_zero b.pc
  -- Whatever instructions are run, they have the words of the block.
  have hruns : ∀ {ops o}, opWords ops = b.words →
      run fuel m b.pc ops ((b.pc - b.pc) >>> (2 : UInt32)).toNat = .finished o →
      Guest.Gets { machine := m, pc := b.pc } o.next o.machine := by
    intro ops o hwords hrun
    unfold run at hrun
    rw [hstart] at hrun
    exact gets_of_iterate (c := { machine := m, ops, pc := b.pc }) ht hp hreads hmost hwords hg
      (fun h => absurd rfl h) hrun
  unfold emulate at h
  dsimp only at h
  cases hsome : b.ops with
  | some ops =>
    rw [hsome] at h
    dsimp only at h
    split at h
    · cases h
    · rename_i o hrun
      have hgets := hruns (hops hsome) hrun
      split at h
      · obtain ⟨g', hv, hpending, hpc, halike⟩ := hgets
        cases h
        exact ⟨g', hv, hpending, hpc,
          (Machine.alike_withEntries _ _ _).symm.trans halike⟩
      · cases h
        exact hgets
  | none =>
    obtain ⟨ops, hdecode, hwords⟩ := hreads.decode_again hp hg.holds
    rw [hsome, hcount] at h
    dsimp only at h
    rw [show Block.decode m.memory b.pc b.words.length = .ok ops from hdecode] at h
    dsimp only at h
    split at h
    · cases h
    · rename_i o hrun
      cases h
      exact hruns hwords hrun

end Interpreter

/-! ## Calling code of a block -/

namespace HostProgram

open Interpreter (Cursor)

variable {p : Program δ} {maxOps : Nat} {σ : Site δ κ} {words : List UInt32} {path : List Nat}
  {c c' : Cursor δ κ}

/-- The instructions that code stands for are those that the guest runs. -/
theorem Path.visits (ht : KeepsTime δ κ) (hp : p.WellFormed) (hreads : p.Reads maxOps σ.source.pc words)
    (hops : opWords c.ops = words) (hg : c.guest.Executes p) (h : Path σ path c c') :
    c.guest.Visits c'.guest ∧ c'.guest.Executes p ∧ opWords c'.ops = words := by
  induction path generalizing c with
  | nil =>
    cases h
    exact ⟨.refl _, hg, hops⟩
  | cons index path ih =>
    obtain ⟨d, ⟨hindex, hclipped, -, -⟩, hrest⟩ := h
    obtain ⟨word, -, hinstr, hread, -⟩ := Interpreter.fetch_guest hp hreads hops hg hindex
    -- branches of the program have their delay slots and are taken where code takes them
    have hself : Interpreter.isSelfLez (c.ops.getD index default).instr = false := by
      rw [hinstr, hg.behaves.decided (.refl _) hg.running hread]
    have hstep : Interpreter.stepFreely σ.source.pc c = .running d := by
      rw [← hclipped]
      refine (Interpreter.stepClipped_eq_stepFreely hindex (fun hi => ?_) hself hg.zero).symm
      have hlt := Interpreter.slot_lt_length hp hreads hops hg hindex hi
      omega
    obtain ⟨hguest, hops', hrunning⟩ := Interpreter.step_guest ht hp hreads hops hg hstep
    have hvisits : c.guest.Visits d.guest := hguest ▸ .step hg.running
    obtain ⟨hrest, hg', hops''⟩ := ih hops' (hg.visits hvisits hrunning) hrest
    exact ⟨hvisits.trans hrest, hg', hops''⟩

/-- Where code comes back, the guest gets to. -/
theorem Reaches.gets (ht : KeepsTime δ κ) (hp : p.WellFormed) (hreads : p.Reads maxOps σ.source.pc words)
    (hops : opWords c.ops = words) (hg : c.guest.Executes p) {r : Returned δ κ}
    (h : Reaches σ path c r) : c.guest.Gets r.next r.machine := by
  cases h with
  | arrives hpath hpending hend =>
    obtain ⟨hvisits, -⟩ := hpath.visits ht hp hreads hops hg
    exact ⟨_, hvisits, hpending, hend.next.symm, { hend.agrees with entries := trivial }⟩
  | exits hpath hindex hstep hend =>
    obtain ⟨hvisits, hg', hops'⟩ := hpath.visits ht hp hreads hops hg
    refine hvisits.gets (Interpreter.gets_of_exit hp hreads hops' hg' hindex ?_ ?_)
    · rw [hstep, hend.next]
    · exact { hend.agrees with entries := trivial }

/-- Code made from a block of the program does what the guest does from where it is entered. -/
theorem gets_of_call (ht : KeepsTime δ κ) (hp : p.WellFormed) {b : Block}
    (hreads : p.Reads maxOps b.pc b.words) {source : BlockSource} (hsource : b.IsSource source)
    {cache : RegisterCache} (hcache : cache.WellFormed) {program : HostProgram}
    (hgenerate : (generate source cache).result = .ok program) {offset : Nat}
    (hoffset : offset = 0 ∨ offset ∈ program.targets) {m : Machine δ κ}
    (hg : Guest.Executes p { machine := m, pc := b.pc + offset.toUInt32 * 4 }) {fuel : Nat}
    {r : Returned δ κ} (hcall : program.call fuel offset m b = .finished r) :
    Guest.Gets { machine := m, pc := b.pc + offset.toUInt32 * 4 } r.next r.machine := by
  let σ : Site δ κ := { block := b, source, exact := False }
  obtain ⟨path, hreach, -⟩ := explains_call (σ := σ) hsource.faithful hcache hgenerate hoffset
    (fun h => h.elim) (fun h => h.elim) hcall
  have hpc : σ.address offset = b.pc + offset.toUInt32 * 4 := by
    rw [Site.address, hsource.pc]
  rw [hpc] at hreach
  have hreads' : p.Reads maxOps σ.source.pc b.words := by
    rw [hsource.pc]
    exact hreads
  exact Reaches.gets (c := { machine := m, ops := source.ops, pc := _ }) ht hp hreads' hsource.words
    hg hreach

end HostProgram

end Dynarec
