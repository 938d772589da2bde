/-
  Dynarec.Proofs.Engine.Progress

  Every dispatch gets somewhere, but for one case.

  An instruction is charged before it is run, so whatever runs instructions
  moves the clock. Code and interpreter both run at least one, and no more than
  their loops have rounds for. The exception is code that is entered at a
  branch with another branch in its delay slot: it leaves that to the
  interpreter and comes back at once, and the next dispatch enters it again.
-/
import Dynarec.Proofs.Engine.Tables
import Dynarec.Proofs.Execution

namespace Dynarec

variable {δ κ γ : Type}

/-! ## Cycles -/

/-- The cycles of `n` instructions have passed. -/
def Machine.Charges (n : Nat) (m m' : Machine δ κ) : Prop :=
  m'.clock.current = m.clock.current + n.toUInt32 * Interpreter.cyclesPerOp

namespace Machine.Charges

variable {m m' m'' : Machine δ κ} {k n : Nat}

theorem zero (h : m'.clock.current = m.clock.current) : Charges 0 m m' := by
  rw [Charges, h]
  exact (UInt32.add_zero _).symm

theorem trans (h1 : Charges k m m') (h2 : Charges n m' m'') : Charges (k + n) m m'' := by
  rw [Charges, h2, h1, Interpreter.toUInt32_add, UInt32.add_mul, UInt32.add_assoc]

/-- Fewer than half of all cycle counts are told apart. -/
theorem ne_of_lt (h : Charges n m m') (hpos : 0 < n) (hlt : n < 2 ^ 31) :
    m'.clock.current ≠ m.clock.current := by
  intro heq
  have hn : n.toUInt32.toNat = n := UInt32.toNat_ofNat_of_lt' (by
    rw [UInt32.size]
    omega)
  have hcycles : (n.toUInt32 * Interpreter.cyclesPerOp).toNat = n * 2 := by
    rw [UInt32.toNat_mul, hn]
    exact Nat.mod_eq_of_lt (by
      show n * 2 < 2 ^ 32
      omega)
  have hnat := congrArg UInt32.toNat (h.symm.trans heq)
  rw [UInt32.toNat_add, hcycles] at hnat
  have := m.clock.current.toNat_lt
  omega

end Machine.Charges

variable [Device δ] [Coprocessor κ]

namespace Interpreter

/-- An instruction is charged for. -/
theorem charges_execute (ht : KeepsTime δ κ) (m : Machine δ κ) (i : Instruction) (pc : UInt32) :
    m.Charges 1 (execute (m.tick cyclesPerOp) i pc).machine := by
  have hone : Nat.toUInt32 1 * cyclesPerOp = cyclesPerOp := rfl
  rw [Machine.Charges, hone]
  rcases clock_execute ht (m.tick cyclesPerOp) i pc with h | ⟨flags, h, -⟩
  · rw [h]
    rfl
  · rw [h, Clock.current_setExit]
    rfl

/-- An iteration runs one instruction, if the cursor stands at one. -/
theorem charges_step (ht : KeepsTime δ κ) (base : UInt32) (c : Cursor δ κ) : match step base c with
    | .running c' => c.machine.Charges 1 c'.machine
    | .finished o => ∃ n ≤ 1, c.machine.Charges n o.machine ∧
        ((indexIn? base c.ops.size c.pc).isSome → n = 1) := by
  unfold step
  cases hindex : indexIn? base c.ops.size c.pc with
  | none =>
    cases c.pending with
    | none => exact ⟨0, by omega, .zero rfl, Bool.noConfusion⟩
    | some target =>
      -- the delay slot is outside of the block and may not be readable
      dsimp only [runOutside]
      split
      · refine ⟨0, by omega, .zero ?_, Bool.noConfusion⟩
        exact Clock.current_setExit _ _
      · split
        · exact ⟨1, by omega, charges_execute ht _ _ _, fun _ => rfl⟩
        · exact ⟨1, by omega, charges_execute ht _ _ _, fun _ => rfl⟩
        · exact ⟨1, by omega, charges_execute ht _ _ _, fun _ => rfl⟩
  | some index =>
    dsimp only
    have hcharges := charges_execute ht c.machine (c.ops.getD index default).instr c.pc
    cases (execute (c.machine.tick cyclesPerOp) (c.ops.getD index default).instr c.pc).step with
    | exit next => exact ⟨1, Nat.le_refl 1, hcharges, fun _ => rfl⟩
    | branch target => exact hcharges
    | next =>
      cases c.pending with
      | none => exact hcharges
      | some target =>
        dsimp only
        by_cases hback : goesBack base c.ops.size index target &&
            (execute (c.machine.tick cyclesPerOp) (c.ops.getD index default).instr
              c.pc).machine.clock.shouldStop
        · rw [if_pos hback]
          exact ⟨1, Nat.le_refl 1, hcharges, fun _ => rfl⟩
        · rw [if_neg hback]
          exact hcharges

/-- A run that ends has run at most as many instructions as it had rounds, and one at least if it
starts in the block. -/
theorem charges_iterate (ht : KeepsTime δ κ) {base : UInt32} {fuel : Nat} {c : Cursor δ κ}
    {o : Outcome δ κ} (h : iterate (step base) fuel c = .finished o) :
    ∃ n ≤ fuel, c.machine.Charges n o.machine ∧
      ((indexIn? base c.ops.size c.pc).isSome → 0 < n) := by
  induction fuel generalizing c with
  | zero => cases h
  | succ fuel ih =>
    have hone := charges_step ht base c
    rw [iterate_succ] at h
    cases hstep : step base c with
    | finished o' =>
      rw [hstep] at h hone
      cases h
      obtain ⟨n, hn, hcharges, hstarts⟩ := hone
      refine ⟨n, by omega, hcharges, fun hin => ?_⟩
      rw [hstarts hin]
      exact Nat.one_pos
    | running c' =>
      rw [hstep] at h hone
      obtain ⟨n, hn, hcharges, -⟩ := ih h
      exact ⟨1 + n, by omega, hone.trans hcharges, fun _ => by omega⟩

/-- Interpreting a block from its start runs an instruction, unless its words are gone. -/
theorem charges_emulate (ht : KeepsTime δ κ) {fuel : Nat} {m : Machine δ κ} {b : Block}
    {r : Emulated δ κ} (hcount : b.opCount = b.words.length) (hsome : 0 < b.words.length)
    (hmost : b.words.length ≤ 65535) (hops : ∀ {ops}, b.ops = some ops → opWords ops = b.words)
    (h : emulate fuel m b b.pc = .finished r) :
    r.machine.clock.exit.isNormal = false ∨ ∃ n ≤ fuel, 0 < n ∧ m.Charges n r.machine := by
  have hstart : ((b.pc - b.pc) >>> (2 : UInt32)).toNat = 0 := by
    rw [UInt32.sub_self]
    rfl
  -- The start of the block is one of its instructions, so the first step runs it.
  have hrun : ∀ {ops o}, 0 < ops.size → ops.size ≤ 65536 →
      run fuel m b.pc ops 0 = .finished o → ∃ n ≤ fuel, 0 < n ∧ m.Charges n o.machine := by
    intro ops o hpos hsize hrun
    obtain ⟨n, hn, hcharges, hstarts⟩ := charges_iterate ht hrun
    refine ⟨n, hn, hstarts ?_, hcharges⟩
    rw [indexIn?_address b.pc hpos hsize]
    rfl
  unfold emulate at h
  dsimp only at h
  rw [hstart] at h
  cases hb : b.ops with
  | some ops =>
    rw [hb] at h
    dsimp only at h
    have hsize : ops.size = b.words.length := by rw [← hops hb, length_opWords]
    split at h
    · cases h
    · rename_i o ho
      obtain ⟨n, hn, hpos, hcharges⟩ := hrun (by omega) (by omega) ho
      refine .inr ⟨n, hn, hpos, ?_⟩
      split at h
      · cases h
        exact hcharges
      · cases h
        exact hcharges
  | none =>
    rw [hb] at h
    dsimp only at h
    split at h
    · cases h
      exact .inl (Clock.isNormal_setExit _ rfl)
    · rename_i ops hdecode
      obtain ⟨-, hnonempty, -⟩ := Block.supplies_of_decode hdecode
      split at h
      · cases h
      · rename_i o ho
        cases h
        refine .inr (hrun ?_ ?_ ho)
        · rw [Array.size_extract]
          omega
        · rw [Array.size_extract]
          omega

end Interpreter

/-! ## Code -/

/-- The word at `offset` of the block is a branch, and so is the word in its delay slot. -/
def Block.StallsAt (b : Block) (offset : Nat) : Prop :=
  ∃ v w, b.words[offset]? = some v ∧ b.words[offset + 1]? = some w ∧
    Instruction.hasDelaySlot { word := v } = true ∧ Instruction.hasDelaySlot { word := w } = true

namespace HostProgram

open Interpreter (Cursor)

variable {σ : Site δ κ} {path : List Nat} {c c' : Cursor δ κ} {r : Returned δ κ}

/-- Instructions on a path are charged for, one by one. -/
theorem Path.charges (ht : KeepsTime δ κ) (h : Path σ path c c') :
    c.machine.Charges path.length c'.machine := by
  induction path generalizing c with
  | nil =>
    cases h
    exact .zero rfl
  | cons index path ih =>
    obtain ⟨d, ⟨hindex, hclipped, -, -⟩, hrest⟩ := h
    have hone : c.machine.Charges 1 d.machine := by
      rw [(Interpreter.ran_of_stepClipped hindex hclipped).1]
      exact Interpreter.charges_execute ht _ _ _
    have hall := hone.trans (ih hrest)
    rwa [List.length_cons, Nat.add_comm]

theorem Reaches.charges (ht : KeepsTime δ κ) (h : Reaches σ path c r) :
    c.machine.Charges path.length r.machine := by
  cases h with
  | arrives hpath _ hend =>
    have hcharges := hpath.charges ht
    rwa [Machine.Charges, ← hend.agrees.current] at hcharges
  | @exits path index c c' r next hpath _ _ hend =>
    have hlast := Interpreter.charges_execute ht c'.machine (c'.ops.getD index default).instr c'.pc
    have hcharges := (hpath.charges ht).trans hlast
    rw [List.length_append]
    refine Eq.trans ?_ hcharges
    exact hend.agrees.current

/-- Where no instruction is run nothing happens. -/
theorem Reaches.of_nil (h : Reaches σ [] c r) : r.next = c.pc ∧ r.machine.Alike c.machine := by
  generalize hnil : ([] : List Nat) = path at h
  cases h with
  | arrives hpath _ hend =>
    subst hnil
    cases hpath
    exact ⟨hend.next, { hend.agrees with entries := trivial }⟩
  | exits => exact absurd hnil.symm (List.append_ne_nil_of_right_ne_nil _ (List.cons_ne_nil _ _))

omit [Device δ] [Coprocessor κ] in
/-- Code can be entered only where it says. -/
theorem mem_targets_of_entryPoint? {p : HostProgram} {offset place : Nat}
    (h : p.entryPoint? offset = some place) : offset = 0 ∨ offset ∈ p.targets := by
  unfold entryPoint? at h
  split at h
  · rename_i o q hget
    split at h
    · rename_i heq
      cases heq
      cases h
      by_cases hzero : offset = 0
      · exact .inl hzero
      · refine .inr (List.mem_filterMap.mpr ⟨(offset, place), ?_, by simp [hzero]⟩)
        exact List.mem_of_getElem? (by simpa using hget)
    · cases h
  · cases h

/-- A call of code that comes back has run an instruction, or has found nothing to do at a branch in
whose delay slot there is another one. -/
theorem charges_call (ht : KeepsTime δ κ) {b : Block} {source : BlockSource}
    (hsource : b.IsSource source) {cache : RegisterCache} (hcache : cache.WellFormed)
    {program : HostProgram} (hgenerate : (generate source cache).result = .ok program)
    {fuel offset : Nat} {m : Machine δ κ} (hcall : program.call fuel offset m b = .finished r) :
    r.machine.clock.exit.isNormal = false ∨
      (∃ n ≤ 131070 * (fuel + 1), 0 < n ∧ m.Charges n r.machine) ∨
      (b.StallsAt offset ∧ r.next = b.pc + offset.toUInt32 * 4 ∧ r.machine.Alike m) := by
  cases hentry : program.entryPoint? offset with
  | none =>
    rw [call, hentry] at hcall
    cases hcall
    exact .inl (Clock.isNormal_setExit _ rfl)
  | some place =>
    right
    let σ : Site δ κ := { block := b, source, exact := False }
    obtain ⟨path, hreach, halone, hlength, -⟩ := explains_call (σ := σ) hsource.faithful hcache
      hgenerate (mem_targets_of_entryPoint? hentry) (fun h => h.elim) (fun h => h.elim) hcall
    by_cases hnil : path = []
    · -- nothing was run
      right
      obtain ⟨o, d, ho, hbranch, hd, hslot⟩ := hsource.branchInSlot (halone.mp hnil)
      have hword : ∀ {k : Nat} {o : Op}, source.ops[k]? = some o → b.words[k]? = some o.instr.word := by
        intro k o ho
        rw [← hsource.words, opWords, List.getElem?_map, Array.getElem?_toList, ho, Option.map_some]
      subst hnil
      obtain ⟨hnext, halike⟩ := hreach.of_nil
      refine ⟨⟨_, _, hword ho, hword hd, hbranch, hslot⟩, hnext.trans ?_, halike⟩
      show source.pc + offset.toUInt32 * 4 = _
      rw [hsource.pc]
    · refine .inl ⟨path.length, ?_, List.length_pos_iff.mpr hnil, hreach.charges ht⟩
      have hsize : source.ops.size ≤ 65535 := hsource.faithful.size
      have hmul : 2 * source.ops.size * fuel ≤ 131070 * fuel := Nat.mul_le_mul_right _ (by omega)
      have hrange : path.length ≤ 2 * (source.ops.size - offset) + 2 * source.ops.size * fuel :=
        hlength
      omega

end HostProgram

/-! ## Dispatching -/

/-- What a dispatch that gets somewhere does: it leaves guest code for a reason, runs instructions,
or clears memory in the place of a loop that would. The charge for that can be a multiple of
`2 ^ 32`, with which the clock comes back to where it was. -/
inductive Core.Progresses (fuel : Nat) (c c' : Core δ κ γ) : Prop
  | exits (hexit : c'.machine.clock.exit.isNormal = false)
  | runs {n : Nat} (hpos : 0 < n) (hmost : n ≤ 131070 * (fuel + 1))
      (hcharges : c.machine.Charges n c'.machine)
  | clears {words : UInt32} (hreplace : c.config.replaceMemset = true)
      (hwords : c.machine.regs.get .a1 = words) (hpos : 0 < words.toNat)
      (hmost : words.toNat < 2 ^ 30) (hcharge : 8 + 20 * words ≠ 0)
      (hcycles : c'.machine.clock.current = c.machine.clock.current + (8 + 20 * words))
  | wraps {words : UInt32} (hreplace : c.config.replaceMemset = true)
      (hwords : c.machine.regs.get .a1 = words) (hmost : words.toNat < 2 ^ 30)
      (hcharge : 8 + 20 * words = 0)
      (hcycles : c'.machine.clock.current = c.machine.clock.current)

example : (644245094 : UInt32).toNat < 2 ^ 30 ∧ (8 + 20 * 644245094 : UInt32) = 0 := by decide

omit [Device δ] [Coprocessor κ] in
theorem Machine.charges_memset {m m' : Machine δ κ} {cycles : UInt32}
    (h : m.memset = (some cycles, m')) :
    0 < (m.regs.get .a1).toNat ∧ (m.regs.get .a1).toNat < 2 ^ 30 ∧
      cycles = 8 + 20 * m.regs.get .a1 := by
  unfold memset at h
  dsimp only at h
  split at h
  · cases h
  · rename_i hwords
    simp only [Bool.or_eq_true, decide_eq_true_eq, not_or] at hwords
    split at h
    · cases h
    · split at h
      · cases h
      · split at h
        · cases h
        · split at h
          · cases h
            refine ⟨?_, ?_, ?_⟩
            · exact Nat.pos_of_ne_zero fun hzero => hwords.1 (UInt32.toNat_inj.mp hzero)
            · omega
            · have hlength : ((m.regs.get .a1).toNat * 4).toUInt32 = m.regs.get .a1 * 4 := by
                simp [Nat.toUInt32, UInt32.ofNat_mul]
              rw [hlength, UInt32.mul_comm _ 4, ← UInt32.mul_assoc]
              rfl
          · cases h

/-- Guest code that ran has got somewhere, or stalls. -/
theorem Core.Runs.progresses (ht : KeepsTime δ κ) {start : UInt32 → Prop} {fuel : Nat}
    {c c' : Core δ κ γ} {pc next : UInt32} (hs : c.Sound (.host start))
    (h : Runs (.host start) fuel c pc next c') :
    c.Progresses fuel c' ∨ ∃ id b k offset, c.blocks id = some b ∧
      c.Leads pc id b k offset ∧ b.StallsAt offset ∧ next = b.pc + offset.toUInt32 * 4 ∧
      c'.machine.Alike c.machine := by
  cases h with
  | fault => exact .inl (.exits (Clock.isNormal_setExit _ rfl))
  | @call id b k offset r hget hsuits hleads hcall =>
    obtain ⟨source, targets, hsource, ⟨-, cache, hcache, hgenerate⟩, -⟩ := hsuits
    -- only code can come back without having run anything
    rcases HostProgram.charges_call ht hsource hcache hgenerate hcall with
      hexit | ⟨n, hmost, hpos, hcharges⟩ | ⟨hstalls, hnext, halike⟩
    · exact .inl (.exits hexit)
    · exact .inl (.runs hpos hmost hcharges)
    · exact .inr ⟨id, b, k, offset, hget, hleads, hstalls, hnext, halike⟩
  | interpret hget _ hemulate =>
    have hsound := (hs.block hget).1
    rcases Interpreter.charges_emulate ht hsound.opCount hsound.nonempty hsound.bounded
      (fun hops => (hsound.ops hops).words) hemulate with hexit | ⟨n, hmost, hpos, hcharges⟩
    · exact .inl (.exits hexit)
    · exact .inl (.runs hpos (by omega) hcharges)
  | memset hreplace hmemset =>
    obtain ⟨hpos, hmost, rfl⟩ := Machine.charges_memset hmemset
    have hclock := Machine.clock_memset c.machine
    rw [hmemset] at hclock
    by_cases hcharge : 8 + 20 * c.machine.regs.get .a1 = 0
    · refine .inl (.wraps hreplace rfl hmost hcharge ?_)
      show _ + _ = _
      rw [hclock, hcharge, UInt32.add_zero]
    · refine .inl (.clears hreplace rfl hpos hmost hcharge ?_)
      show _ + _ = _
      rw [hclock]

namespace Engine

/-- An engine before a dispatch, between calls from the host or inside of one: dispatches follow each
other, and the host may set the clock in between. -/
inductive Dispatching (g : HostGenerator) : Engine δ κ HostGenerator → Prop
  | call {e : Engine δ κ HostGenerator} (h : Reachable g e) : Dispatching g e
  | clock {e : Engine δ κ HostGenerator} (h : Dispatching g e) (clock : Clock) :
      Dispatching g { e with machine := { e.machine with clock } }
  | dispatch {e e' : Engine δ κ HostGenerator} {fuel : Nat} {pc next : UInt32}
      (h : Dispatching g e) (hdispatch : dispatch fuel pc e = .ok next e') : Dispatching g e'

variable {g : HostGenerator} {e e' : Engine δ κ HostGenerator}

theorem Dispatching.sound (h : Dispatching g e) : e.core.Sound (.host fun _ => True) := by
  have hR := Rules.admits_host fun _ => True
  have hany : ∀ pc, (Rules.host fun _ => True).start pc := fun _ => trivial
  induction h with
  | call h => exact (h.linked hR hany).1
  | clock _ clock ih => exact (moved_of_clock ⟨clock, rfl⟩ : Moved _ _ _).sound ih
  | dispatch _ hdispatch ih =>
    have hserves := (ensures_dispatch hR (fun _ => hany _) ih _).ok hdispatch
    exact hserves.evolves.sound ih

/-- The engine calls code of a block at a branch in whose delay slot there is another one. The code
comes back for the branch, and nothing has been done. -/
def Stalls (e : Engine δ κ HostGenerator) (pc next : UInt32) (e' : Engine δ κ HostGenerator) : Prop :=
  ∃ c id b k offset, Core.Steps (.host fun _ => True) e.core c ∧ c.blocks id = some b ∧
    c.Leads pc id b k offset ∧ b.StallsAt offset ∧ next = b.pc + offset.toUInt32 * 4 ∧
    e'.machine.Alike e.machine

/-- Every dispatch sets a reason to leave or charges for what it does, unless it stalls. -/
theorem dispatch_progresses_or_stalls (ht : KeepsTime δ κ) (h : Dispatching g e) {fuel : Nat}
    {pc next : UInt32} (hdispatch : dispatch fuel pc e = .ok next e') :
    e.core.Progresses fuel e'.core ∨ e.Stalls pc next e' := by
  have hR := Rules.admits_host fun _ => True
  have hany : ¬ e.Published pc → (Rules.host fun _ => True).start pc := fun _ => trivial
  obtain ⟨c₁, c₂, hsteps₁, hruns, hsteps₂⟩ :=
    (ensures_dispatch hR hany h.sound fuel).ok hdispatch
  -- what the engine does by itself shows in entries and log only
  obtain ⟨entries₁, log₁, hmachine₁⟩ := hsteps₁.machine
  obtain ⟨entries₂, log₂, hmachine₂⟩ := hsteps₂.machine
  have hfirst : c₁.machine.Alike e.core.machine :=
    hmachine₁ ▸ (Machine.alike_withEntries e.core.machine entries₁ log₁).symm
  have hlast : e'.core.machine.Alike c₂.machine :=
    hmachine₂ ▸ (Machine.alike_withEntries c₂.machine entries₂ log₂).symm
  rcases hruns.progresses ht (hsteps₁.sound h.sound) with
    hprogress | ⟨id, b, k, offset, hget, hleads, hstalls, hnext, halike⟩
  · left
    cases hprogress with
    | exits hexit => exact .exits (hlast.exit ▸ hexit)
    | runs hpos hmost hcharges =>
      refine .runs hpos hmost ?_
      rwa [Machine.Charges, hlast.current, ← hfirst.current]
    | clears hreplace hwords hpos hmost hcharge hcycles =>
      rw [hsteps₁.config] at hreplace
      refine .clears hreplace (hfirst.regs ▸ hwords) hpos hmost hcharge ?_
      rwa [hlast.current, ← hfirst.current]
    | wraps hreplace hwords hmost hcharge hcycles =>
      rw [hsteps₁.config] at hreplace
      refine .wraps hreplace (hfirst.regs ▸ hwords) hmost hcharge ?_
      rwa [hlast.current, ← hfirst.current]
  · exact .inr ⟨c₁, id, b, k, offset, hsteps₁, hget, hleads, hstalls, hnext,
      hlast.trans (halike.trans hfirst)⟩

/-- An engine over a loop-free program that branches to a branch with another one behind it. -/
def forked : Engine RegisterBank StandardCoprocessor HostGenerator :=
  create
    (match Memory.ofRegions #[.ram 0 0x20] with
      | .ok memory => (memory.writeWords 0
          [0x14800002, 0, 0, 0x14a00003, 0x14c00002, 0, 0x03e00008, 0]).2
      | .error _ => default)
    .inert .inert { threaded := false, replaceMemset := false, firstPass := false, codeBudgetBytes := 0 }
    {} default

/-- The branch that the first one leads to has an entry, and there the engine stalls. -/
theorem dispatch_stalls_forked :
    ∃ (e e' : Engine RegisterBank StandardCoprocessor HostGenerator) (next : UInt32),
    Dispatching {} e ∧ dispatch 50 0x0c e = .ok next e' ∧
    e'.machine.clock.exit.isNormal = true ∧
    e'.machine.clock.current = e.machine.clock.current ∧ e.Stalls 0x0c next e' := by
  have hruns : EngineM.passes (HostCall.perform 50 (.restoreRegisters (({} : Registers).set 4 1)))
      (fun _ => EngineM.passes (HostCall.perform 50 (.executeOne 0)) fun _ e₂ =>
        EngineM.passes (dispatch 50 0x0c) (fun _ e' =>
          decide (e'.machine.clock.exit.isNormal = true ∧
            e'.machine.clock.current = e₂.machine.clock.current ∧
            e₂.config.replaceMemset = false)) e₂) forked = true := by decide +kernel
  obtain ⟨_, e₁, hset, hruns⟩ := EngineM.exists_of_passes hruns
  obtain ⟨_, e₂, hone, hruns⟩ := EngineM.exists_of_passes hruns
  obtain ⟨next, e', hdispatch, hruns⟩ := EngineM.exists_of_passes hruns
  obtain ⟨hexit, hcurrent, hmemset⟩ := of_decide_eq_true hruns
  have hreachable : Reachable {} e₂ := .call (.call (.new _ _ _ _ rfl) hset) hone
  refine ⟨e₂, e', next, .call hreachable, hdispatch, hexit, hcurrent, ?_⟩
  have h := dispatch_progresses_or_stalls keepsTime_standard (.call hreachable) hdispatch
  refine h.resolve_left ?_
  rintro (hleaves | ⟨hpos, hmost, hcharges⟩ | ⟨hreplace, -⟩ | ⟨hreplace, -⟩)
  · cases hleaves.symm.trans hexit
  · exact hcharges.ne_of_lt hpos (by omega) hcurrent
  · cases hreplace.symm.trans hmemset
  · cases hreplace.symm.trans hmemset

end Engine

end Dynarec
