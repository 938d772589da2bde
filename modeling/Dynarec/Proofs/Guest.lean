/-
  Dynarec.Proofs.Guest

  The guest without blocks: instructions are fetched from memory and run one
  by one.

  This is what running guest code means, whatever an engine makes of it. Tables
  of entries, cycle budgets and logs play no part in it: guests that differ in
  nothing else go the same way, and there is one place where they stop.
-/
import Dynarec.Proofs.Interpreter
import Dynarec.Proofs.Machine.Time

namespace Dynarec

variable {δ κ : Type}

/-! ## Machines that guest code cannot tell apart -/

namespace Machine

/-- The machines differ at most in entries, cycle budget and log. -/
def Alike (a b : Machine δ κ) : Prop := Agrees (fun _ _ => True) Eq a b

variable {a b c : Machine δ κ}

theorem Alike.refl (m : Machine δ κ) : m.Alike m := agrees_self rfl

theorem Agrees.alike {E : EntryTable → EntryTable → Prop} (h : Agrees E Eq a b) : a.Alike b :=
  { h with entries := trivial }

theorem Alike.symm (h : a.Alike b) : b.Alike a :=
  ⟨h.regs.symm, h.current.symm, h.exit.symm, h.memory.symm, h.cop0.symm, h.cop2.symm, trivial,
    h.hostInvalidationOnly.symm⟩

theorem Alike.trans (h : a.Alike b) (h' : b.Alike c) : a.Alike c :=
  ⟨h.regs.trans h'.regs, h.current.trans h'.current, h.exit.trans h'.exit, h.memory.trans h'.memory,
    h.cop0.trans h'.cop0, h.cop2.trans h'.cop2, trivial,
    h.hostInvalidationOnly.trans h'.hostInvalidationOnly⟩

theorem alike_withEntries (m : Machine δ κ) (entries : EntryTable) (log : Log) :
    m.Alike { m with entries, log } :=
  ⟨rfl, rfl, rfl, rfl, rfl, rfl, trivial, rfl⟩

theorem Alike.setReg (h : a.Alike b) (r : Reg) {v w : UInt32} (hv : v = w) :
    (a.setReg r v).Alike (b.setReg r w) :=
  Agrees.withRegs h (by rw [h.regs, hv])

end Machine

namespace Interpreter

variable [Device δ] [Coprocessor κ]

open Machine (Alike)

/-- The effects are the same, on machines that guest code cannot tell apart. -/
structure Executed.Alike (x y : Executed δ κ) : Prop where
  machine : x.machine.Alike y.machine
  step : x.step = y.step
  access : x.access = y.access

theorem alike_executeAccess {a b : Machine δ κ} (h : a.Alike b) (i : Instruction)
    (access : MemoryAccess) (pc rs rt : UInt32) :
    (executeAccess a i access pc rs rt).Alike (executeAccess b i access pc rs rt) := by
  obtain ⟨hvalue, hkind, hmachine⟩ := Machine.Agrees.transfer EntryTable.respects_true h i rs rt
  unfold executeAccess
  dsimp only
  rw [hvalue, hkind, hmachine.exit]
  split
  · exact ⟨hmachine, rfl, rfl⟩
  · split
    · exact ⟨hmachine, rfl, rfl⟩
    · exact ⟨Machine.Alike.setReg hmachine i.rt rfl, rfl, rfl⟩

/-- An instruction does the same to machines that guest code cannot tell apart. -/
theorem alike_execute {a b : Machine δ κ} (h : a.Alike b) (i : Instruction) (pc : UInt32) :
    (execute a i pc).Alike (execute b i pc) := by
  rw [execute_eq, execute_eq]
  unfold executeOperation
  rw [h.regs]
  cases i.operation with
  | shift | shiftVariable | moveFromHi | moveFromLo | moveToHi | moveToLo | alu | aluImmediate
  | loadUpper | jumpLink | jumpLinkRegister => exact ⟨h.setReg _ rfl, rfl, rfl⟩
  | jumpRegister | jump => exact ⟨h, rfl, rfl⟩
  | syscall | breakpoint => exact ⟨Machine.Agrees.setExit h _, rfl, rfl⟩
  | mulDiv kind => exact ⟨(h.setReg _ rfl).setReg _ rfl, rfl, rfl⟩
  | branch condition link =>
    have hlink : (if link then a.setReg .ra (pc + 8) else a).Alike
        (if link then b.setReg .ra (pc + 8) else b) := by
      split
      · exact h.setReg _ rfl
      · exact h
    dsimp only
    split
    · exact ⟨hlink, rfl, rfl⟩
    · exact ⟨hlink, rfl, rfl⟩
  | copRead control =>
    obtain ⟨hvalue, hmachine⟩ := Machine.Agrees.copRead h i i.rd control
    exact ⟨Machine.Alike.setReg hmachine i.rt hvalue, rfl, rfl⟩
  | copWrite control => exact ⟨Machine.Agrees.copWrite h i _ _ control, rfl, rfl⟩
  | copExecute => exact ⟨Machine.Agrees.copExecute h i, rfl, rfl⟩
  | memory access => exact alike_executeAccess h i access pc _ _
  | unknown =>
    exact ⟨((Machine.Agrees.note_left h _).note_right _).setExit _, rfl, rfl⟩

end Interpreter

/-! ## Fetching and running -/

/-- The guest between two instructions. -/
structure Guest (δ κ : Type) where
  machine : Machine δ κ
  pc : UInt32
  /-- Target of the taken branch whose delay slot is next. -/
  pending : Option UInt32 := none

namespace Guest

/-- Nothing has stopped the guest. -/
def isRunning (g : Guest δ κ) : Bool := g.machine.clock.exit.isNormal

/-- The guests differ at most in entries, cycle budget and log. -/
structure Alike (g h : Guest δ κ) : Prop where
  machine : g.machine.Alike h.machine
  pc : g.pc = h.pc
  pending : g.pending = h.pending

variable {g h : Guest δ κ}

theorem Alike.symm (hgh : g.Alike h) : h.Alike g :=
  ⟨hgh.machine.symm, hgh.pc.symm, hgh.pending.symm⟩

theorem Alike.isRunning (hgh : g.Alike h) : g.isRunning = h.isRunning := by
  unfold Guest.isRunning
  rw [hgh.machine.exit]

variable [Device δ] [Coprocessor κ]

/-- Effect of the instruction `word`, at which the guest stands. -/
def effect (g : Guest δ κ) (word : UInt32) : Interpreter.Executed δ κ :=
  Interpreter.execute (g.machine.tick Interpreter.cyclesPerOp) { word } g.pc

omit [Device δ] [Coprocessor κ] in
/-- The guest after an instruction with the effect `e`. -/
def after (g : Guest δ κ) (e : Interpreter.Executed δ κ) : Guest δ κ :=
  match e.step with
  | .exit next => { machine := e.machine, pc := next }
  | .branch target =>
    { machine := e.machine, pc := g.pending.getD (g.pc + 4), pending := some target }
  | .next => { machine := e.machine, pc := g.pending.getD (g.pc + 4) }

omit [Device δ] [Coprocessor κ] in
theorem machine_after (g : Guest δ κ) (e : Interpreter.Executed δ κ) :
    (g.after e).machine = e.machine := by
  unfold after
  split <;> rfl

/-- Fetch the next instruction and run it. Where there is none the guest is stopped. -/
def step (g : Guest δ κ) : Guest δ κ :=
  match g.machine.memory.readWord g.pc with
  | .error _ => { machine := g.machine.setExit { segfault := true }, pc := g.pc }
  | .ok word => g.after (g.effect word)

theorem step_of_readWord {g : Guest δ κ} {word : UInt32}
    (h : g.machine.memory.readWord g.pc = .ok word) : g.step = g.after (g.effect word) := by
  rw [step, h]

theorem Alike.step (hgh : g.Alike h) : g.step.Alike h.step := by
  unfold Guest.step
  rw [hgh.machine.memory, hgh.pc]
  cases h.machine.memory.readWord h.pc with
  | error f => exact ⟨Machine.Agrees.setExit hgh.machine _, rfl, rfl⟩
  | ok word =>
    obtain ⟨hmachine, hstep, -⟩ :=
      Interpreter.alike_execute (Machine.Agrees.tick hgh.machine Interpreter.cyclesPerOp) { word } h.pc
    dsimp only [effect, after]
    rw [hgh.pc, hgh.pending, hstep]
    split
    · exact ⟨hmachine, rfl, rfl⟩
    · exact ⟨hmachine, rfl, rfl⟩
    · exact ⟨hmachine, rfl, rfl⟩

theorem get_zero_step (g : Guest δ κ) : g.step.machine.regs.get 0 = g.machine.regs.get 0 := by
  unfold step
  cases g.machine.memory.readWord g.pc with
  | error f => rfl
  | ok word =>
    dsimp only
    rw [machine_after]
    exact Interpreter.get_zero_execute _ _ _

theorem changes_step (g : Guest δ κ) : Machine.Changes False g.machine g.step.machine := by
  unfold step
  cases g.machine.memory.readWord g.pc with
  | error f => exact .control rfl rfl rfl
  | ok word =>
    dsimp only
    rw [machine_after]
    exact Machine.guestRelation_changes.tick_execute _ _ _ _

/-- An instruction that does not leave guest code lets the guest go on. -/
theorem isRunning_effect (ht : KeepsTime δ κ) {g : Guest δ κ} (hg : g.isRunning = true) {word : UInt32}
    (hstep : ∀ next, (g.effect word).step ≠ .exit next) :
    (g.effect word).machine.clock.exit.isNormal = true := by
  have hclock := Interpreter.clock_execute ht (g.machine.tick Interpreter.cyclesPerOp) { word } g.pc
  rcases hclock with h | ⟨flags, -, h⟩
  · rw [effect, h]
    exact hg
  · exact absurd h (hstep g.pc)

/-! ## Runs -/

/-- The second guest is the first one some instructions later. Nothing has stopped it before. -/
def Visits : Guest δ κ → Guest δ κ → Prop :=
  Relation.ReflTransGen fun g h => g.isRunning = true ∧ h = g.step

namespace Visits

variable {g g' h h' : Guest δ κ}

theorem refl (g : Guest δ κ) : g.Visits g := Relation.ReflTransGen.refl

theorem trans {g'' : Guest δ κ} (h1 : g.Visits g') (h2 : g'.Visits g'') : g.Visits g'' :=
  Relation.ReflTransGen.trans h1 h2

theorem step (hg : g.isRunning = true) : g.Visits g.step := Relation.ReflTransGen.single ⟨hg, rfl⟩

theorem get_zero (hv : g.Visits g') : g'.machine.regs.get 0 = g.machine.regs.get 0 := by
  induction hv with
  | refl => rfl
  | tail _ hstep ih =>
    obtain ⟨-, rfl⟩ := hstep
    rw [get_zero_step, ih]

theorem changes (hv : g.Visits g') : Machine.Changes False g.machine g'.machine := by
  induction hv with
  | refl => exact .refl _
  | tail _ hstep ih =>
    obtain ⟨-, rfl⟩ := hstep
    exact ih.trans (changes_step _)

/-- Guests that are alike stay alike. -/
theorem alike (hv : g.Visits g') (hgh : g.Alike h) : ∃ h', h.Visits h' ∧ g'.Alike h' := by
  induction hv with
  | refl => exact ⟨h, refl h, hgh⟩
  | tail _ hstep ih =>
    obtain ⟨h1, hv1, h1⟩ := ih
    obtain ⟨hrunning, rfl⟩ := hstep
    exact ⟨_, hv1.trans (step (h1.isRunning ▸ hrunning)), h1.step⟩

theorem eq_of_stopped (hv : g.Visits g') (hg : g.isRunning = false) : g' = g := by
  cases Relation.ReflTransGen.cases_head hv with
  | inl heq => exact heq.symm
  | inr hstep =>
    obtain ⟨_, ⟨hrunning, -⟩, -⟩ := hstep
    rw [hg] at hrunning
    cases hrunning

/-- There is one place where a guest stops. -/
theorem stopped_unique (hv : g.Visits g') (hv' : g.Visits h') (hg' : g'.isRunning = false)
    (hh' : h'.isRunning = false) : g' = h' := by
  have hunique : Relator.RightUnique fun g h : Guest δ κ => g.isRunning = true ∧ h = g.step := by
    rintro a b c ⟨-, rfl⟩ ⟨-, rfl⟩
    rfl
  rcases Relation.ReflTransGen.total_of_right_unique hunique hv hv' with hv | hv
  · exact (eq_of_stopped hv hg').symm
  · exact eq_of_stopped hv hh'

end Visits

/-- The guest stops before `n` instructions are run, and `P` holds of it all along. -/
def always (P : Guest δ κ → Bool) : Nat → Guest δ κ → Bool
  | 0, _ => false
  | n + 1, g => P g && (!g.isRunning || always P n g.step)

theorem Visits.of_always {P : Guest δ κ → Bool} {n : Nat} {g g' : Guest δ κ}
    (h : g.always P n = true) (hv : g.Visits g') : P g' = true := by
  induction n generalizing g with
  | zero => cases h
  | succ n ih =>
    simp only [always, Bool.and_eq_true, Bool.or_eq_true, Bool.not_eq_true'] at h
    cases Relation.ReflTransGen.cases_head hv with
    | inl heq => exact heq ▸ h.1
    | inr hstep =>
      obtain ⟨_, ⟨hrunning, rfl⟩, hv⟩ := hstep
      rw [hrunning] at h
      exact ih (h.2.resolve_left Bool.noConfusion) hv

end Guest

end Dynarec
