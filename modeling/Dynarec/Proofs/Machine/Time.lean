/-
  Dynarec.Proofs.Machine.Time

  What instructions do to the clock.

  Devices and coprocessors that keep time may look at the clock but never ask
  for a change of it. Then an instruction that goes on leaves the clock as it
  was, and one that leaves guest code can only add reasons to leave. So where
  there is no reason to leave in the end there has been none all along, and
  the target is where it was.
-/
import Dynarec.Proofs.Machine.Requests
import Dynarec.Proofs.Operation

namespace Dynarec

variable {δ κ : Type}

/-- Something is reported, and nothing else asked for. -/
def Request.isNote : Request → Bool
  | .note _ => true
  | .resetCycle _ | .exit _ => false

/-- Devices and coprocessors may look at the clock but never touch it. -/
structure KeepsTime (δ κ : Type) [Device δ] [Coprocessor κ] : Prop where
  load : ∀ (d : δ) (a : BusAccess) (now : UInt32), (Device.load d a now).2.2.all Request.isNote = true
  store : ∀ (d : δ) (a : BusAccess) (value now : UInt32),
    (Device.store d a value now).2.all Request.isNote = true
  read : ∀ (c : κ) (control : Bool) (word : UInt32) (r : Reg) (now : UInt32),
    (Coprocessor.read c control word r now).2.2.all Request.isNote = true
  write : ∀ (c : κ) (control : Bool) (word : UInt32) (r : Reg) (value now : UInt32),
    (Coprocessor.write c control word r value now).2.all Request.isNote = true
  execute : ∀ (c : κ) (word now : UInt32),
    (Coprocessor.execute c word now).2.all Request.isNote = true

/-- The devices and coprocessors that come with the library do. -/
theorem keepsTime_standard : KeepsTime RegisterBank StandardCoprocessor where
  load d a _ := by
    show (d.load a).2.2.all Request.isNote = true
    unfold RegisterBank.load
    dsimp only
    split <;> rfl
  store d a value _ := by
    show (d.store a value).2.all Request.isNote = true
    unfold RegisterBank.store
    dsimp only
    split <;> rfl
  read c _ _ _ _ := by cases c <;> rfl
  write c _ _ _ _ _ := by cases c <;> rfl
  execute c _ _ := by cases c <;> rfl

/-- A machine of that kind at the start, with a budget. -/
def Machine.withBudget (target : UInt32) : Machine RegisterBank StandardCoprocessor where
  clock := { target }
  memory := default
  cop0 := .inert
  cop2 := .inert
  entries := {}

namespace Machine

/-- Clearing memory takes no time by itself; the cycles are charged afterwards. -/
theorem clock_memset (m : Machine δ κ) : m.memset.2.clock = m.clock := by
  unfold memset
  dsimp only
  split
  · rfl
  · split
    · rfl
    · split
      · rfl
      · split
        · rfl
        · split
          · dsimp only [invalidateByGuest]
            split <;> rfl
          · rfl

end Machine

/-- Reports do not touch the clock. -/
theorem Clock.outlasts_notes : Outlasts (fun c c' => c' = c) (fun r => r.isNote = true) where
  refl _ := rfl
  trans h h' := h'.trans h
  reset h := by cases h
  setExit h := by cases h

section KeepsTime

variable [Device δ] [Coprocessor κ] (ht : KeepsTime δ κ)
include ht

theorem KeepsTime.asksOnly : AsksOnly (fun r => r.isNote = true) δ κ where
  load d a now := List.all_eq_true.mp (ht.load d a now)
  store d a value now := List.all_eq_true.mp (ht.store d a value now)
  read c control word r now := List.all_eq_true.mp (ht.read c control word r now)
  write c control word r value now := List.all_eq_true.mp (ht.write c control word r value now)
  execute c word now := List.all_eq_true.mp (ht.execute c word now)

namespace Machine

variable (m : Machine δ κ) (i : Instruction)

theorem clock_copRead (r : Reg) (control : Bool) : (m.copRead i r control).2.clock = m.clock :=
  Clock.outlasts_notes.copRead ht.asksOnly m i r control

theorem clock_copWrite (r : Reg) (value : UInt32)
    (control : Bool) : (m.copWrite i r value control).clock = m.clock :=
  Clock.outlasts_notes.copWrite ht.asksOnly m i r value control

theorem clock_copExecute : (m.copExecute i).clock = m.clock :=
  Clock.outlasts_notes.copExecute ht.asksOnly m i

/-- A memory instruction leaves the clock alone, or it faults. -/
theorem clock_transfer {i : Instruction} {kind : MemoryAccess} (hk : i.memoryAccess? = some kind)
    (m : Machine δ κ) (base data : UInt32) :
    (m.transfer i base data).machine.clock = m.clock ∨
      (m.transfer i base data).machine.clock = m.clock.setExit { segfault := true } := by
  obtain ⟨c, rfl, h⟩ := Clock.outlasts_notes.transfer ht.asksOnly hk m base data
  exact h

end Machine

end KeepsTime

theorem Clock.current_setExit (c : Clock) (flags : ExitFlags) :
    (c.setExit flags).current = c.current := by
  unfold setExit
  split <;> rfl

theorem Clock.setExit_segfault (c : Clock) : (c.setExit { segfault := true }).exit.segfault = true := by
  show (c.exit.segfault || true) = true
  exact Bool.or_true _

namespace Interpreter

variable [Device δ] [Coprocessor κ]

/-- An instruction leaves the clock alone, or it leaves guest code and says why. -/
theorem clock_execute (ht : KeepsTime δ κ) (m : Machine δ κ) (i : Instruction) (pc : UInt32) :
    (execute m i pc).machine.clock = m.clock ∨
      ∃ flags, (execute m i pc).machine.clock = m.clock.setExit flags ∧
        (execute m i pc).step = .exit pc := by
  rw [execute_eq]
  unfold executeOperation
  cases hop : i.operation with
  | syscall => exact .inr ⟨{ syscall := true }, rfl, rfl⟩
  | breakpoint => exact .inr ⟨{ breakpoint := true }, rfl, rfl⟩
  | unknown => exact .inr ⟨{ unknownOp := true }, rfl, rfl⟩
  | branch condition link =>
    left
    dsimp only
    split
    · cases link <;> rfl
    · cases link <;> rfl
  | copRead control => exact .inl (Machine.clock_copRead ht m i _ _)
  | copWrite control => exact .inl (Machine.clock_copWrite ht m i _ _ _)
  | copExecute => exact .inl (Machine.clock_copExecute ht m i)
  | memory access =>
    have hk := Instruction.memoryAccess?_of_operation hop
    dsimp only [executeAccess]
    rcases Machine.clock_transfer ht hk m (m.regs.get i.rs) (m.regs.get i.rt) with h | h
    · left
      split
      · exact h
      · split
        · exact h
        · exact h
    · right
      rw [h, if_pos (Clock.setExit_segfault _)]
      exact ⟨_, h, rfl⟩
  | _ => exact .inl rfl

end Interpreter

/-! ## Targets -/

theorem ExitFlags.isNormal_union (f g : ExitFlags) :
    (f.union g).isNormal = (f.isNormal && g.isNormal) := by
  simp only [isNormal, union, Bool.not_or]
  grind

/-- A reason to leave stays one. -/
theorem Clock.isNormal_setExit (c : Clock) {flags : ExitFlags} (h : flags.isNormal = false) :
    (c.setExit flags).exit.isNormal = false := by
  rw [setExit, if_neg (by rw [h]; exact Bool.false_ne_true)]
  show (c.exit.union flags).isNormal = false
  rw [ExitFlags.isNormal_union, h, Bool.and_false]

/-- What does not have to stop has cycles left. -/
theorem Clock.lt_target_of_shouldStop {c : Clock} (h : c.shouldStop = false) :
    c.exit.isNormal = true ∧ c.current.toNat < c.target.toNat := by
  unfold shouldStop exhausted at h
  simp only [Bool.or_eq_false_iff, Bool.not_eq_eq_eq_not, Bool.not_false, decide_eq_false_iff_not]
    at h
  exact ⟨h.1, UInt32.not_le.mp h.2⟩

/-- If there is no reason to leave, there was none before, and the target has not moved. -/
def Clock.Follows (c c' : Clock) : Prop :=
  c'.exit.isNormal = true → c.exit.isNormal = true ∧ c'.target = c.target

namespace Clock.Follows

variable {c c' c'' : Clock}

theorem of_eq (hexit : c'.exit = c.exit) (htarget : c'.target = c.target) : c.Follows c' :=
  fun h => ⟨hexit ▸ h, htarget⟩

theorem refl (c : Clock) : c.Follows c := of_eq rfl rfl

theorem trans (h1 : c.Follows c') (h2 : c'.Follows c'') : c.Follows c'' := by
  intro h
  obtain ⟨hexit', htarget'⟩ := h2 h
  obtain ⟨hexit, htarget⟩ := h1 hexit'
  exact ⟨hexit, htarget'.trans htarget⟩

theorem setExit (c : Clock) (flags : ExitFlags) : c.Follows (c.setExit flags) := by
  intro h
  cases hflags : flags.isNormal with
  | true =>
    rw [Clock.setExit, if_pos hflags] at h ⊢
    exact ⟨h, rfl⟩
  | false =>
    rw [isNormal_setExit c hflags] at h
    cases h

end Clock.Follows

/-- Guest code has no other way to move the target than to give a reason to leave. -/
theorem Machine.guestRelation_follows [Device δ] [Coprocessor κ] (ht : KeepsTime δ κ) :
    GuestRelation fun m m' : Machine δ κ => m.clock.Follows m'.clock where
  refl _ := .refl _
  trans := .trans
  setReg _ _ _ := .refl _
  tick _ _ := .of_eq rfl rfl
  setExit m flags := .setExit m.clock flags
  note _ _ := .refl _
  flagRecompile _ _ := .refl _
  copRead m i r control := clock_copRead ht m i r control ▸ .refl _
  copWrite m i r value control := clock_copWrite ht m i r value control ▸ .refl _
  copExecute m i := clock_copExecute ht m i ▸ .refl _
  transfer m i base data := by
    cases hk : i.memoryAccess? with
    | none =>
      unfold transfer
      rw [hk]
      exact .setExit m.clock _
    | some kind =>
      rcases clock_transfer ht hk m base data with h | h
      · exact h ▸ .refl _
      · exact h ▸ .setExit m.clock _

end Dynarec
