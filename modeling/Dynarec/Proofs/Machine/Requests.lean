/-
  Dynarec.Proofs.Machine.Requests

  What devices and coprocessors can do to the clock.

  A device or coprocessor has no hold on the clock but what it asks for. So a
  relation between the clock before and the clock after, if it outlasts every
  request that devices and coprocessors make, outlasts every access to them.
-/
import Dynarec.Proofs.Machine.Changes

namespace Dynarec

variable {δ κ : Type}

/-- Devices and coprocessors ask for what is allowed and nothing else. -/
structure AsksOnly (allowed : Request → Prop) (δ κ : Type) [Device δ] [Coprocessor κ] : Prop where
  load : ∀ (d : δ) (a : BusAccess) (now : UInt32), ∀ r ∈ (Device.load d a now).2.2, allowed r
  store : ∀ (d : δ) (a : BusAccess) (value now : UInt32),
    ∀ r ∈ (Device.store d a value now).2, allowed r
  read : ∀ (c : κ) (control : Bool) (word : UInt32) (reg : Reg) (now : UInt32),
    ∀ r ∈ (Coprocessor.read c control word reg now).2.2, allowed r
  write : ∀ (c : κ) (control : Bool) (word : UInt32) (reg : Reg) (value now : UInt32),
    ∀ r ∈ (Coprocessor.write c control word reg value now).2, allowed r
  execute : ∀ (c : κ) (word now : UInt32), ∀ r ∈ (Coprocessor.execute c word now).2, allowed r

theorem AsksOnly.mono {allowed allowed' : Request → Prop} [Device δ] [Coprocessor κ]
    (h : AsksOnly allowed δ κ) (hle : ∀ r, allowed r → allowed' r) : AsksOnly allowed' δ κ where
  load d a now r hr := hle r (h.load d a now r hr)
  store d a value now r hr := hle r (h.store d a value now r hr)
  read c control word reg now r hr := hle r (h.read c control word reg now r hr)
  write c control word reg value now r hr := hle r (h.write c control word reg value now r hr)
  execute c word now r hr := hle r (h.execute c word now r hr)

/-- What may be asked for keeps clocks related. -/
structure Clock.Outlasts (R : Clock → Clock → Prop) (allowed : Request → Prop) : Prop where
  refl : ∀ c, R c c
  trans : ∀ {c c' c''}, R c c' → R c' c'' → R c c''
  reset : ∀ {cycles}, allowed (.resetCycle cycles) → ∀ c : Clock, R c (c.reset cycles)
  setExit : ∀ {flags}, allowed (.exit flags) → ∀ c : Clock, R c (c.setExit flags)

namespace Clock.Outlasts

variable {R : Clock → Clock → Prop} {allowed : Request → Prop} (hR : Outlasts R allowed)
include hR

theorem grantAll {requests : List Request} (h : ∀ r ∈ requests, allowed r) {m : Machine δ κ}
    {c : Clock} (hclock : m.clock = c) : R c (m.grantAll requests).clock := by
  induction requests generalizing m c with
  | nil => exact hclock ▸ hR.refl _
  | cons request requests ih =>
    obtain ⟨hrequest, hrest⟩ := List.forall_mem_cons.mp h
    refine hR.trans ?_ (ih hrest rfl)
    subst hclock
    cases request with
    | resetCycle cycles => exact hR.reset hrequest _
    | exit flags => exact hR.setExit hrequest _
    | note n => exact hR.refl _

variable [Device δ] [Coprocessor κ] (ha : AsksOnly allowed δ κ)
include ha

variable (m : Machine δ κ) (i : Instruction)

theorem copRead (r : Reg) (control : Bool) : R m.clock (m.copRead i r control).2.clock := by
  unfold Machine.copRead
  split
  · exact hR.grantAll (ha.read m.cop0 control i.word r m.clock.current) rfl
  · exact hR.grantAll (ha.read m.cop2 control i.word r m.clock.current) rfl

theorem copWrite (r : Reg) (value : UInt32) (control : Bool) :
    R m.clock (m.copWrite i r value control).clock := by
  unfold Machine.copWrite
  split
  · exact hR.grantAll (ha.write m.cop0 control i.word r value m.clock.current) rfl
  · exact hR.grantAll (ha.write m.cop2 control i.word r value m.clock.current) rfl

theorem copExecute : R m.clock (m.copExecute i).clock := by
  unfold Machine.copExecute
  split
  · exact hR.trans (hR.copRead ha m i _ _) (hR.copWrite ha _ i _ _ _)
  · split
    · exact hR.grantAll (ha.execute m.cop0 i.word m.clock.current) rfl
    · exact hR.grantAll (ha.execute m.cop2 i.word m.clock.current) rfl

theorem load (r : Resolved) (word addr : UInt32) (size : AccessSize) :
    R m.clock (m.load r word addr size).2.clock := by
  unfold Machine.load
  split
  · split
    · exact hR.refl _
    · split <;> exact hR.refl _
  · unfold Memory.callDevice
    dsimp only
    cases m.memory.contents[r.index]? with
    | none => exact hR.refl _
    | some content =>
      cases content with
      | bytes | none => exact hR.refl _
      | device d =>
        exact hR.grantAll (ha.load d { word, addr := r.paddr, size } m.clock.current) rfl

theorem store (r : Resolved) (word addr : UInt32) (size : AccessSize)
    (value : UInt32) : R m.clock (m.store r word addr size value).2.clock := by
  unfold Machine.store
  split
  · split
    · exact hR.refl _
    · split
      · exact hR.refl _
      · split
        · dsimp only [Machine.invalidateByGuest]
          split <;> exact hR.refl _
        · exact hR.refl _
  · unfold Memory.callDevice
    dsimp only
    cases m.memory.contents[r.index]? with
    | none => exact hR.refl _
    | some content =>
      cases content with
      | bytes | none => exact hR.refl _
      | device d =>
        exact hR.grantAll (ha.store d { word, addr := r.paddr, size } (size.truncate value)
          m.clock.current) rfl

theorem access (kind : MemoryAccess) (word addr value : UInt32) :
    R m.clock (m.access kind word addr value).2.clock :=
  Machine.access_induction (P := fun m m' => R m.clock m'.clock) (fun _ => hR.refl _) hR.trans
    (hR.load ha) (fun m _ r _ => hR.store ha m r) m kind word addr value

/-- A memory instruction does to the clock what devices and coprocessors ask for, and then it may
fault. -/
theorem transfer {i : Instruction} {kind : MemoryAccess} (hk : i.memoryAccess? = some kind)
    (m : Machine δ κ) (base data : UInt32) :
    ∃ c, R m.clock c ∧ ((m.transfer i base data).machine.clock = c ∨
      (m.transfer i base data).machine.clock = c.setExit { segfault := true }) := by
  rw [Machine.transfer_of_some hk]
  have hsupply : R m.clock (m.supply i kind data).2.clock := by
    cases kind with
    | swc2 => exact hR.copRead ha m i _ _
    | _ => exact hR.refl _
  have h := hR.trans hsupply
    (hR.access ha _ kind i.word (base + i.simm) (m.supply i kind data).1)
  generalize (m.supply i kind data).2.access kind i.word (base + i.simm)
    (m.supply i kind data).1 = answer at h ⊢
  rcases answer with ⟨fault | ⟨loaded, region⟩, m'⟩
  · exact ⟨m'.clock, h, .inr rfl⟩
  · cases kind with
    | lwc2 => exact ⟨_, hR.trans h (hR.copWrite ha m' i _ _ _), .inl rfl⟩
    | _ =>
      exact ⟨m'.clock, h, .inl rfl⟩

end Clock.Outlasts

end Dynarec
