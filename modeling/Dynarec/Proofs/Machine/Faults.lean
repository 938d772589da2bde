/-
  Dynarec.Proofs.Machine.Faults

  Accesses that fault.

  Every fault is found before anything is touched. An unaligned store reads the
  word around its address before it writes it, which may call a device; but
  where that read went well the write cannot fault any more, so a fault of the
  access is one of the read.
-/
import Dynarec.Proofs.Machine.Agreement
import Dynarec.Proofs.Memory

namespace Dynarec

variable {δ κ : Type}

/-- A device that was called is still there. -/
theorem Memory.device_of_callDevice {α : Type} {m m' : Memory δ} {index : Nat} {f : δ → α × δ} {a : α}
    (h : m.callDevice index f = (some a, m')) : ∃ d, m'.contents[index]? = some (.device d) := by
  unfold callDevice at h
  split at h
  · rename_i d hd
    cases h
    have hlt : index < m.contents.size := (Array.getElem?_eq_some_iff.mp hd).1
    exact ⟨_, Array.getElem?_setIfInBounds_self_of_lt (by simpa using hlt)⟩
  · cases h

/-- No device, no change. -/
theorem Memory.eq_of_callDevice_none {α : Type} {m m' : Memory δ} {index : Nat} {f : δ → α × δ}
    (h : m.callDevice index f = (none, m')) : m' = m := by
  unfold callDevice at h
  split at h
  · cases h
  · cases h
    rfl

namespace Machine

/-- What devices and coprocessors can ask for concerns clock and log. -/
theorem grantAll_eq (m : Machine δ κ) (requests : List Request) :
    ∃ clock log, m.grantAll requests = { m with clock, log } := by
  induction requests generalizing m with
  | nil => exact ⟨_, _, rfl⟩
  | cons request rest ih =>
    obtain ⟨clock, log, h⟩ := ih (m.grant request)
    refine ⟨clock, log, h.trans ?_⟩
    cases request <;> rfl

/-! ## Loads and stores -/

section Access

variable [Device δ] {m m' : Machine δ κ} {r : Resolved} {word addr value v : UInt32}
  {size : AccessSize} {fault : Fault}

theorem load_error (h : m.load r word addr size = (.error fault, m')) : m' = m := by
  unfold load at h
  split at h
  · split at h
    · cases h
      rfl
    · split at h
      · cases h
      · cases h
        rfl
  · dsimp only at h
    split at h
    · rename_i memory hcall
      cases h
      rw [Memory.eq_of_callDevice_none hcall]
    · cases h

theorem store_error (h : m.store r word addr size value = (some fault, m')) : m' = m := by
  unfold store at h
  split at h
  · split at h
    · cases h
    · split at h
      · cases h
        rfl
      · split at h
        · cases h
        · cases h
          rfl
  · dsimp only at h
    split at h
    · rename_i memory hcall
      cases h
      rw [Memory.eq_of_callDevice_none hcall]
    · cases h

/-- A device can always be written. -/
theorem store_of_device {d : δ} (hkind : r.kind = .device)
    (hd : m.memory.contents[r.index]? = some (.device d)) :
    (m.store r word addr size value).1 = none := by
  unfold store
  simp only [hkind]
  split
  · rename_i memory hnone
    unfold Memory.callDevice at hnone
    rw [hd] at hnone
    cases hnone
  · rfl

/-- What could be read can be written. -/
theorem store_of_load (h : m.load r word addr size = (.ok v, m')) (word' addr' : UInt32) :
    (m'.store r word' addr' size value).1 = none := by
  unfold load at h
  cases hkind : r.kind with
  | direct =>
    simp only [hkind] at h
    split at h
    · cases h
    · rename_i data hdata
      split at h
      · rename_i hfits
        cases h
        unfold store
        simp only [hkind]
        split
        · rfl
        · rw [Memory.size?_eq_map, hdata]
          exact congrArg Prod.fst (if_pos hfits)
      · cases h
  | device =>
    simp only [hkind] at h
    split at h
    · cases h
    · rename_i value requests memory hcall
      cases h
      -- the device is back in its place after the read
      obtain ⟨d, hd⟩ := Memory.device_of_callDevice hcall
      obtain ⟨clock, log, hgrant⟩ := grantAll_eq { m with memory } requests
      refine store_of_device hkind (d := d) ?_
      rw [hgrant]
      exact hd

theorem loadAligned_error (h : m.loadAligned word addr = (.error fault, m')) : m' = m := by
  unfold loadAligned at h
  split at h
  · cases h
    rfl
  · rename_i r _
    rcases hload : m.load r word (aligned addr) .word with ⟨fault' | v, m''⟩
    · rw [hload] at h
      cases h
      exact load_error hload
    · rw [hload] at h
      cases h

/-- A word that was read for an unaligned store can be written back. -/
theorem store_of_loadAligned (h : m.loadAligned word addr = (.ok (r, v), m')) :
    (m'.store r word (aligned addr) .word value).1 = none := by
  unfold loadAligned at h
  split at h
  · cases h
  · rename_i r' _
    rcases hload : m.load r' word (aligned addr) .word with ⟨fault' | v', m''⟩
    · rw [hload] at h
      cases h
    · rw [hload] at h
      cases h
      exact store_of_load hload word (aligned addr)

theorem extendedLoad_error {extend : UInt32 → UInt32}
    (h : m.extendedLoad r word addr size extend = (.error fault, m')) : m' = m := by
  unfold extendedLoad at h
  rcases hload : m.load r word addr size with ⟨fault' | v, m''⟩
  · rw [hload] at h
    cases h
    exact load_error hload
  · rw [hload] at h
    cases h

theorem plainStore_error (h : m.plainStore r word addr size value = (.error fault, m')) :
    m' = m := by
  unfold plainStore at h
  rcases hstore : m.store r word addr size value with ⟨_ | fault', m''⟩
  · rw [hstore] at h
    cases h
  · rw [hstore] at h
    cases h
    exact store_error hstore

variable {merge : UInt32 → UInt32 → UInt32 → UInt32}

theorem mergedLoad_error {kind : RegionKind}
    (h : m.mergedLoad kind word addr value merge = (.error fault, m')) : m' = m := by
  unfold mergedLoad at h
  rcases hload : m.loadAligned word addr with ⟨fault' | ⟨around, mem⟩, m''⟩
  · rw [hload] at h
    cases h
    exact loadAligned_error hload
  · rw [hload] at h
    cases h

theorem mergedStore_error {kind : RegionKind}
    (h : m.mergedStore kind word addr value merge = (.error fault, m')) : m' = m := by
  unfold mergedStore at h
  rcases hload : m.loadAligned word addr with ⟨fault' | ⟨around, mem⟩, m''⟩
  · rw [hload] at h
    cases h
    exact loadAligned_error hload
  · rw [hload] at h
    dsimp only at h
    have hwrites : (m''.store around word (aligned addr) .word (merge value mem (lane addr))).1 = none :=
      store_of_loadAligned hload
    generalize m''.store around word (aligned addr) .word (merge value mem (lane addr)) = answer
      at h hwrites
    rcases answer with ⟨_ | fault', m3⟩
    · cases h
    · cases hwrites

/-- An access that faults has not changed anything. -/
theorem access_error {kind : MemoryAccess}
    (h : m.access kind word addr value = (.error fault, m')) : m' = m := by
  unfold access at h
  split at h
  · cases h
    rfl
  · cases kind with
    | lb | lbu | lh | lhu | lw | lwc2 => exact extendedLoad_error h
    | lwl | lwr => exact mergedLoad_error h
    | sb | sh | sw | swc2 => exact plainStore_error h
    | swl | swr => exact mergedStore_error h

end Access

/-! ## Memory instructions -/

variable [Device δ] [Coprocessor κ]

/-- The machine when an access is made: for a store of the coprocessor it has been asked for the
data. -/
def fetched (m : Machine δ κ) (i : Instruction) : Machine δ κ :=
  if i.memoryAccess? = some .swc2 then (m.copRead i i.rt false).2 else m

/-- The access of a memory instruction with these values of its base and data registers faults. -/
def AccessFaults (m : Machine δ κ) (i : Instruction) (base data : UInt32) : Prop :=
  ∃ kind fault, i.memoryAccess? = some kind ∧
    ((m.supply i kind data).2.access kind i.word (base + i.simm) (m.supply i kind data).1).1 =
      .error fault

/-- The fault of the access, if there is one. -/
def accessFault? (m : Machine δ κ) (i : Instruction) (base data : UInt32) : Option Fault :=
  match i.memoryAccess? with
  | none => none
  | some kind =>
    match ((m.supply i kind data).2.access kind i.word (base + i.simm) (m.supply i kind data).1).1 with
    | .error fault => some fault
    | .ok _ => none

variable {i : Instruction}

theorem isSome_accessFault? {m : Machine δ κ} {base data : UInt32} :
    (m.accessFault? i base data).isSome = true ↔ m.AccessFaults i base data := by
  unfold accessFault? AccessFaults
  constructor
  · intro h
    split at h
    · cases h
    · rename_i kind hk
      split at h
      · rename_i fault hfault
        exact ⟨kind, fault, hk, hfault⟩
      · cases h
  · rintro ⟨kind, fault, hk, hfault⟩
    rw [hk]
    dsimp only
    rw [hfault]
    rfl

instance (m : Machine δ κ) (i : Instruction) (base data : UInt32) :
    Decidable (m.AccessFaults i base data) :=
  decidable_of_iff _ isSome_accessFault?

/-- `m'` is what instruction `i` leaves of `m` when all it does is fault. -/
structure OnlyFaults (m : Machine δ κ) (i : Instruction) (m' : Machine δ κ) : Prop where
  regs : m'.regs = m.regs
  /-- All bytes and all devices. -/
  memory : m'.memory = m.memory
  entries : m'.entries = m.entries
  cop0 : m'.cop0 = m.cop0
  hostInvalidationOnly : m'.hostInvalidationOnly = m.hostInvalidationOnly
  cop2 : m'.cop2 = (m.fetched i).cop2
  current : m'.clock.current = (m.fetched i).clock.current
  exit : m'.clock.exit = (m.fetched i).clock.exit.union { segfault := true }
  target : m'.clock.target = (m.fetched i).clock.current

omit [Device δ] in
theorem snd_supply {kind : MemoryAccess} (hk : i.memoryAccess? = some kind) (m : Machine δ κ)
    (data : UInt32) : (m.supply i kind data).2 = m.fetched i := by
  unfold fetched
  cases kind with
  | swc2 =>
    rw [if_pos hk]
    rfl
  | _ =>
    rw [if_neg (by simp [hk])]
    rfl

omit [Device δ] in
/-- Asking for the data of a store concerns the second coprocessor, clock and log. -/
theorem fetched_eq (m : Machine δ κ) (i : Instruction) :
    ∃ cop2 clock log, m.fetched i = { m with cop2, clock, log } := by
  unfold fetched
  split
  · rename_i hk
    have hcop : i.isCop0 = false := by
      unfold Instruction.memoryAccess? at hk
      unfold Instruction.isCop0
      split at hk <;> simp_all
    unfold copRead
    rw [if_neg (by simp [hcop])]
    dsimp only
    obtain ⟨clock, log, h⟩ := grantAll_eq { m with
      cop2 := (Coprocessor.read m.cop2 false i.word i.rt m.clock.current).2.1 }
      (Coprocessor.read m.cop2 false i.word i.rt m.clock.current).2.2
    exact ⟨_, clock, log, h⟩
  · exact ⟨_, _, _, rfl⟩

/-- A memory instruction whose access faults yields zero, names no kind of memory and records the
fault. -/
theorem transfer_of_accessFaults {m : Machine δ κ} {base data : UInt32}
    (h : m.AccessFaults i base data) :
    (m.transfer i base data).value = 0 ∧ (m.transfer i base data).kind = none ∧
      m.OnlyFaults i (m.transfer i base data).machine := by
  obtain ⟨kind, fault, hk, hfault⟩ := h
  rw [transfer_of_some hk]
  rcases haccess : (m.supply i kind data).2.access kind i.word (base + i.simm)
    (m.supply i kind data).1 with ⟨fault' | loaded, m'⟩
  · have hm' := access_error haccess
    rw [snd_supply hk] at hm'
    subst hm'
    obtain ⟨cop2, clock, log, hfetched⟩ := m.fetched_eq i
    refine ⟨rfl, rfl, ?_⟩
    constructor <;> simp only [deliver, setExit, note, hfetched] <;> rfl
  · rw [haccess] at hfault
    cases hfault

end Machine

end Dynarec
