/-
  Dynarec.Proofs.Machine.Agreement

  Two machines that guest code cannot tell apart.

  `Agrees E R a b` says that `a` and `b` have the same cycle count, exit
  reasons, memory, devices and coprocessors. Their tables of entries are
  related by `E`, their register files by `R`, and cycle budgets and logs are
  free. Accesses and coprocessor calls give the same answers on both and leave
  machines that agree in the same way, as long as invalidations keep `E`.
-/
import Dynarec.Machine.Access
import Dynarec.Proofs.EntryTable

namespace Dynarec

/-- Invalidating the same range keeps tables of entries related. -/
def EntryTable.Respects (E : EntryTable → EntryTable → Prop) : Prop :=
  ∀ ⦃t u : EntryTable⦄ (addr length : UInt32), E t u →
    E (t.invalidate addr length).2 (u.invalidate addr length).2

theorem EntryTable.respects_true : EntryTable.Respects fun _ _ => True := fun _ _ _ _ _ => trivial

/-- Where no code can be there is nothing to invalidate. -/
theorem EntryTable.invalidate_of_not_mayReach {t : EntryTable} {addr length : UInt32}
    (h : t.mayReach addr length = false) : t.invalidate addr length = (0, t) := by
  unfold EntryTable.mayReach at h
  unfold EntryTable.invalidate
  split
  · rfl
  · cases hloc : t.locate (addr &&& 0xfffffffc) with
    | none => rfl
    | some p =>
      rw [hloc] at h
      dsimp only at h ⊢
      rw [h]
      rfl

namespace Machine

variable {δ κ : Type}

/-! ## The parts of a memory instruction -/

section Transfer

variable [Device δ] [Coprocessor κ]

/-- The data of an access, and the machine after it was fetched. -/
def supply (m : Machine δ κ) (i : Instruction) (kind : MemoryAccess) (data : UInt32) :
    UInt32 × Machine δ κ :=
  match kind with
  | .swc2 => m.copRead i i.rt false
  | _ => (data, m)

/-- What a memory instruction makes of its access. -/
def deliver (i : Instruction) (kind : MemoryAccess) :
    Except Fault (UInt32 × RegionKind) × Machine δ κ → Transfer δ κ
  | (.ok (loaded, region), m) =>
    match kind with
    | .lwc2 => { value := 0, kind := some region, machine := m.copWrite i i.rt loaded false }
    | _ => { value := loaded, kind := some region, machine := m }
  | (.error fault, m) =>
    { value := 0, kind := none
      machine := (m.note (.segmentationFault kind.isStore fault)).setExit { segfault := true } }

theorem transfer_of_some {i : Instruction} {kind : MemoryAccess} (hk : i.memoryAccess? = some kind)
    (m : Machine δ κ) (base data : UInt32) :
    m.transfer i base data =
      deliver i kind ((m.supply i kind data).2.access kind i.word (base + i.simm)
        (m.supply i kind data).1) := by
  unfold Machine.transfer
  rw [hk]
  cases kind with
  | swc2 =>
    dsimp only [supply]
    rcases m.copRead i i.rt false with ⟨value, m'⟩
    dsimp only
    rcases m'.access .swc2 i.word (base + i.simm) value with ⟨_ | ⟨loaded, region⟩, m''⟩ <;> rfl
  | _ =>
    dsimp only [supply]
    rcases m.access _ i.word (base + i.simm) data with ⟨_ | ⟨loaded, region⟩, m''⟩ <;> rfl

/-- Whether an access looks at the data register. -/
def readsData (kind : MemoryAccess) : Bool :=
  (kind.isStore && kind ≠ .swc2) || kind = .lwl || kind = .lwr

/-- Other accesses do the same whatever data they are given. -/
theorem transfer_of_not_readsData {i : Instruction} {kind : MemoryAccess}
    (hk : i.memoryAccess? = some kind) (hr : readsData kind = false) (m : Machine δ κ)
    (base data data' : UInt32) : m.transfer i base data = m.transfer i base data' := by
  rw [transfer_of_some hk, transfer_of_some hk]
  cases kind with
  | sb | sh | sw | swl | swr | lwl | lwr => cases hr
  | lb | lbu | lh | lhu | lw | lwc2 | swc2 => rfl

end Transfer

/-! ## Agreement -/

/-- The machines differ at most in registers, entries, cycle budget and log. -/
structure Agrees (E : EntryTable → EntryTable → Prop) (R : Registers → Registers → Prop)
    (a b : Machine δ κ) : Prop where
  regs : R a.regs b.regs
  current : a.clock.current = b.clock.current
  exit : a.clock.exit = b.clock.exit
  memory : a.memory = b.memory
  cop0 : a.cop0 = b.cop0
  cop2 : a.cop2 = b.cop2
  entries : E a.entries b.entries
  hostInvalidationOnly : a.hostInvalidationOnly = b.hostInvalidationOnly

variable {E : EntryTable → EntryTable → Prop} {R : Registers → Registers → Prop}
  {a b : Machine δ κ}

namespace Agrees

/-! ## Small changes -/

section

variable (h : Agrees E R a b)
include h

theorem note_left (n : Notice) : Agrees E R (a.note n) b := { h with }

theorem note_right (n : Notice) : Agrees E R a (b.note n) := { h with }

variable {S : Registers → Registers → Prop}

theorem withRegs {x y : Registers}
    (hxy : S x y) : Agrees E S { a with regs := x } { b with regs := y } := { h with regs := hxy }

theorem imp
    (hRS : R a.regs b.regs → S a.regs b.regs) : Agrees E S a b := { h with regs := hRS h.regs }

theorem setExit (flags : ExitFlags) : Agrees E R (a.setExit flags) (b.setExit flags) := by
  unfold Machine.setExit Clock.setExit
  split
  · exact { h with }
  · exact { h with exit := by simp only [h.exit] }

theorem tick (cycles : UInt32) : Agrees E R (a.tick cycles) (b.tick cycles) :=
  { h with current := by simp only [Machine.tick, Clock.add, h.current] }

theorem grant (r : Request) : Agrees E R (a.grant r) (b.grant r) := by
  cases r with
  | resetCycle cycles => exact { h with current := rfl }
  | exit flags => exact h.setExit flags
  | note n => exact (h.note_left n).note_right n

theorem grantAll (rs : List Request) : Agrees E R (a.grantAll rs) (b.grantAll rs) := by
  induction rs generalizing a b with
  | nil => exact h
  | cons r rs ih => exact ih (h.grant r)

theorem withMemory (m : Memory δ) :
    Agrees E R { a with memory := m } { b with memory := m } := { h with memory := rfl }

theorem withCops (c d : κ) :
    Agrees E R { a with cop0 := c, cop2 := d } { b with cop0 := c, cop2 := d } :=
  { h with cop0 := rfl, cop2 := rfl }

end

/-! ## Invalidation -/

theorem invalidateByGuest (hE : EntryTable.Respects E) (h : Agrees E R a b) (addr length : UInt32) :
    Agrees E R (a.invalidateByGuest addr length) (b.invalidateByGuest addr length) := by
  have ht := hE addr length h.entries
  unfold Machine.invalidateByGuest
  rw [h.hostInvalidationOnly]
  cases b.hostInvalidationOnly with
  | true => exact h
  | false =>
    -- a machine that skips the invalidation has nothing to invalidate
    cases ha : a.entries.mayReach addr length with
    | true =>
      cases hb : b.entries.mayReach addr length with
      | true => exact { h with entries := ht }
      | false =>
        rw [EntryTable.invalidate_of_not_mayReach hb] at ht
        exact { h with entries := ht }
    | false =>
      rw [EntryTable.invalidate_of_not_mayReach ha] at ht
      cases hb : b.entries.mayReach addr length with
      | true => exact { h with entries := ht }
      | false => exact h

/-! ## Coprocessors -/

section Coprocessors

variable [Coprocessor κ]

theorem copRead (h : Agrees E R a b) (i : Instruction) (r : Reg) (control : Bool) :
    (a.copRead i r control).1 = (b.copRead i r control).1 ∧
      Agrees E R (a.copRead i r control).2 (b.copRead i r control).2 := by
  unfold Machine.copRead
  rw [h.cop0, h.cop2, h.current]
  split
  · rcases Coprocessor.read b.cop0 control i.word r b.clock.current with ⟨value, c, requests⟩
    exact ⟨rfl, (h.withCops c b.cop2).grantAll requests⟩
  · rcases Coprocessor.read b.cop2 control i.word r b.clock.current with ⟨value, c, requests⟩
    exact ⟨rfl, (h.withCops b.cop0 c).grantAll requests⟩

theorem copWrite (h : Agrees E R a b) (i : Instruction) (r : Reg) (value : UInt32)
    (control : Bool) :
    Agrees E R (a.copWrite i r value control) (b.copWrite i r value control) := by
  unfold Machine.copWrite
  rw [h.cop0, h.cop2, h.current]
  split
  · rcases Coprocessor.write b.cop0 control i.word r value b.clock.current with ⟨c, requests⟩
    exact (h.withCops c b.cop2).grantAll requests
  · rcases Coprocessor.write b.cop2 control i.word r value b.clock.current with ⟨c, requests⟩
    exact (h.withCops b.cop0 c).grantAll requests

theorem copExecute (h : Agrees E R a b) (i : Instruction) :
    Agrees E R (a.copExecute i) (b.copExecute i) := by
  unfold Machine.copExecute
  split
  · obtain ⟨hv, hm⟩ := h.copRead i statusRegister false
    rcases ha : a.copRead i statusRegister false with ⟨status, m⟩
    rcases hb : b.copRead i statusRegister false with ⟨status', m'⟩
    rw [ha, hb] at hv hm
    cases hv
    exact hm.copWrite i statusRegister _ false
  · rw [h.cop0, h.cop2, h.current]
    split
    · rcases Coprocessor.execute b.cop0 i.word b.clock.current with ⟨c, requests⟩
      exact (h.withCops c b.cop2).grantAll requests
    · rcases Coprocessor.execute b.cop2 i.word b.clock.current with ⟨c, requests⟩
      exact (h.withCops b.cop0 c).grantAll requests

theorem supply (h : Agrees E R a b) (i : Instruction) (kind : MemoryAccess) (data : UInt32) :
    (a.supply i kind data).1 = (b.supply i kind data).1 ∧
      Agrees E R (a.supply i kind data).2 (b.supply i kind data).2 := by
  cases kind with
  | swc2 => exact h.copRead i i.rt false
  | _ => exact ⟨rfl, h⟩

theorem deliver (i : Instruction) (kind : MemoryAccess)
    {x y : Except Fault (UInt32 × RegionKind) × Machine δ κ} (hv : x.1 = y.1)
    (hm : Agrees E R x.2 y.2) :
    (Machine.deliver i kind x).value = (Machine.deliver i kind y).value ∧
      (Machine.deliver i kind x).kind = (Machine.deliver i kind y).kind ∧
      Agrees E R (Machine.deliver i kind x).machine (Machine.deliver i kind y).machine := by
  obtain ⟨v, m⟩ := x
  obtain ⟨w, m'⟩ := y
  cases hv
  cases v with
  | error fault => exact ⟨rfl, rfl, ((hm.note_left _).note_right _).setExit _⟩
  | ok found =>
    cases kind with
    | lwc2 => exact ⟨rfl, rfl, hm.copWrite i i.rt found.1 false⟩
    | _ =>
      exact ⟨rfl, rfl, hm⟩

end Coprocessors

/-! ## Accesses -/

variable [Device δ]

theorem load (h : Agrees E R a b) (r : Resolved) (word addr : UInt32) (size : AccessSize) :
    (a.load r word addr size).1 = (b.load r word addr size).1 ∧
      Agrees E R (a.load r word addr size).2 (b.load r word addr size).2 := by
  unfold Machine.load
  rw [h.memory, h.current]
  cases r.kind with
  | direct =>
    dsimp only
    cases b.memory.bytes? r.index with
    | none => exact ⟨rfl, h⟩
    | some data =>
      dsimp only
      split <;> exact ⟨rfl, h⟩
  | device =>
    dsimp only
    split
    · exact ⟨rfl, h.withMemory _⟩
    · exact ⟨rfl, (h.withMemory _).grantAll _⟩

theorem store (hE : EntryTable.Respects E) (h : Agrees E R a b) (r : Resolved) (word addr : UInt32)
    (size : AccessSize) (value : UInt32) :
    (a.store r word addr size value).1 = (b.store r word addr size value).1 ∧
      Agrees E R (a.store r word addr size value).2 (b.store r word addr size value).2 := by
  unfold Machine.store
  rw [h.memory, h.current]
  cases r.kind with
  | direct =>
    dsimp only
    split
    · exact ⟨rfl, (h.note_left _).note_right _⟩
    · cases b.memory.size? r.index with
      | none => exact ⟨rfl, h⟩
      | some limit =>
        dsimp only
        split
        · exact ⟨rfl, (h.withMemory _).invalidateByGuest hE _ _⟩
        · exact ⟨rfl, h⟩
  | device =>
    dsimp only
    split
    · exact ⟨rfl, h.withMemory _⟩
    · exact ⟨rfl, (h.withMemory _).grantAll _⟩

theorem loadAligned (h : Agrees E R a b) (word addr : UInt32) :
    (a.loadAligned word addr).1 = (b.loadAligned word addr).1 ∧
      Agrees E R (a.loadAligned word addr).2 (b.loadAligned word addr).2 := by
  unfold Machine.loadAligned
  rw [h.memory]
  cases b.memory.layout.resolve (aligned addr) with
  | error f => exact ⟨rfl, h⟩
  | ok r =>
    obtain ⟨hv, hm⟩ := h.load r word (aligned addr) .word
    dsimp only
    rcases ha : a.load r word (aligned addr) .word with ⟨x, m⟩
    rcases hb : b.load r word (aligned addr) .word with ⟨y, m'⟩
    rw [ha, hb] at hv hm
    cases hv
    cases x with
    | error f => exact ⟨rfl, hm⟩
    | ok value => exact ⟨rfl, hm⟩

theorem extendedLoad (h : Agrees E R a b) (r : Resolved) (word addr : UInt32) (size : AccessSize)
    (extend : UInt32 → UInt32) :
    (a.extendedLoad r word addr size extend).1 = (b.extendedLoad r word addr size extend).1 ∧
      Agrees E R (a.extendedLoad r word addr size extend).2
        (b.extendedLoad r word addr size extend).2 := by
  obtain ⟨hv, hm⟩ := h.load r word addr size
  unfold Machine.extendedLoad
  rcases ha : a.load r word addr size with ⟨x, m⟩
  rcases hb : b.load r word addr size with ⟨y, m'⟩
  rw [ha, hb] at hv hm
  cases hv
  cases x with
  | error f => exact ⟨rfl, hm⟩
  | ok value => exact ⟨rfl, hm⟩

theorem plainStore (hE : EntryTable.Respects E) (h : Agrees E R a b) (r : Resolved)
    (word addr : UInt32) (size : AccessSize) (value : UInt32) :
    (a.plainStore r word addr size value).1 = (b.plainStore r word addr size value).1 ∧
      Agrees E R (a.plainStore r word addr size value).2 (b.plainStore r word addr size value).2 := by
  obtain ⟨hv, hm⟩ := h.store hE r word addr size value
  unfold Machine.plainStore
  rcases ha : a.store r word addr size value with ⟨x, m⟩
  rcases hb : b.store r word addr size value with ⟨y, m'⟩
  rw [ha, hb] at hv hm
  cases hv
  cases x with
  | none => exact ⟨rfl, hm⟩
  | some f => exact ⟨rfl, hm⟩

theorem mergedLoad (h : Agrees E R a b) (kind : RegionKind) (word addr value : UInt32)
    (merge : UInt32 → UInt32 → UInt32 → UInt32) :
    (a.mergedLoad kind word addr value merge).1 = (b.mergedLoad kind word addr value merge).1 ∧
      Agrees E R (a.mergedLoad kind word addr value merge).2
        (b.mergedLoad kind word addr value merge).2 := by
  obtain ⟨hv, hm⟩ := h.loadAligned word addr
  unfold Machine.mergedLoad
  rcases ha : a.loadAligned word addr with ⟨x, m⟩
  rcases hb : b.loadAligned word addr with ⟨y, m'⟩
  rw [ha, hb] at hv hm
  cases hv
  cases x with
  | error f => exact ⟨rfl, hm⟩
  | ok value => exact ⟨rfl, hm⟩

theorem mergedStore (hE : EntryTable.Respects E) (h : Agrees E R a b) (kind : RegionKind)
    (word addr value : UInt32) (merge : UInt32 → UInt32 → UInt32 → UInt32) :
    (a.mergedStore kind word addr value merge).1 = (b.mergedStore kind word addr value merge).1 ∧
      Agrees E R (a.mergedStore kind word addr value merge).2
        (b.mergedStore kind word addr value merge).2 := by
  obtain ⟨hv, hm⟩ := h.loadAligned word addr
  unfold Machine.mergedStore
  rcases ha : a.loadAligned word addr with ⟨x, m⟩
  rcases hb : b.loadAligned word addr with ⟨y, m'⟩
  rw [ha, hb] at hv hm
  cases hv
  cases x with
  | error f => exact ⟨rfl, hm⟩
  | ok found =>
    obtain ⟨around, mem⟩ := found
    dsimp only
    obtain ⟨hv', hm'⟩ := hm.store hE around word (aligned addr) .word (merge value mem (lane addr))
    rcases ha' : m.store around word (aligned addr) .word (merge value mem (lane addr)) with ⟨x', n⟩
    rcases hb' : m'.store around word (aligned addr) .word (merge value mem (lane addr)) with
      ⟨y', n'⟩
    rw [ha', hb'] at hv' hm'
    cases hv'
    cases x' with
    | none => exact ⟨rfl, hm'⟩
    | some f => exact ⟨rfl, hm'⟩

theorem access (hE : EntryTable.Respects E) (h : Agrees E R a b) (kind : MemoryAccess)
    (word addr value : UInt32) :
    (a.access kind word addr value).1 = (b.access kind word addr value).1 ∧
      Agrees E R (a.access kind word addr value).2 (b.access kind word addr value).2 := by
  unfold Machine.access
  rw [h.memory]
  cases b.memory.layout.resolve addr with
  | error f => exact ⟨rfl, h⟩
  | ok r =>
    cases kind with
    | lb | lbu | lh | lhu | lw | lwc2 => exact h.extendedLoad r word addr _ _
    | lwl | lwr => exact h.mergedLoad r.kind word addr value _
    | sb | sh | sw | swc2 => exact h.plainStore hE r word addr _ value
    | swl | swr => exact h.mergedStore hE r.kind word addr value _

variable [Coprocessor κ]

/-- A memory instruction loads the same value on machines that agree. -/
theorem transfer (hE : EntryTable.Respects E) (h : Agrees E R a b) (i : Instruction)
    (base data : UInt32) :
    (a.transfer i base data).value = (b.transfer i base data).value ∧
      (a.transfer i base data).kind = (b.transfer i base data).kind ∧
      Agrees E R (a.transfer i base data).machine (b.transfer i base data).machine := by
  cases hk : i.memoryAccess? with
  | none =>
    unfold Machine.transfer
    rw [hk]
    exact ⟨rfl, rfl, ((h.note_left _).note_right _).setExit _⟩
  | some kind =>
    rw [transfer_of_some hk, transfer_of_some hk]
    obtain ⟨hd, hs⟩ := h.supply i kind data
    rw [hd]
    obtain ⟨hv, hm⟩ := hs.access hE kind i.word (base + i.simm) (b.supply i kind data).1
    exact deliver i kind hv hm

end Agrees

/-! ## What a machine has in common with itself -/

theorem agrees_self {m : Machine δ κ} (hR : R m.regs m.regs) : Agrees (fun _ _ => True) R m m :=
  { regs := hR, current := rfl, exit := rfl, memory := rfl, cop0 := rfl, cop2 := rfl, entries := trivial
    hostInvalidationOnly := rfl }

section Registers

variable [Coprocessor κ]

-- each of these reads the left register file off a machine that agrees with itself

variable (m : Machine δ κ) (i : Instruction)

theorem regs_copRead (r : Reg) (control : Bool) : (m.copRead i r control).2.regs = m.regs :=
  ((agrees_self (R := fun x _ => x = m.regs) rfl).copRead i r control).2.regs

theorem regs_copWrite (r : Reg) (value : UInt32)
    (control : Bool) : (m.copWrite i r value control).regs = m.regs :=
  ((agrees_self (R := fun x _ => x = m.regs) rfl).copWrite i r value control).regs

theorem regs_copExecute : (m.copExecute i).regs = m.regs :=
  ((agrees_self (R := fun x _ => x = m.regs) rfl).copExecute i).regs

theorem regs_transfer [Device δ] (base data : UInt32) :
    (m.transfer i base data).machine.regs = m.regs :=
  ((agrees_self (R := fun x _ => x = m.regs) rfl).transfer EntryTable.respects_true i base
    data).2.2.regs

end Registers

end Machine

end Dynarec
