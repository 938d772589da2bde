/-
  Dynarec.Proofs.RegisterCache

  What the register cache promises to the code generated with it.

  `Holds c b regs` says that the host registers and the guest register file in
  the bank `b` together hold the guest values `regs`, in the way the cache `c`
  describes: a mapped register has its value in a host register, and the file
  is up to date unless the mapping is dirty. Every request to the cache comes
  with transfers that carry this over to the new cache. The host registers of
  the operands of one instruction are locked, and stay what they are until the
  locks are released.
-/
import Dynarec.Host.RegisterCache
import Dynarec.Proofs.Registers

namespace Dynarec

/-- The host registers beside the guest register file. -/
structure Bank where
  host : Cells 8 UInt32
  file : Registers

namespace Bank

/-- Change a host register. -/
def put (b : Bank) (h : HostReg) (v : UInt32) : Bank := { b with host := b.host.set h v }

@[simp] theorem file_put (b : Bank) (h : HostReg) (v : UInt32) : (b.put h v).file = b.file := rfl

theorem host_put_self (b : Bank) (h : HostReg) (v : UInt32) : (b.put h v).host[h] = v := by
  simp [put]

theorem host_put_of_ne (b : Bank) {h k : HostReg} (hk : k ≠ h) (v : UInt32) :
    (b.put h v).host[k] = b.host[k] :=
  b.host.getElem_set_of_ne hk v

end Bank

namespace RegisterTransfer

/-- Carry out a transfer. -/
def run (t : RegisterTransfer) (b : Bank) : Bank :=
  match t with
  | .load h g => b.put h (b.file.get g)
  | .store h g => { b with file := b.file.set g b.host[h] }

/-- Carry out transfers in order. -/
def runAll (ts : List RegisterTransfer) (b : Bank) : Bank := ts.foldl (fun b t => t.run b) b

@[simp] theorem runAll_nil (b : Bank) : runAll [] b = b := rfl

@[simp] theorem runAll_cons (t : RegisterTransfer) (ts : List RegisterTransfer) (b : Bank) :
    runAll (t :: ts) b = runAll ts (t.run b) := rfl

theorem runAll_append (ts us : List RegisterTransfer) (b : Bank) :
    runAll (ts ++ us) b = runAll us (runAll ts b) := List.foldl_append

end RegisterTransfer

namespace RegisterCache

variable {c : RegisterCache} {a : Allocation} {regs : Registers} {g : Reg} {b : Bank}

open RegisterTransfer

/-! ## Slots -/

theorem mem_hosts : ∀ h : HostReg, h ∈ hosts := by decide

/-- No guest register is mapped twice, only registers of their own are mapped, and register
zero is never written back. -/
structure WellFormed (c : RegisterCache) : Prop where
  unique : ∀ {h k : HostReg} {g : Reg}, c.slots[h].guest = some g → c.slots[k].guest = some g → h = k
  own : ∀ {h : HostReg} {g : Reg}, c.slots[h].guest = some g → g.IsOwn
  dirty : ∀ {h : HostReg}, c.slots[h].dirty = true → ∃ g, c.slots[h].guest = some g ∧ g ≠ 0

/-- The bank holds the guest values `regs` as the cache describes. -/
structure Holds (c : RegisterCache) (b : Bank) (regs : Registers) : Prop where
  mapped : ∀ {h : HostReg} {g : Reg}, c.slots[h].guest = some g → b.host[h] = regs.get g
  file : ∀ {g : Reg}, g.IsOwn →
    (∀ h : HostReg, c.slots[h].guest = some g → c.slots[h].dirty = false) → b.file.get g = regs.get g

/-- Nothing waits to be written back. -/
def Clean (c : RegisterCache) : Prop := ∀ h : HostReg, c.slots[h].dirty = false

/-- Nothing is mapped. -/
def Empty (c : RegisterCache) : Prop := ∀ h : HostReg, c.slots[h].guest = none

/-- The locked host registers of `c` are locked in `d`, for the same guest registers, and are
still to be written back if they were. -/
def Keeps (c d : RegisterCache) : Prop :=
  ∀ h : HostReg, c.slots[h].locked = true →
    d.slots[h].locked = true ∧ d.slots[h].guest = c.slots[h].guest ∧
      (c.slots[h].dirty = true → d.slots[h].dirty = true)

theorem Keeps.trans {c d e : RegisterCache} (h1 : c.Keeps d) (h2 : d.Keeps e) : c.Keeps e := by
  intro h hl
  obtain ⟨hl1, hg1, hd1⟩ := h1 h hl
  obtain ⟨hl2, hg2, hd2⟩ := h2 h hl1
  exact ⟨hl2, hg2.trans hg1, fun hd => hd2 (hd1 hd)⟩

/-- Both caches map the same registers, with the same ones to be written back. -/
def SameUse (c d : RegisterCache) : Prop :=
  ∀ h : HostReg, d.slots[h].guest = c.slots[h].guest ∧ d.slots[h].dirty = c.slots[h].dirty

theorem SameUse.wellFormed {c d : RegisterCache} (h : c.SameUse d) (hw : c.WellFormed) :
    d.WellFormed where
  unique := by
    intro k k' g hk hk'
    rw [(h k).1] at hk
    rw [(h k').1] at hk'
    exact hw.unique hk hk'
  own := by
    intro k g hk
    rw [(h k).1] at hk
    exact hw.own hk
  dirty := by
    intro k hk
    rw [(h k).2] at hk
    rw [(h k).1]
    exact hw.dirty hk

theorem SameUse.holds {c d : RegisterCache} (h : c.SameUse d)
    (hb : c.Holds b regs) : d.Holds b regs where
  mapped := by
    intro k g hk
    rw [(h k).1] at hk
    exact hb.mapped hk
  file := by
    intro g hg hclean
    refine hb.file hg fun k hk => ?_
    rw [← (h k).2]
    exact hclean k (by rw [(h k).1]; exact hk)

theorem SameUse.clean {c d : RegisterCache} (h : c.SameUse d) (hc : c.Clean) : d.Clean :=
  fun k => (h k).2.trans (hc k)

theorem sameUse_touch (c : RegisterCache) (h : HostReg) : c.SameUse (c.touch h) := by
  intro k
  unfold touch
  by_cases hk : k = h
  · subst hk
    simp
  · simp only [Cells.getElem_set_of_ne _ hk, and_self]

theorem keeps_touch (c : RegisterCache) (h : HostReg) : c.Keeps (c.touch h) := by
  intro k hl
  refine ⟨?_, (c.sameUse_touch h k).1, (c.sameUse_touch h k).2.trans⟩
  unfold touch
  by_cases hk : k = h
  · subst hk
    simp
  · simp only [Cells.getElem_set_of_ne _ hk, hl]

theorem locked_touch_self (c : RegisterCache) (h : HostReg) : (c.touch h).slots[h].locked = true := by
  simp [touch]

theorem sameUse_releaseLocks (c : RegisterCache) : c.SameUse c.releaseLocks := by
  intro h
  simp [releaseLocks]

/-! ## Changing a host register -/

variable {h : HostReg}

/-- A value written to the host register of a dirty mapping is the new value of its guest
register. -/
theorem Holds.put (hw : c.WellFormed) (hb : c.Holds b regs) (hg : c.slots[h].guest = some g)
    (hd : c.slots[h].dirty = true) (v : UInt32) : c.Holds (b.put h v) (regs.set g v) := by
  have h0 : g ≠ 0 := by
    obtain ⟨g', hg', h0⟩ := hw.dirty hd
    rw [hg] at hg'
    cases hg'
    exact h0
  constructor
  · intro k g' hk
    by_cases hkh : k = h
    · subst hkh
      rw [hg] at hk
      cases hk
      rw [b.host_put_self, Registers.get_set_self h0]
    · have hne : g' ≠ g := by
        intro e
        subst e
        exact hkh (hw.unique hk hg)
      rw [b.host_put_of_ne hkh, Registers.get_set_of_ne (hw.own hk) (hw.own hg) hne]
      exact hb.mapped hk
  · intro g' hown hclean
    have hne : g' ≠ g := by
      intro e
      subst e
      have := hclean h hg
      rw [hd] at this
      cases this
    rw [Bank.file_put, Registers.get_set_of_ne hown (hw.own hg) hne]
    exact hb.file hown hclean

/-- A host register without a guest register can be used freely. -/
theorem Holds.put_unmapped (hb : c.Holds b regs) (hg : c.slots[h].guest = none)
    (v : UInt32) : c.Holds (b.put h v) regs := by
  constructor
  · intro k g hk
    have hkh : k ≠ h := by
      intro e
      subst e
      rw [hg] at hk
      cases hk
    rw [b.host_put_of_ne hkh]
    exact hb.mapped hk
  · intro g hown hclean
    rw [Bank.file_put]
    exact hb.file hown hclean

/-! ## Making room -/

theorem guest_of_find? (hf : c.find? g = some h) : c.slots[h].guest = some g := by
  have := List.find?_some hf
  simpa using this

theorem guest_ne_of_find? (hf : c.find? g = none) (h : HostReg) : c.slots[h].guest ≠ some g := by
  intro e
  have := List.find?_eq_none.mp hf h (mem_hosts h)
  rw [e] at this
  simp at this

/-- The register that was not used for longest is not locked. -/
theorem not_locked_of_foldl_older (c : RegisterCache) (l : List HostReg) (best : Option HostReg)
    (hbest : ∀ h, best = some h → c.slots[h].locked = false)
    (hl : l.foldl c.older best = some h) : c.slots[h].locked = false := by
  induction l generalizing best with
  | nil => exact hbest h hl
  | cons k l ih =>
    refine ih (c.older best k) ?_ hl
    intro j hj
    unfold older at hj
    split at hj
    · exact hbest j hj
    · rename_i hk
      have hk' : c.slots[k].locked = false := by simpa using hk
      split at hj
      · cases hj
        exact hk'
      · split at hj
        · cases hj
          exact hk'
        · cases hj
          exact hbest _ rfl

@[simp] theorem host_evict (c : RegisterCache) (h : HostReg) : (c.evict h).host = h := by
  unfold evict
  dsimp only
  split <;> rfl

@[simp] theorem slots_evict (c : RegisterCache) (h : HostReg) :
    (c.evict h).cache.slots = c.slots.set h {} := by
  unfold evict
  dsimp only
  split <;> rfl

@[simp] theorem transfers_evict (c : RegisterCache) (h : HostReg) :
    (c.evict h).transfers = (c.writeBack? h).toList := by
  unfold evict writeBack?
  dsimp only
  split <;> rfl

/-- Room is made by taking a free register, or by giving up one that is not locked. -/
theorem vacate?_cases (hv : c.vacate? = some a) : c.slots[a.host].locked = false ∧
      ((c.slots[a.host].guest = none ∧ a.transfers = [] ∧ a.cache = c) ∨ a = c.evict a.host) := by
  unfold vacate? at hv
  split at hv
  · rename_i h hfree
    cases hv
    have hf := List.find?_some hfree
    simp only [Bool.and_eq_true, Option.isNone_iff_eq_none, Bool.not_eq_true'] at hf
    exact ⟨hf.2, .inl ⟨hf.1, rfl, rfl⟩⟩
  · split at hv
    · rename_i h hold
      cases hv
      simp only [host_evict]
      exact ⟨not_locked_of_foldl_older c hosts none (fun _ e => by cases e) hold, .inr trivial⟩
    · cases hv

/-- A host register that was made available: it is not in use, it was not locked, and the
others are as before. -/
structure Vacated (c : RegisterCache) (a : Allocation) : Prop where
  guest : a.cache.slots[a.host].guest = none
  dirty : a.cache.slots[a.host].dirty = false
  unlocked : c.slots[a.host].locked = false
  others : ∀ {k : HostReg}, k ≠ a.host → a.cache.slots[k] = c.slots[k]

theorem WellFormed.not_dirty (hw : c.WellFormed)
    (hg : c.slots[h].guest = none) : c.slots[h].dirty = false := by
  cases hd : c.slots[h].dirty with
  | false => rfl
  | true =>
    obtain ⟨g, hg', -⟩ := hw.dirty hd
    rw [hg] at hg'
    cases hg'

theorem Vacated.of_vacate? (hw : c.WellFormed) (hv : c.vacate? = some a) : c.Vacated a := by
  obtain ⟨hl, ⟨hg, -, hc⟩ | he⟩ := vacate?_cases hv
  · rw [← hc] at hg
    refine ⟨hg, ?_, hl, fun _ => by rw [hc]⟩
    rw [hc] at hg ⊢
    exact hw.not_dirty hg
  · have hs := c.slots_evict a.host
    rw [← he] at hs
    constructor
    · rw [hs, Cells.getElem_set_self]
    · rw [hs, Cells.getElem_set_self]
    · exact hl
    · intro k hk
      rw [hs, Cells.getElem_set_of_ne _ hk]

theorem Vacated.ne_of_guest (hv : c.Vacated a) {k : HostReg}
    (hk : a.cache.slots[k].guest = some g) : k ≠ a.host := by
  intro e
  subst e
  rw [hv.guest] at hk
  cases hk

theorem Vacated.ne_of_locked (hv : c.Vacated a) (hl : c.slots[h].locked = true) : h ≠ a.host := by
  intro e
  subst e
  rw [hv.unlocked] at hl
  cases hl

theorem Vacated.wellFormed (hw : c.WellFormed) (hv : c.Vacated a) : a.cache.WellFormed := by
  constructor
  · intro h k g hh hk
    rw [hv.others (hv.ne_of_guest hh)] at hh
    rw [hv.others (hv.ne_of_guest hk)] at hk
    exact hw.unique hh hk
  · intro h g hh
    rw [hv.others (hv.ne_of_guest hh)] at hh
    exact hw.own hh
  · intro h hd
    have : h ≠ a.host := by
      intro e
      subst e
      rw [hv.dirty] at hd
      cases hd
    rw [hv.others this] at hd ⊢
    exact hw.dirty hd

theorem host_runAll_writeBack? (c : RegisterCache) (h : HostReg) (b : Bank) :
    (runAll (c.writeBack? h).toList b).host = b.host := by
  unfold writeBack?
  split <;> rfl

/-- A write-back brings the file up to date for the register it concerns and leaves the rest
of it alone. -/
theorem get_runAll_writeBack? (hw : c.WellFormed)
    (hm : ∀ {h : HostReg} {g : Reg}, c.slots[h].guest = some g →
      b.host[h] = regs.get g) (h : HostReg) (hown : g.IsOwn) :
    (runAll (c.writeBack? h).toList b).file.get g =
      if c.slots[h].guest = some g ∧ c.slots[h].dirty = true then regs.get g else b.file.get g := by
  unfold writeBack?
  split
  · rename_i g' hg hd
    obtain ⟨g'', hg'', h0⟩ := hw.dirty hd
    rw [hg] at hg''
    cases hg''
    show (b.file.set g' b.host[h]).get g = _
    rw [hg, hd]
    by_cases hgg : g = g'
    · subst hgg
      rw [Registers.get_set_self h0, hm hg]
      simp
    · rw [Registers.get_set_of_ne hown (hw.own hg) hgg, if_neg]
      rintro ⟨e, -⟩
      cases e
      exact hgg rfl
  · rename_i hnot
    rw [if_neg]
    · rfl
    · rintro ⟨hg, hd⟩
      exact hnot g hg hd

theorem host_runAll_vacate? (hv : c.vacate? = some a)
    (b : Bank) : (runAll a.transfers b).host = b.host := by
  obtain ⟨-, ⟨-, ht, -⟩ | he⟩ := vacate?_cases hv
  · rw [ht, runAll_nil]
  · rw [he, transfers_evict, host_runAll_writeBack?]

theorem runAll_vacate?_of_clean (hc : c.Clean) (hv : c.vacate? = some a)
    (b : Bank) : runAll a.transfers b = b := by
  obtain ⟨-, ⟨-, ht, -⟩ | he⟩ := vacate?_cases hv
  · rw [ht, runAll_nil]
  · have hnone : c.writeBack? a.host = none := by
      unfold writeBack?
      rw [hc a.host]
      cases c.slots[a.host].guest <;> rfl
    rw [he, transfers_evict, hnone]
    rfl

theorem holds_vacate? (hw : c.WellFormed) (hv : c.vacate? = some a) (hb : c.Holds b regs) :
    a.cache.Holds (runAll a.transfers b) regs := by
  have hvac := Vacated.of_vacate? hw hv
  constructor
  · intro k g hk
    rw [hvac.others (hvac.ne_of_guest hk)] at hk
    rw [host_runAll_vacate? hv]
    exact hb.mapped hk
  · intro g hown hclean
    obtain ⟨-, ⟨-, ht, hc⟩ | he⟩ := vacate?_cases hv
    · rw [ht, runAll_nil]
      rw [hc] at hclean
      exact hb.file hown hclean
    · rw [he, transfers_evict, get_runAll_writeBack? hw hb.mapped _ hown]
      split
      · rfl
      · rename_i hnot
        refine hb.file hown fun k hk => ?_
        by_cases hka : k = a.host
        · subst hka
          simpa using fun hd => hnot ⟨hk, hd⟩
        · rw [← hvac.others hka]
          exact hclean k (by rw [hvac.others hka]; exact hk)

/-! ## Operands -/

theorem slot_assign_self (c : RegisterCache) (h : HostReg) (g : Reg) :
    (c.assign h g).slots[h] = { c.slots[h] with guest := some g } :=
  Cells.getElem_set_self _ _ _

theorem slot_assign_of_ne (c : RegisterCache) {h k : HostReg} (hk : k ≠ h) (g : Reg) :
    (c.assign h g).slots[k] = c.slots[k] :=
  Cells.getElem_set_of_ne _ hk _

/-- Mapping a vacated host register to a guest register that has none. -/
theorem Vacated.wellFormed_assign (hw : c.WellFormed) (hv : c.Vacated a) (hown : g.IsOwn)
    (hnone : ∀ h : HostReg, c.slots[h].guest ≠ some g) :
    (a.cache.assign a.host g).WellFormed := by
  have hself := a.cache.slot_assign_self a.host g
  have hother : ∀ {k}, k ≠ a.host → (a.cache.assign a.host g).slots[k] = c.slots[k] :=
    fun hk => (a.cache.slot_assign_of_ne hk g).trans (hv.others hk)
  constructor
  · intro h k g' hh hk
    -- the new mapping is the only one of its guest register
    by_cases h1 : h = a.host <;> by_cases h2 : k = a.host
    · rw [h1, h2]
    · subst h1
      rw [hself] at hh
      rw [hother h2] at hk
      cases hh
      exact absurd hk (hnone k)
    · subst h2
      rw [hself] at hk
      rw [hother h1] at hh
      cases hk
      exact absurd hh (hnone h)
    · rw [hother h1] at hh
      rw [hother h2] at hk
      exact hw.unique hh hk
  · intro h g' hh
    by_cases h1 : h = a.host
    · subst h1
      rw [hself] at hh
      cases hh
      exact hown
    · rw [hother h1] at hh
      exact hw.own hh
  · intro h hd
    by_cases h1 : h = a.host
    · subst h1
      rw [hself] at hd
      simp only [hv.dirty] at hd
      cases hd
    · rw [hother h1] at hd ⊢
      exact hw.dirty hd

theorem Vacated.keeps_assign (hv : c.Vacated a) (g : Reg) : c.Keeps (a.cache.assign a.host g) := by
  intro h hl
  have hne := hv.ne_of_locked hl
  rw [a.cache.slot_assign_of_ne hne, hv.others hne]
  exact ⟨hl, rfl, id⟩

theorem Vacated.clean_assign (hv : c.Vacated a) (g : Reg)
    (hc : c.Clean) : (a.cache.assign a.host g).Clean := by
  intro k
  by_cases hk : k = a.host
  · subst hk
    rw [slot_assign_self]
    exact hv.dirty
  · rw [slot_assign_of_ne _ hk, hv.others hk]
    exact hc k

/-- A guest register that has no host register has none when one is vacated. -/
theorem Vacated.guest_ne (hv : c.Vacated a) (hnone : ∀ h : HostReg, c.slots[h].guest ≠ some g)
    (k : HostReg) :
    a.cache.slots[k].guest ≠ some g := by
  intro hk
  rw [hv.others (hv.ne_of_guest hk)] at hk
  exact hnone k hk

theorem guest_setDirty (c : RegisterCache) (h : HostReg) (d : Bool) (k : HostReg) :
    (c.setDirty h d).slots[k].guest = c.slots[k].guest := by
  by_cases hk : k = h
  · subst hk
    simp [setDirty]
  · simp only [setDirty, Cells.getElem_set_of_ne _ hk]

/-- Marking a mapped register other than zero to be written back. -/
theorem WellFormed.setDirty (hw : c.WellFormed) (hg : c.slots[h].guest = some g) (h0 : g ≠ 0)
    (d : Bool) : (c.setDirty h d).WellFormed := by
  constructor
  · intro k k' g' hk hk'
    rw [guest_setDirty] at hk hk'
    exact hw.unique hk hk'
  · intro k g' hk
    rw [guest_setDirty] at hk
    exact hw.own hk
  · intro k hd
    rw [guest_setDirty]
    by_cases hk : k = h
    · subst hk
      exact ⟨g, hg, h0⟩
    · simp only [RegisterCache.setDirty, Cells.getElem_set_of_ne _ hk] at hd
      exact hw.dirty hd

theorem keeps_setDirty (c : RegisterCache) (h : HostReg) : c.Keeps (c.setDirty h true) := by
  intro k hl
  by_cases hk : k = h
  · subst hk
    simpa [setDirty] using hl
  · simp only [setDirty, Cells.getElem_set_of_ne _ hk, hl, imp_self, and_self]

/-- A register that is to be written back claims nothing about the file. -/
theorem Holds.setDirty (hb : c.Holds b regs) (h : HostReg) : (c.setDirty h true).Holds b regs := by
  constructor
  · intro k g hk
    rw [guest_setDirty] at hk
    exact hb.mapped hk
  · intro g hown hclean
    refine hb.file hown fun k hk => ?_
    have hdirty := hclean k ((c.guest_setDirty h true k).trans hk)
    by_cases hkh : k = h
    · subst hkh
      simp [RegisterCache.setDirty] at hdirty
    · simpa only [RegisterCache.setDirty, Cells.getElem_set_of_ne _ hkh] using hdirty

/-- The vacated host register is loaded with the value of the guest register that it gets. -/
theorem Vacated.holds_load (hv : c.Vacated a) (hown : g.IsOwn)
    (hnone : ∀ h : HostReg, c.slots[h].guest ≠ some g) (hb : a.cache.Holds b regs) :
    (a.cache.assign a.host g).Holds (b.put a.host (b.file.get g)) regs := by
  -- nothing is to be written back to that register, so the file has its value
  have hfile : b.file.get g = regs.get g :=
    hb.file hown fun k hk => absurd hk (hv.guest_ne hnone k)
  constructor
  · intro k g' hk
    by_cases hka : k = a.host
    · subst hka
      rw [slot_assign_self] at hk
      cases hk
      rw [Bank.host_put_self, hfile]
    · rw [slot_assign_of_ne _ hka] at hk
      rw [Bank.host_put_of_ne _ hka]
      exact hb.mapped hk
  · intro g' hown' hclean
    rw [Bank.file_put]
    refine hb.file hown' fun k hk => ?_
    have hka := hv.ne_of_guest hk
    have hdirty := hclean k
    rw [slot_assign_of_ne _ hka] at hdirty
    exact hdirty hk

/-- The vacated host register stands for the guest register that it gets, whatever it holds. -/
theorem Vacated.holds_claim (hv : c.Vacated a) (hw : c.WellFormed) (hown : g.IsOwn) (h0 : g ≠ 0)
    (hnone : ∀ h : HostReg, c.slots[h].guest ≠ some g) (hb : a.cache.Holds b regs) :
    ((a.cache.assign a.host g).setDirty a.host true).Holds b (regs.set g b.host[a.host]) := by
  constructor
  · intro k g' hk
    rw [guest_setDirty] at hk
    by_cases hka : k = a.host
    · subst hka
      rw [slot_assign_self] at hk
      cases hk
      rw [Registers.get_set_self h0]
    · rw [slot_assign_of_ne _ hka] at hk
      have hgg : g' ≠ g := fun e => hv.guest_ne hnone k (e ▸ hk)
      rw [Registers.get_set_of_ne ((hv.wellFormed hw).own hk) hown hgg]
      exact hb.mapped hk
  · intro g' hown' hclean
    -- the guest register itself is to be written back
    have hgg : g' ≠ g := by
      rintro rfl
      have hdirty := hclean a.host
      simp only [setDirty, assign, Cells.getElem_set_self] at hdirty
      exact absurd (hdirty trivial) (by simp)
    rw [Registers.get_set_of_ne hown' hown hgg]
    refine hb.file hown' fun k hk => ?_
    have hka := hv.ne_of_guest hk
    have hdirty := hclean k
    simp only [setDirty, assign, Cells.getElem_set_of_ne _ hka] at hdirty
    exact hdirty hk

/-- What comes with a host register for an operand that is read. -/
structure Reads (c : RegisterCache) (g : Reg) (a : Allocation) : Prop where
  wellFormed : a.cache.WellFormed
  guest : a.cache.slots[a.host].guest = some g
  locked : a.cache.slots[a.host].locked = true
  keeps : c.Keeps a.cache
  /-- The transfers load the value and do not disturb the operands before. -/
  holds : ∀ {b : Bank} {regs : Registers}, c.Holds b regs →
    a.cache.Holds (runAll a.transfers b) regs
  stable : ∀ (b : Bank) {h : HostReg}, c.slots[h].locked = true →
    (runAll a.transfers b).host[h] = b.host[h]
  clean : c.Clean → a.cache.Clean
  file : c.Clean → ∀ b : Bank, (runAll a.transfers b).file = b.file

theorem Reads.of_allocIn? (hw : c.WellFormed) (hown : g.IsOwn)
    (ha : c.allocIn? g = some a) : c.Reads g a := by
  unfold allocIn? at ha
  split at ha
  · rename_i h hf
    cases ha
    have hg := guest_of_find? hf
    have hs := c.sameUse_touch h
    exact {
      wellFormed := hs.wellFormed hw
      guest := (hs h).1.trans hg
      locked := c.locked_touch_self h
      keeps := c.keeps_touch h
      holds := fun hb => hs.holds hb
      stable := fun _ _ _ => rfl
      clean := hs.clean
      file := fun _ _ => rfl }
  · rename_i hf
    split at ha
    · cases ha
    · rename_i v hv
      cases ha
      have hvac := Vacated.of_vacate? hw hv
      have hnone := guest_ne_of_find? hf
      have hs := (v.cache.assign v.host g).sameUse_touch v.host
      have hself := congrArg HostSlot.guest (v.cache.slot_assign_self v.host g)
      -- the old value is written back before the new one is loaded
      have hrun : ∀ b : Bank, runAll (v.transfers ++ [.load v.host g]) b =
          (runAll v.transfers b).put v.host ((runAll v.transfers b).file.get g) :=
        fun b => runAll_append _ _ _
      exact {
        wellFormed := hs.wellFormed (hvac.wellFormed_assign hw hown hnone)
        guest := (hs v.host).1.trans hself
        locked := locked_touch_self _ _
        keeps := (hvac.keeps_assign g).trans (keeps_touch _ _)
        holds := fun {b regs} hb => by
          rw [hrun]
          exact hs.holds (hvac.holds_load hown hnone (holds_vacate? hw hv hb))
        stable := fun b h hl => by
          rw [hrun, Bank.host_put_of_ne _ (hvac.ne_of_locked hl), host_runAll_vacate? hv]
        clean := fun hc => hs.clean (hvac.clean_assign g hc)
        file := fun hc b => by
          rw [hrun, Bank.file_put, runAll_vacate?_of_clean hc hv] }

/-- What comes with a host register for an operand that is written. -/
structure Writes (c : RegisterCache) (g : Reg) (a : Allocation) : Prop where
  wellFormed : a.cache.WellFormed
  guest : a.cache.slots[a.host].guest = some g
  dirty : a.cache.slots[a.host].dirty = true
  locked : a.cache.slots[a.host].locked = true
  keeps : c.Keeps a.cache
  /-- Until it is written, the register stands for whatever the host register holds. -/
  holds : ∀ {b : Bank} {regs : Registers}, c.Holds b regs →
    a.cache.Holds (runAll a.transfers b) (regs.set g b.host[a.host])
  stable : ∀ b : Bank, (runAll a.transfers b).host = b.host
  file : c.Clean → ∀ b : Bank, runAll a.transfers b = b

theorem Writes.of_allocOut? (hw : c.WellFormed) (hown : g.IsOwn) (h0 : g ≠ 0)
    (ha : c.allocOut? g = some a) : c.Writes g a := by
  unfold allocOut? at ha
  rw [show decide (g ≠ 0) = true by simpa using h0] at ha
  split at ha
  · rename_i h hf
    cases ha
    have hg := guest_of_find? hf
    have hs := (c.setDirty h true).sameUse_touch h
    exact {
      wellFormed := hs.wellFormed (hw.setDirty hg h0 _)
      guest := (hs h).1.trans ((c.guest_setDirty h true h).trans hg)
      dirty := (hs h).2.trans (by simp [setDirty])
      locked := locked_touch_self _ _
      keeps := (c.keeps_setDirty h).trans (keeps_touch _ _)
      holds := fun {b regs} hb => by
        -- the host register already holds the value
        have hval : regs.set g b.host[h] = regs := by
          rw [hb.mapped hg]
          exact Registers.set_get_self hown regs
        refine hs.holds ?_
        show (c.setDirty h true).Holds b (regs.set g b.host[h])
        rw [hval]
        exact hb.setDirty h
      stable := fun _ => rfl
      file := fun _ _ => rfl }
  · rename_i hf
    split at ha
    · cases ha
    · rename_i v hv
      cases ha
      have hvac := Vacated.of_vacate? hw hv
      have hnone := guest_ne_of_find? hf
      have hs := ((v.cache.assign v.host g).setDirty v.host true).sameUse_touch v.host
      have hself := congrArg HostSlot.guest (v.cache.slot_assign_self v.host g)
      exact {
        wellFormed := hs.wellFormed ((hvac.wellFormed_assign hw hown hnone).setDirty hself h0 _)
        guest := (hs v.host).1.trans ((guest_setDirty _ _ _ _).trans hself)
        dirty := (hs v.host).2.trans (by simp [setDirty])
        locked := locked_touch_self _ _
        keeps := ((hvac.keeps_assign g).trans (keeps_setDirty _ _)).trans (keeps_touch _ _)
        holds := fun {b regs} hb => by
          have hclaim := hvac.holds_claim hw hown h0 hnone (holds_vacate? hw hv hb)
          rw [host_runAll_vacate? hv] at hclaim
          exact hs.holds hclaim
        stable := fun b => host_runAll_vacate? hv b
        file := fun hc b => runAll_vacate?_of_clean hc hv b }

/-- What comes with a host register for an intermediate value. -/
structure Lends (c : RegisterCache) (a : Allocation) : Prop where
  wellFormed : a.cache.WellFormed
  guest : a.cache.slots[a.host].guest = none
  keeps : c.Keeps a.cache
  holds : ∀ {b : Bank} {regs : Registers}, c.Holds b regs →
    a.cache.Holds (runAll a.transfers b) regs
  stable : ∀ b : Bank, (runAll a.transfers b).host = b.host

theorem Lends.of_allocTemp? (hw : c.WellFormed) (ha : c.allocTemp? = some a) : c.Lends a := by
  unfold allocTemp? at ha
  split at ha
  · cases ha
  · rename_i v hv
    cases ha
    have hvac := Vacated.of_vacate? hw hv
    -- The register stays free; only its lock and its last use change.
    have hs : v.cache.SameUse
        ({ v.cache with slots := v.cache.slots.set v.host {} }.touch v.host) := by
      intro k
      refine ⟨(sameUse_touch _ v.host k).1.trans ?_, (sameUse_touch _ v.host k).2.trans ?_⟩
      · by_cases hk : k = v.host
        · subst hk
          rw [hvac.guest, Cells.getElem_set_self]
        · rw [Cells.getElem_set_of_ne _ hk]
      · by_cases hk : k = v.host
        · subst hk
          rw [hvac.dirty, Cells.getElem_set_self]
        · rw [Cells.getElem_set_of_ne _ hk]
    exact {
      wellFormed := hs.wellFormed (hvac.wellFormed hw)
      guest := (hs v.host).1.trans hvac.guest
      keeps := by
        refine Keeps.trans ?_ (keeps_touch _ _)
        intro h hl
        have hne := hvac.ne_of_locked hl
        rw [Cells.getElem_set_of_ne _ hne, hvac.others hne]
        exact ⟨hl, rfl, id⟩
      holds := fun hb => hs.holds (holds_vacate? hw hv hb)
      stable := fun b => host_runAll_vacate? hv b }

/-! ## Writing back -/

theorem host_runAll_writeBacks (c : RegisterCache) (l : List HostReg) (b : Bank) :
    (runAll (l.filterMap c.writeBack?) b).host = b.host := by
  induction l generalizing b with
  | nil => rfl
  | cons h l ih =>
    have hsplit : (h :: l).filterMap c.writeBack? =
        (c.writeBack? h).toList ++ l.filterMap c.writeBack? := by
      cases hw : c.writeBack? h <;> simp [hw]
    rw [hsplit, runAll_append, ih, host_runAll_writeBack?]

/-- Writing back a list of host registers leaves every guest register as it was or up to
date, and those that were dirty on the list up to date. -/
theorem get_runAll_writeBacks (hw : c.WellFormed) (hown : g.IsOwn) (l : List HostReg) (b : Bank)
    (hm : ∀ {h : HostReg} {g : Reg}, c.slots[h].guest = some g → b.host[h] = regs.get g)
    (hg : b.file.get g = regs.get g ∨
      ∃ h ∈ l, c.slots[h].guest = some g ∧ c.slots[h].dirty = true) :
    (runAll (l.filterMap c.writeBack?) b).file.get g = regs.get g := by
  induction l generalizing b with
  | nil =>
    rcases hg with hg | ⟨h, hmem, -⟩
    · exact hg
    · cases hmem
  | cons h l ih =>
    have hsplit : (h :: l).filterMap c.writeBack? =
        (c.writeBack? h).toList ++ l.filterMap c.writeBack? := by
      cases hw : c.writeBack? h <;> simp [hw]
    rw [hsplit, runAll_append]
    apply ih
    · intro k g' hk
      rw [host_runAll_writeBack?]
      exact hm hk
    · rw [get_runAll_writeBack? hw hm h hown]
      split
      · exact .inl rfl
      · rename_i hnot
        rcases hg with hg | ⟨k, hmem, hk⟩
        · exact .inl hg
        · rcases List.mem_cons.mp hmem with rfl | hmem
          · exact absurd hk hnot
          · exact .inr ⟨k, hmem, hk⟩

/-- After everything was written back, the file holds all values. -/
theorem runAll_flushAll (hw : c.WellFormed)
    (hb : c.Holds b regs) : runAll c.flushAll.1 b = { host := b.host, file := regs } := by
  have hhost : (runAll c.flushAll.1 b).host = b.host := host_runAll_writeBacks c hosts b
  have hfile : (runAll c.flushAll.1 b).file = regs := by
    apply Registers.ext_get
    intro g hown
    apply get_runAll_writeBacks hw hown hosts b hb.mapped
    by_cases hd : ∃ h : HostReg, c.slots[h].guest = some g ∧ c.slots[h].dirty = true
    · obtain ⟨h, hh⟩ := hd
      exact .inr ⟨h, mem_hosts h, hh⟩
    · refine .inl (hb.file hown fun k hk => ?_)
      cases hkd : c.slots[k].dirty with
      | false => rfl
      | true => exact absurd ⟨k, hk, hkd⟩ hd
  rw [← hhost, ← hfile]

theorem guest_flushAll (c : RegisterCache) (h : HostReg) :
    c.flushAll.2.slots[h].guest = c.slots[h].guest := by
  simp only [flushAll, Cells.getElem_map]
  split <;> rfl

theorem clean_flushAll (hw : c.WellFormed) : c.flushAll.2.Clean := by
  intro h
  simp only [flushAll, Cells.getElem_map]
  split
  · rfl
  · rename_i hnone
    exact hw.not_dirty (by simpa using hnone)

theorem wellFormed_flushAll (hw : c.WellFormed) : c.flushAll.2.WellFormed where
  unique := by
    intro h k g hh hk
    rw [guest_flushAll] at hh hk
    exact hw.unique hh hk
  own := by
    intro h g hh
    rw [guest_flushAll] at hh
    exact hw.own hh
  dirty := by
    intro h hd
    rw [clean_flushAll hw h] at hd
    cases hd

theorem holds_flushAll (hb : c.Holds b regs) :
    c.flushAll.2.Holds { host := b.host, file := regs } regs where
  mapped := by
    intro h g hh
    rw [guest_flushAll] at hh
    exact hb.mapped hh
  file := fun _ _ => rfl

/-- With nothing to write back, the file has all values. -/
theorem Holds.file_eq (hb : c.Holds b regs) (hc : c.Clean) : b.file = regs := by
  apply Registers.ext_get
  intro g hown
  exact hb.file hown fun k _ => hc k

theorem Empty.clean (hc : c.Empty) (hw : c.WellFormed) : c.Clean :=
  fun h => hw.not_dirty (hc h)

/-- An empty cache holds the values of the file. -/
theorem Empty.holds_iff (hc : c.Empty) : c.Holds b regs ↔ b.file = regs := by
  constructor
  · intro hb
    apply Registers.ext_get
    intro g hown
    refine hb.file hown fun k hk => ?_
    rw [hc k] at hk
    cases hk
  · intro e
    constructor
    · intro h g hh
      rw [hc h] at hh
      cases hh
    · intro g hown _
      rw [e]

theorem empty_unloadAll (c : RegisterCache) : c.unloadAll.2.Empty := by
  intro h
  simp [unloadAll]

theorem wellFormed_of_replicate (h : c.slots = .replicate 8 {}) : c.WellFormed := by
  have hslot : ∀ k : HostReg, c.slots[k] = {} := by
    intro k
    rw [h]
    simp
  constructor
  · intro k k' g hk
    rw [hslot] at hk
    cases hk
  · intro k g hk
    rw [hslot] at hk
    cases hk
  · intro k hk
    rw [hslot] at hk
    cases hk

theorem wellFormed_unloadAll (c : RegisterCache) : c.unloadAll.2.WellFormed :=
  wellFormed_of_replicate rfl

theorem wellFormed_reset (c : RegisterCache) : c.reset.WellFormed := wellFormed_of_replicate rfl

end RegisterCache

end Dynarec
