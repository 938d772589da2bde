/-
  Dynarec.Proofs.RegisterUse

  A register cache that is used for a while.

  `Use` is a cache together with the bank that its transfers work on, and with
  the host registers that were handed out for the instruction at hand. Every
  request is made to the cache and carried out on the bank at once. What a
  guest register is worth is read off the two: `Use.valueOf`.

  One request keeps `Use.Sound`: the cache is well-formed, the bank holds the
  values `regs` as the cache describes, and the operands handed out are locked.
  A request changes `regs` only where it writes, so that a run of requests
  loses no value and mixes up no two of them.
-/
import Dynarec.Proofs.RegisterCache

namespace Dynarec

namespace RegisterCache

open RegisterTransfer

variable {c : RegisterCache}

/-! ## Room -/

theorem oldest?_isSome_of_not_locked (l : List HostReg) (best : Option HostReg)
    (h : best.isSome ∨ ∃ k ∈ l, c.slots[k].locked = false) : (l.foldl c.older best).isSome := by
  induction l generalizing best with
  | nil =>
    rcases h with h | ⟨k, hk, -⟩
    · exact h
    · cases hk
  | cons first rest ih =>
    apply ih
    by_cases hfirst : c.slots[first].locked = true
    · -- passed over, so the register that is not locked comes later or was there before
      have hsame : c.older best first = best := if_pos hfirst
      rw [hsame]
      refine h.imp_right ?_
      rintro ⟨k, hk, hfree⟩
      rcases List.mem_cons.mp hk with rfl | hk
      · simp [hfirst] at hfree
      · exact ⟨k, hk, hfree⟩
    · left
      unfold older
      rw [if_neg hfirst]
      cases best with
      | none => rfl
      | some b =>
        dsimp only
        split <;> rfl

/-- There is no room only when every host register is locked. -/
theorem vacate?_eq_none_iff : c.vacate? = none ↔ ∀ h : HostReg, c.slots[h].locked = true := by
  constructor
  · intro hnone h
    cases hfree : c.slots[h].locked with
    | true => rfl
    | false =>
      have hold : c.oldest?.isSome :=
        oldest?_isSome_of_not_locked hosts none (.inr ⟨h, mem_hosts h, hfree⟩)
      obtain ⟨k, hk⟩ := Option.isSome_iff_exists.mp hold
      unfold vacate? at hnone
      split at hnone
      · cases hnone
      · rw [hk] at hnone
        cases hnone
  · intro hall
    cases hv : c.vacate? with
    | none => rfl
    | some a =>
      have hfree := (vacate?_cases hv).1
      rw [hall] at hfree
      cases hfree

theorem allocIn?_eq_none_iff {g : Reg} :
    c.allocIn? g = none ↔ c.find? g = none ∧ ∀ h : HostReg, c.slots[h].locked = true := by
  rw [← vacate?_eq_none_iff]
  unfold allocIn?
  cases c.find? g with
  | some h => simp
  | none => cases c.vacate? <;> simp

theorem allocOut?_eq_none_iff {g : Reg} :
    c.allocOut? g = none ↔ c.find? g = none ∧ ∀ h : HostReg, c.slots[h].locked = true := by
  rw [← vacate?_eq_none_iff]
  unfold allocOut?
  cases c.find? g with
  | some h => simp
  | none => cases c.vacate? <;> simp

theorem allocTemp?_eq_none_iff : c.allocTemp? = none ↔ ∀ h : HostReg, c.slots[h].locked = true := by
  rw [← vacate?_eq_none_iff]
  unfold allocTemp?
  cases c.vacate? <;> simp

/-- A scratch register was free before, and is locked then. -/
theorem locked_of_allocTemp? {a : Allocation} (ha : c.allocTemp? = some a) :
    c.slots[a.host].locked = false ∧ a.cache.slots[a.host].locked = true := by
  unfold allocTemp? at ha
  split at ha
  · cases ha
  · rename_i v hv
    cases ha
    exact ⟨(vacate?_cases hv).1, locked_touch_self _ _⟩

end RegisterCache

/-! ## Transfers -/

/-- Register zero of the file is not written. -/
def RegisterTransfer.SparesZero : RegisterTransfer → Prop
  | .load _ _ => True
  | .store _ g => g ≠ 0

namespace RegisterCache

open RegisterTransfer

variable {c : RegisterCache} {a : Allocation} {g : Reg}

theorem sparesZero_of_writeBack? (hw : c.WellFormed) {h : HostReg} {t : RegisterTransfer}
    (ht : c.writeBack? h = some t) : t.SparesZero := by
  unfold writeBack? at ht
  split at ht
  · rename_i g hg hd
    cases ht
    obtain ⟨g', hg', h0⟩ := hw.dirty hd
    rw [hg] at hg'
    cases hg'
    exact h0
  · cases ht

/-- Room is made by the write-back of the register that is given up, if it needs one. -/
theorem transfers_vacate? (hv : c.vacate? = some a) :
    a.transfers = (c.writeBack? a.host).toList := by
  obtain ⟨-, ⟨hg, ht, -⟩ | he⟩ := vacate?_cases hv
  · have hnone : c.writeBack? a.host = none := by simp [writeBack?, hg]
    rw [ht, hnone]
    rfl
  · have ht := c.transfers_evict a.host
    rwa [← he] at ht

theorem sparesZero_vacate? (hw : c.WellFormed) (hv : c.vacate? = some a) :
    ∀ t ∈ a.transfers, t.SparesZero := by
  intro t ht
  rw [transfers_vacate? hv, Option.mem_toList] at ht
  exact sparesZero_of_writeBack? hw ht

theorem sparesZero_allocIn? (hw : c.WellFormed) (ha : c.allocIn? g = some a) :
    ∀ t ∈ a.transfers, t.SparesZero := by
  unfold allocIn? at ha
  split at ha
  · cases ha
    simp
  · split at ha
    · cases ha
    · rename_i v hv
      cases ha
      intro t ht
      rcases List.mem_append.mp ht with ht | ht
      · exact sparesZero_vacate? hw hv t ht
      · rw [List.mem_singleton.mp ht]
        trivial

theorem sparesZero_allocOut? (hw : c.WellFormed) (ha : c.allocOut? g = some a) :
    ∀ t ∈ a.transfers, t.SparesZero := by
  unfold allocOut? at ha
  split at ha
  · cases ha
    simp
  · split at ha
    · cases ha
    · rename_i v hv
      cases ha
      exact fun t ht => sparesZero_vacate? hw hv t ht

theorem sparesZero_allocTemp? (hw : c.WellFormed) (ha : c.allocTemp? = some a) :
    ∀ t ∈ a.transfers, t.SparesZero := by
  unfold allocTemp? at ha
  split at ha
  · cases ha
  · rename_i v hv
    cases ha
    exact fun t ht => sparesZero_vacate? hw hv t ht

theorem sparesZero_flushAll (hw : c.WellFormed) : ∀ t ∈ c.flushAll.1, t.SparesZero := by
  intro t ht
  obtain ⟨h, -, ht⟩ := List.mem_filterMap.mp ht
  exact sparesZero_of_writeBack? hw ht

theorem locked_flushAll (c : RegisterCache) (h : HostReg) :
    c.flushAll.2.slots[h].locked = c.slots[h].locked := by
  simp only [flushAll, Cells.getElem_map]
  split <;> rfl

/-! ## Requests -/

/-- A request to the cache. A register that is handed out to be written gets its value at once. -/
inductive Request where
  | read (g : Reg)
  | write (g : Reg) (value : UInt32)
  | scratch (value : UInt32)
  | release
  | flush
  | unload
deriving DecidableEq

/-- Requests are about the 34 registers, and register zero is not written. -/
def Request.IsValid : Request → Prop
  | .read g => g.IsOwn
  | .write g _ => g.IsOwn ∧ g ≠ 0
  | .scratch _ | .release | .flush | .unload => True

instance : DecidablePred Request.IsValid := fun r =>
  match r with
  | .read g => inferInstanceAs (Decidable g.IsOwn)
  | .write g _ => inferInstanceAs (Decidable (g.IsOwn ∧ g ≠ 0))
  | .scratch _ | .release | .flush | .unload => isTrue trivial

/-- A cache in use. -/
structure Use where
  cache : RegisterCache
  bank : Bank
  /-- Host registers handed out for the instruction at hand, latest first, with the guest registers
  they stand for; a scratch register stands for none. -/
  handed : List (HostReg × Option Reg) := []
  /-- All transfers so far. -/
  transfers : List RegisterTransfer := []

namespace Use

/-- Nothing was requested yet. -/
def start (cache : RegisterCache) (bank : Bank) : Use := { cache := cache.reset, bank }

/-- Value of a guest register: in its host register if it has one, else in the file. -/
def valueOf (u : Use) (g : Reg) : UInt32 :=
  match u.cache.find? g with
  | some h => u.bank.host[h]
  | none => u.bank.file.get g

/-- Transfers are carried out and lead to `cache`. -/
def carry (u : Use) (ts : List RegisterTransfer) (cache : RegisterCache) : Use :=
  { u with cache, bank := runAll ts u.bank, transfers := u.transfers ++ ts }

/-- A host register is handed out for `guest`. -/
def hand (u : Use) (a : Allocation) (guest : Option Reg) : Use :=
  { u.carry a.transfers a.cache with handed := (a.host, guest) :: u.handed }

/-- The host register handed out by `a` gets a value. -/
def put (u : Use) (a : Allocation) (value : UInt32) : Use :=
  { u with bank := u.bank.put a.host value }

/-- Make a request. There is no answer when a host register is needed and all of them are locked. -/
def perform (u : Use) : Request → Option Use
  | .read g => (u.cache.allocIn? g).map fun a => u.hand a (some g)
  | .write g value => (u.cache.allocOut? g).map fun a => (u.hand a (some g)).put a value
  | .scratch value => u.cache.allocTemp?.map fun a => (u.hand a none).put a value
  | .release => some { u with cache := u.cache.releaseLocks, handed := [] }
  | .flush => some (u.carry u.cache.flushAll.1 u.cache.flushAll.2)
  | .unload => some { u.carry u.cache.unloadAll.1 u.cache.unloadAll.2 with handed := [] }

/-- Make requests in order. -/
def run : List Request → Use → Option Use
  | [], u => some u
  | r :: requests, u => (u.perform r).bind (run requests)

/-- Whether a request takes a host register that has to be found first. -/
def needsRoom (u : Use) : Request → Bool
  | .read g | .write g _ => (u.cache.find? g).isNone
  | .scratch _ => true
  | .release | .flush | .unload => false

/-- A request fails only for want of a host register. -/
theorem perform_eq_none_iff (u : Use) (r : Request) :
    u.perform r = none ↔ u.needsRoom r = true ∧ ∀ h : HostReg, u.cache.slots[h].locked = true := by
  cases r with
  | read g => simp [perform, needsRoom, allocIn?_eq_none_iff]
  | write g value => simp [perform, needsRoom, allocOut?_eq_none_iff]
  | scratch value => simp [perform, needsRoom, allocTemp?_eq_none_iff]
  | release | flush | unload => simp [perform, needsRoom]

/-! ## What requests keep -/

end Use

/-- The guest values after a request. -/
def Request.update : Request → Registers → Registers
  | .write g value, regs => regs.set g value
  | .read _, regs | .scratch _, regs | .release, regs | .flush, regs | .unload, regs => regs

namespace Use

/-- A host register that is handed out twice stands for the same guest register both times. -/
def Apart (handed : List (HostReg × Option Reg)) : Prop :=
  handed.Pairwise fun x y => x.1 = y.1 → x.2 = y.2 ∧ x.2.isSome

/-- The guest values are `regs`, and what was handed out is still in place. -/
structure Sound (u : Use) (regs : Registers) : Prop where
  wellFormed : u.cache.WellFormed
  holds : u.cache.Holds u.bank regs
  handed : ∀ x ∈ u.handed, u.cache.slots[x.1].guest = x.2 ∧ u.cache.slots[x.1].locked = true
  apart : Apart u.handed
  spares : ∀ t ∈ u.transfers, t.SparesZero

variable {u u' : Use} {regs : Registers}

theorem sound_start (cache : RegisterCache) (bank : Bank) : (start cache bank).Sound bank.file where
  wellFormed := cache.wellFormed_reset
  holds := by
    have hempty : cache.reset.Empty := fun h => by simp [reset]
    exact hempty.holds_iff.mpr rfl
  handed := by simp [start]
  apart := .nil
  spares := by simp [start]

section

variable (h : u.Sound regs)
include h

/-- Where a register has its value. -/
theorem Sound.valueOf_eq {g : Reg} (hg : g.IsOwn) : u.valueOf g = regs.get g := by
  unfold valueOf
  split
  · rename_i k hk
    exact h.holds.mapped (guest_of_find? hk)
  · rename_i hnone
    exact h.holds.file hg fun k hk => absurd hk (guest_ne_of_find? hnone k)

/-- Handing out one more host register leaves the earlier ones in place, for they are locked. -/
theorem Sound.handed_cons {guest : Option Reg} (hkeeps : u.cache.Keeps a.cache)
    (hguest : a.cache.slots[a.host].guest = guest) (hlocked : a.cache.slots[a.host].locked = true) :
    ∀ x ∈ (a.host, guest) :: u.handed,
      a.cache.slots[x.1].guest = x.2 ∧ a.cache.slots[x.1].locked = true := by
  intro x hx
  rcases List.mem_cons.mp hx with rfl | hx
  · exact ⟨hguest, hlocked⟩
  · obtain ⟨hold, hl⟩ := h.handed x hx
    obtain ⟨hl', hg', -⟩ := hkeeps x.1 hl
    exact ⟨hg'.trans hold, hl'⟩

/-- An operand comes in the same host register again, a scratch register in one that was free. -/
theorem Sound.apart_cons {guest : Option Reg} (hkeeps : u.cache.Keeps a.cache)
    (hguest : a.cache.slots[a.host].guest = guest)
    (hnew : guest.isSome ∨ u.cache.slots[a.host].locked = false) :
    Apart ((a.host, guest) :: u.handed) := by
  refine List.pairwise_cons.mpr ⟨fun x hx hsame => ?_, h.apart⟩
  dsimp only at hsame ⊢
  obtain ⟨hold, hl⟩ := h.handed x hx
  rw [← hsame] at hold hl
  rcases hnew with hsome | hfree
  · obtain ⟨-, hg, -⟩ := hkeeps a.host hl
    exact ⟨hguest.symm.trans (hg.trans hold), hsome⟩
  · rw [hfree] at hl
    cases hl

theorem Sound.spares_append {ts : List RegisterTransfer}
    (hts : ∀ t ∈ ts, t.SparesZero) : ∀ t ∈ u.transfers ++ ts, t.SparesZero := by
  intro t ht
  rcases List.mem_append.mp ht with ht | ht
  · exact h.spares t ht
  · exact hts t ht

theorem Sound.read {g : Reg} (hg : g.IsOwn) (ha : u.cache.allocIn? g = some a) :
    (u.hand a (some g)).Sound regs := by
  have hr := Reads.of_allocIn? h.wellFormed hg ha
  exact {
    wellFormed := hr.wellFormed
    holds := hr.holds h.holds
    handed := h.handed_cons hr.keeps hr.guest hr.locked
    apart := h.apart_cons hr.keeps hr.guest (.inl rfl)
    spares := h.spares_append (sparesZero_allocIn? h.wellFormed ha) }

theorem Sound.write {g : Reg} (hg : g.IsOwn) (h0 : g ≠ 0) (ha : u.cache.allocOut? g = some a)
    (value : UInt32) :
    ((u.hand a (some g)).put a value).Sound (regs.set g value) := by
  have hr := Writes.of_allocOut? h.wellFormed hg h0 ha
  have hput := (hr.holds h.holds).put hr.wellFormed hr.guest hr.dirty value
  -- what the register was worth before it got the value does not matter
  rw [Registers.set_set_self] at hput
  exact {
    wellFormed := hr.wellFormed
    holds := hput
    handed := h.handed_cons hr.keeps hr.guest hr.locked
    apart := h.apart_cons hr.keeps hr.guest (.inl rfl)
    spares := h.spares_append (sparesZero_allocOut? h.wellFormed ha) }

theorem Sound.scratch (ha : u.cache.allocTemp? = some a) (value : UInt32) :
    ((u.hand a none).put a value).Sound regs := by
  have hr := Lends.of_allocTemp? h.wellFormed ha
  obtain ⟨hfree, hlocked⟩ := locked_of_allocTemp? ha
  exact {
    wellFormed := hr.wellFormed
    holds := (hr.holds h.holds).put_unmapped hr.guest value
    handed := h.handed_cons hr.keeps hr.guest hlocked
    apart := h.apart_cons hr.keeps hr.guest (.inr hfree)
    spares := h.spares_append (sparesZero_allocTemp? h.wellFormed ha) }

theorem Sound.flush : (u.carry u.cache.flushAll.1 u.cache.flushAll.2).Sound regs where
  wellFormed := wellFormed_flushAll h.wellFormed
  holds := by
    show u.cache.flushAll.2.Holds (runAll u.cache.flushAll.1 u.bank) regs
    rw [runAll_flushAll h.wellFormed h.holds]
    exact holds_flushAll h.holds
  handed := by
    intro x hx
    show u.cache.flushAll.2.slots[x.1].guest = x.2 ∧ u.cache.flushAll.2.slots[x.1].locked = true
    rw [guest_flushAll, locked_flushAll]
    exact h.handed x hx
  apart := h.apart
  spares := h.spares_append (sparesZero_flushAll h.wellFormed)

theorem Sound.unload :
    Sound { u.carry u.cache.unloadAll.1 u.cache.unloadAll.2 with handed := [] } regs where
  wellFormed := u.cache.wellFormed_unloadAll
  holds := by
    refine u.cache.empty_unloadAll.holds_iff.mpr ?_
    exact congrArg Bank.file (runAll_flushAll h.wellFormed h.holds)
  handed := by simp
  apart := .nil
  spares := h.spares_append (sparesZero_flushAll h.wellFormed)

theorem Sound.release : Sound { u with cache := u.cache.releaseLocks, handed := [] } regs where
  wellFormed := u.cache.sameUse_releaseLocks.wellFormed h.wellFormed
  holds := u.cache.sameUse_releaseLocks.holds h.holds
  handed := by simp
  apart := .nil
  spares := h.spares

/-- One request. -/
theorem Sound.perform {r : Request} (hr : r.IsValid)
    (hu : u.perform r = some u') : u'.Sound (r.update regs) := by
  cases r with
  | read g =>
    obtain ⟨a, ha, rfl⟩ := Option.map_eq_some_iff.mp hu
    exact h.read hr ha
  | write g value =>
    obtain ⟨a, ha, rfl⟩ := Option.map_eq_some_iff.mp hu
    exact h.write hr.1 hr.2 ha value
  | scratch value =>
    obtain ⟨a, ha, rfl⟩ := Option.map_eq_some_iff.mp hu
    exact h.scratch ha value
  | release =>
    cases hu
    exact h.release
  | flush =>
    cases hu
    exact h.flush
  | unload =>
    cases hu
    exact h.unload

/-- A run of requests. -/
theorem Sound.run {requests : List Request} (hvalid : ∀ r ∈ requests, r.IsValid)
    (hu : Use.run requests u = some u') : ∃ regs', u'.Sound regs' := by
  induction requests generalizing u regs with
  | nil =>
    cases hu
    exact ⟨regs, h⟩
  | cons r requests ih =>
    obtain ⟨u1, h1, hrest⟩ := Option.bind_eq_some_iff.mp hu
    have hsound := h.perform (hvalid r List.mem_cons_self) h1
    exact ih hsound (fun r' hr' => hvalid r' (List.mem_cons_of_mem r hr')) hrest

end

/-! ## What requests answer -/

/-- No two host registers stand for one guest register, what was handed out for the instruction at
hand is in place and was not given to something else, and register zero was never stored. -/
structure Orderly (u : Use) : Prop where
  unique : ∀ {h k : HostReg} {g : Reg}, u.cache.slots[h].guest = some g →
    u.cache.slots[k].guest = some g → h = k
  handed : ∀ x ∈ u.handed, u.cache.slots[x.1].guest = x.2 ∧ u.cache.slots[x.1].locked = true
  apart : Apart u.handed
  spares : ∀ (h : HostReg), RegisterTransfer.store h 0 ∉ u.transfers

/-- What request `r` leads to. Every register has its value, and a register that is written has the
one it was given. -/
structure Answers (u : Use) (r : Request) (u' : Use) : Prop where
  written : ∀ {g : Reg} {value : UInt32}, r = .write g value → u'.valueOf g = value
  kept : ∀ {g : Reg}, g.IsOwn → (∀ value, r ≠ .write g value) → u'.valueOf g = u.valueOf g
  read : ∀ {g : Reg}, r = .read g → ∃ h : HostReg,
    u'.handed = (h, some g) :: u.handed ∧ u'.bank.host[h] = u.valueOf g
  stored : r = .flush ∨ r = .unload → ∀ {g : Reg}, g.IsOwn → u'.bank.file.get g = u'.valueOf g

theorem Sound.orderly (h : u.Sound regs) : u.Orderly where
  unique := h.wellFormed.unique
  handed := h.handed
  apart := h.apart
  spares := fun _ hk => absurd rfl (h.spares _ hk)

/-- After everything was written back the file has all values. -/
theorem Sound.file_eq_of_flush (h : u.Sound regs) :
    (runAll u.cache.flushAll.1 u.bank).file = regs :=
  congrArg Bank.file (runAll_flushAll h.wellFormed h.holds)

theorem Sound.answers (h : u.Sound regs) {r : Request} (hr : r.IsValid)
    (hu : u.perform r = some u') : u.Answers r u' := by
  have h' := h.perform hr hu
  -- Each answer is read off the values that the requests so far amount to.
  constructor
  · rintro g value rfl
    rw [h'.valueOf_eq hr.1]
    exact Registers.get_set_self hr.2 regs value
  · intro g hg hnot
    rw [h'.valueOf_eq hg, h.valueOf_eq hg]
    cases r with
    | write g' value =>
      have hne : g ≠ g' := by
        rintro rfl
        exact hnot value rfl
      exact Registers.get_set_of_ne hg hr.1 hne regs value
    | read | scratch | release | flush | unload => rfl
  · rintro g rfl
    obtain ⟨a, ha, rfl⟩ := Option.map_eq_some_iff.mp hu
    have hread := Reads.of_allocIn? h.wellFormed hr ha
    refine ⟨a.host, rfl, ?_⟩
    rw [h.valueOf_eq hr]
    exact h'.holds.mapped hread.guest
  · rintro hstore g hg
    rw [h'.valueOf_eq hg]
    rcases hstore with rfl | rfl
    · cases hu
      exact congrArg (Registers.get · g) h.file_eq_of_flush
    · cases hu
      exact congrArg (Registers.get · g) h.file_eq_of_flush

/-- However a cache is used from empty on, it loses no guest value and mixes up no two of them, and
it serves every request but one that needs a host register while all of them are locked. -/
theorem run_keeps_values (cache : RegisterCache) (bank : Bank) {requests : List Request}
    (hvalid : ∀ r ∈ requests, r.IsValid) (hrun : run requests (start cache bank) = some u) :
    u.Orderly ∧ ∀ r : Request, r.IsValid →
      (u.perform r = none ↔
        u.needsRoom r = true ∧ ∀ h : HostReg, u.cache.slots[h].locked = true) ∧
      ∀ u', u.perform r = some u' → u.Answers r u' := by
  obtain ⟨regs, h⟩ := (sound_start cache bank).run hvalid hrun
  refine ⟨h.orderly, fun r hr => ⟨u.perform_eq_none_iff r, fun u' hu => ?_⟩⟩
  exact h.answers hr hu

/-- A bank in which everything is zero. -/
def blank : Bank := { host := .replicate 8 0, file := {} }

/-- Nine registers for eight places: the first one is given up for the last one, and the second one
while the first is read again. -/
def crowded : List Request :=
  [.write 1 11, .release, .write 2 12, .release, .write 3 13, .release, .write 4 14, .release,
    .write 5 15, .release, .write 6 16, .release, .write 7 17, .release, .write 8 18, .release,
    .write 20 30, .release, .read 1]

theorem run_keeps_values_crowded : ∃ u, run crowded (start {} blank) = some u ∧ u.Orderly ∧
    u.cache.find? 2 = none ∧ u.valueOf 1 = 11 ∧ u.valueOf 2 = 12 ∧
    ∀ u', u.perform .unload = some u' → u'.bank.file.get 8 = u'.valueOf 8 ∧ u'.valueOf 8 = 18 := by
  have hsome : (run crowded (start {} blank)).any (fun u => decide (u.cache.find? 2 = none ∧
      u.valueOf 1 = 11 ∧ u.valueOf 2 = 12 ∧ u.valueOf 8 = 18)) = true := by decide +kernel
  obtain ⟨u, hrun, hu⟩ := (Option.any_eq_true _ _).mp hsome
  obtain ⟨hfind, h1, h2, h8⟩ := of_decide_eq_true hu
  obtain ⟨horderly, hall⟩ := run_keeps_values {} blank (by decide) hrun
  refine ⟨u, hrun, horderly, hfind, h1, h2, fun u' hu' => ?_⟩
  have hanswers := (hall .unload trivial).2 u' hu'
  refine ⟨hanswers.stored (.inr rfl) (by decide), ?_⟩
  exact (hanswers.kept (by decide) (by simp)).trans h8

/-- Emptying the cache gives up the operands of the instruction at hand: host register 0, handed out
for register 1, comes to stand for register 2 although no locks were released. -/
theorem unload_gives_up_operands :
    (run [.read 1] (start {} blank)).map (fun u => u.handed) = some [(0, some 1)] ∧
    (run [.read 1, .unload, .read 2] (start {} blank)).map
      (fun u => u.cache.slots[(0 : HostReg)].guest) = some (some 2) := by decide

end Use

end RegisterCache

end Dynarec
