/-
  Dynarec.Proofs.Layout

  Where addresses lead, and which slots they have.

  On a map whose regions do not overlap, an address lies in at most one region,
  and the table of entries finds the same region as the map does. Slots of
  different words of code are different slots.
-/
import Dynarec.Proofs.EntryTable
import Dynarec.Proofs.Memory

namespace Dynarec

/-! ## Physical addresses -/

variable (addr : UInt32)

theorem toNat_physical : (physical addr).toNat =
      if 0xa0000000 ≤ addr.toNat then addr.toNat - 0xa0000000 else addr.toNat % 2 ^ 31 := by
  unfold physical
  by_cases h : 0xa0000000 ≤ addr
  · have hle : 0xa0000000 ≤ addr.toNat := UInt32.le_iff_toNat_le.mp h
    rw [if_pos h, if_pos hle, UInt32.toNat_sub_of_le _ _ h]
    rfl
  · have hle : ¬ 0xa0000000 ≤ addr.toNat := fun hle => h (UInt32.le_iff_toNat_le.mpr hle)
    rw [if_neg h, if_neg hle, UInt32.toNat_and]
    exact Nat.and_two_pow_sub_one_eq_mod addr.toNat 31

/-- Low physical addresses go on as long as their segment does. -/
theorem physical_add {pc n : UInt32} (h : (physical pc).toNat + n.toNat < 0x20000000) :
    physical (pc + n) = physical pc + n := by
  rw [← UInt32.toNat_inj, toNat_physical, UInt32.toNat_add, UInt32.toNat_add]
  rw [toNat_physical] at h ⊢
  have hpc := pc.toNat_lt
  split at h
  · rename_i hle
    rw [if_pos (by omega), if_pos hle]
    omega
  · rename_i hle
    rw [if_neg hle]
    split
    · omega
    · omega

theorem physical_of_low {addr : UInt32} (h : addr.toNat < 0x80000000) : physical addr = addr := by
  rw [← UInt32.toNat_inj, toNat_physical, if_neg (by omega)]
  exact Nat.mod_eq_of_lt h

/-- Alignment of an address to a word shows in its physical address. -/
theorem toNat_physical_mod_four : (physical addr).toNat % 4 = addr.toNat % 4 := by
  rw [toNat_physical]
  split
  · omega
  · omega

theorem toNat_and_three : (addr &&& 3).toNat = addr.toNat % 4 := by
  rw [UInt32.toNat_and]
  exact Nat.and_two_pow_sub_one_eq_mod addr.toNat 2

/-- The word around an address. -/
theorem toNat_and_aligned : (addr &&& 0xfffffffc).toNat = addr.toNat - addr.toNat % 4 := by
  have hlt := addr.toNat_lt
  have hdiv : (addr &&& 0xfffffffc).toNat / 2 ^ 2 = addr.toNat / 2 ^ 2 := by
    rw [UInt32.toNat_and, Nat.and_div_two_pow]
    exact Nat.and_two_pow_sub_one_of_lt_two_pow (n := 30) (by omega)
  have hmod : (addr &&& 0xfffffffc).toNat % 2 ^ 2 = 0 := by
    rw [UInt32.toNat_and, Nat.and_mod_two_pow]
    exact Nat.and_zero _
  omega

/-! ## Regions -/

theorem Region.contains_iff {r : Region} {paddr : UInt32} : r.contains paddr = true ↔
      r.base.toNat ≤ paddr.toNat ∧ paddr.toNat < r.base.toNat + r.length.toNat := by
  unfold Region.contains
  rw [Bool.and_eq_true, decide_eq_true_eq, decide_eq_true_eq, UInt32.le_iff_toNat_le,
    UInt32.lt_iff_toNat_lt]
  constructor
  · rintro ⟨hle, hlt⟩
    rw [UInt32.toNat_sub_of_le _ _ (UInt32.le_iff_toNat_le.mpr hle)] at hlt
    omega
  · rintro ⟨hle, hlt⟩
    rw [UInt32.toNat_sub_of_le _ _ (UInt32.le_iff_toNat_le.mpr hle)]
    omega

namespace Layout

variable {l : Layout} {i j : Nat} {r s : Region} {addr paddr : UInt32}

/-- A physical address lies in the region at position `i`, which is `r`. -/
structure Holds (l : Layout) (i : Nat) (r : Region) (paddr : UInt32) : Prop where
  region : l.regions[i]? = some r
  contains : r.contains paddr = true

/-- No address lies in two regions. -/
def Apart (l : Layout) : Prop :=
  ∀ {i j : Nat} {r s : Region} {paddr : UInt32}, l.Holds i r paddr → l.Holds j s paddr → i = j

/-- The region behind all aliases. -/
def behind (l : Layout) (i : Nat) : Region := l.regions.getD (l.canonical i) default

/-- Where a physical address in the region at position `i` leads. -/
def seat (l : Layout) (i : Nat) (r : Region) (paddr : UInt32) : Resolved :=
  let offset := (paddr - r.base) % (l.behind i).length
  { index := l.canonical i
    offset
    paddr := (l.behind i).base + offset
    kind := (l.behind i).backing.kind }

theorem holds_of_resolve {res : Resolved} (h : l.resolve addr = .ok res) :
    ∃ i r, l.Holds i r (physical addr) ∧ res = l.seat i r (physical addr) := by
  unfold resolve at h
  dsimp only at h
  split at h
  · cases h
  · rename_i found hfound
    obtain ⟨hlt, hcontains, -⟩ := Array.findIdx?_eq_some_iff_getElem.mp hfound
    have hregion : l.regions[found]? = some l.regions[found] := Array.getElem?_eq_getElem hlt
    have hget : l.regions.getD found default = l.regions[found] := by
      rw [Array.getD_eq_getD_getElem?, hregion, Option.getD_some]
    cases h
    refine ⟨found, l.regions[found], ⟨hregion, hcontains⟩, ?_⟩
    rw [hget]
    rfl

/-- Where no regions overlap, an address leads into the one that holds it. -/
theorem Apart.resolve (hl : l.Apart) (h : l.Holds i r (physical addr)) :
    l.resolve addr = .ok (l.seat i r (physical addr)) := by
  cases hres : l.resolve addr with
  | ok res =>
    obtain ⟨j, s, hs, rfl⟩ := holds_of_resolve hres
    cases hl h hs
    cases h.region.symm.trans hs.region
    rfl
  | error f =>
    unfold Layout.resolve at hres
    dsimp only at hres
    split at hres
    · rename_i hnone
      obtain ⟨hlt, rfl⟩ := Array.getElem?_eq_some_iff.mp h.region
      have hnot := Array.findIdx?_eq_none_iff.mp hnone _ (Array.getElem_mem hlt)
      rw [h.contains] at hnot
      cases hnot
    · cases hres

variable {regions : Array Region}

theorem errorFrom?_eq_none_iff {rest : List Region} {index : Nat} :
    errorFrom? regions index rest = none ↔
      ∀ {k r}, rest[k]? = some r → regionError? regions (index + k) r = none := by
  induction rest generalizing index with
  | nil => simp [errorFrom?]
  | cons first rest ih =>
    rw [errorFrom?]
    constructor
    · intro hnone k r hk
      split at hnone
      · cases hnone
      · rename_i hfirst
        cases k with
        | zero =>
          cases hk
          exact hfirst
        | succ k =>
          have hrest := ih.mp hnone hk
          rwa [Nat.add_right_comm] at hrest
    · intro hall
      have hfirst : regionError? regions index first = none := hall (k := 0) rfl
      rw [hfirst]
      refine ih.mpr fun {k r} hk => ?_
      rw [Nat.add_right_comm]
      exact hall (k := k + 1) hk

/-- A map is checked region by region. -/
theorem error?_eq_none_iff : error? regions = none ↔
      ∀ {i r}, regions[i]? = some r → regionError? regions i r = none := by
  rw [error?, errorFrom?_eq_none_iff]
  simp only [Nat.zero_add, Array.getElem?_toList]

theorem regionError?_eq_none (h : l.regions[i]? = some r) : regionError? l.regions i r = none :=
  error?_eq_none_iff.mp l.valid h

/-- No region is empty. -/
theorem length_ne_zero (h : l.regions[i]? = some r) : r.length ≠ 0 := by
  intro hzero
  have hnone := regionError?_eq_none h
  rw [regionError?, if_pos hzero] at hnone
  cases hnone

theorem follow_of_own (hr : regions[i]? = some r) (hown : r.isAlias = false)
    (hops : Nat) : follow regions hops i = i := by
  cases hops with
  | zero => rfl
  | succ hops =>
    rw [follow, hr]
    obtain ⟨base, length, backing, code⟩ := r
    cases backing with
    | aliasOf target => cases hown
    | ram | rom | device => rfl

theorem canonical_of_not_isAlias (h : l.regions[i]? = some r) (ha : r.isAlias = false) :
    l.canonical i = i := follow_of_own h ha _

/-! ## Slots -/

/-- Number of slots of the region at position `i`. -/
def slotsOf (l : Layout) (i : Nat) : Nat :=
  if l.isCode i then EntryTable.slotCount (l.regions.getD i default).length else 0

/-- First slot of the region at position `i`. -/
def firstSlot (l : Layout) : Nat → Nat
  | 0 => 0
  | i + 1 => l.firstSlot i + l.slotsOf i

theorem firstSlot_mono {i j : Nat} (h : i ≤ j) : l.firstSlot i ≤ l.firstSlot j := by
  induction h with
  | refl => exact Nat.le_refl _
  | step _ ih => exact Nat.le_trans ih (Nat.le_add_right _ _)

/-- Regions do not share slots. -/
theorem firstSlot_inj {m n : Nat} (hm : m < l.slotsOf i) (hn : n < l.slotsOf j)
    (h : l.firstSlot i + m = l.firstSlot j + n) : i = j ∧ m = n := by
  have hij : i = j := by
    rcases Nat.lt_trichotomy i j with hlt | heq | hlt
    · have hle : l.firstSlot i + l.slotsOf i ≤ l.firstSlot j := firstSlot_mono hlt
      omega
    · exact heq
    · have hle : l.firstSlot j + l.slotsOf j ≤ l.firstSlot i := firstSlot_mono hlt
      omega
  subst hij
  exact ⟨rfl, by omega⟩

end Layout

namespace EntryTable

open Layout (Apart)

variable {l : Layout} {t : EntryTable}

theorem placeRegions_eq (l : Layout) : placeRegions l = ((Array.range l.regions.size).map fun i =>
      if l.isCode i then some (l.firstSlot i) else none, l.firstSlot l.regions.size) := by
  unfold placeRegions
  generalize l.regions.size = n
  rw [← Array.foldl_toList, Array.toList_range]
  induction n with
  | zero => simp [Layout.firstSlot]
  | succ n ih =>
    rw [List.range_succ, List.foldl_append, ih, Array.range_succ, Array.map_append,
      Layout.firstSlot, Layout.slotsOf]
    dsimp only [List.foldl_cons, List.foldl_nil]
    cases hcode : l.isCode n with
    | true => simp [hcode]
    | false => simp [hcode]

/-- The regions with slots, in the order of the map. -/
theorem regions_ofLayout (l : Layout) (maxBlockOps : Nat) :
    (ofLayout l maxBlockOps).regions = (List.range l.regions.size).filterMap fun i =>
      if l.isCode (l.canonical i) then
        some {
          base := (l.regions.getD i default).base
          length := (l.regions.getD i default).length
          canonicalLength := (l.behind i).length
          first := l.firstSlot (l.canonical i) }
      else none := by
  unfold ofLayout
  rw [placeRegions_eq]
  dsimp only
  congr 1
  funext i
  rw [Array.getElem?_map, Array.getElem?_range]
  by_cases hlt : l.canonical i < l.regions.size
  · rw [if_pos hlt, Option.map_some]
    cases hcode : l.isCode (l.canonical i) with
    | true => rfl
    | false => rfl
  · have hcode : l.isCode (l.canonical i) = false := by
      unfold Layout.isCode
      rw [Array.getElem?_eq_none (Nat.le_of_not_lt hlt)]
    rw [if_neg hlt, hcode]
    rfl

/-- Place in the table of what an address leads to. -/
def place (l : Layout) (r : Resolved) : SlotPosition where
  first := l.firstSlot r.index
  slots := slotCount (l.regions.getD r.index default).length
  word := r.offset.toNat / 4

/-- The table finds an address where the map does. -/
theorem locate_eq (hl : l.Apart) {maxBlockOps : Nat}
    (ht : t.regions = (ofLayout l maxBlockOps).regions) (addr : UInt32) :
    t.locate addr =
      match l.resolve addr with
      | .ok r => if l.isCode r.index then some (place l r) else none
      | .error _ => none := by
  -- a region of the table that holds the address is the region that the map finds
  have hfound : ∀ {r}, r ∈ t.regions →
      (r.base ≤ physical addr && physical addr - r.base < r.length) = true →
      ∃ i s, l.Holds i s (physical addr) ∧ l.isCode (l.canonical i) = true ∧
        r.base = s.base ∧ r.canonicalLength = (l.behind i).length ∧
        r.first = l.firstSlot (l.canonical i) := by
    intro r hr hcontains
    rw [ht, regions_ofLayout] at hr
    obtain ⟨i, hi, hsome⟩ := List.mem_filterMap.mp hr
    split at hsome
    · rename_i hcode
      have hlt := List.mem_range.mp hi
      have hget : l.regions.getD i default = l.regions[i] := by simp [hlt]
      rw [hget] at hsome
      cases hsome
      exact ⟨i, l.regions[i], ⟨Array.getElem?_eq_getElem hlt, hcontains⟩, hcode, rfl, rfl, rfl⟩
    · cases hsome
  unfold locate
  dsimp only
  cases hfind : t.regions.find? fun r =>
      r.base ≤ physical addr && physical addr - r.base < r.length with
  | some r =>
    have hcontains := List.find?_some hfind
    obtain ⟨i, s, hs, hcode, hbase, hlength, hfirst⟩ :=
      hfound (List.mem_of_find?_eq_some hfind) hcontains
    rw [hl.resolve hs]
    dsimp only [Layout.seat]
    rw [if_pos hcode, hbase, hlength, hfirst]
    rfl
  | none =>
    cases hres : l.resolve addr with
    | error f => rfl
    | ok res =>
      obtain ⟨i, s, hs, rfl⟩ := Layout.holds_of_resolve hres
      dsimp only [Layout.seat]
      rw [if_neg]
      intro hcode
      -- its region has slots and would have been found
      obtain ⟨hlt, rfl⟩ := Array.getElem?_eq_some_iff.mp hs.region
      have hmem : {
          base := l.regions[i].base
          length := l.regions[i].length
          canonicalLength := (l.behind i).length
          first := l.firstSlot (l.canonical i) : TableRegion } ∈ t.regions := by
        rw [ht, regions_ofLayout]
        refine List.mem_filterMap.mpr ⟨i, List.mem_range.mpr hlt, ?_⟩
        rw [if_pos hcode, show l.regions.getD i default = l.regions[i] by simp [hlt]]
      exact List.find?_eq_none.mp hfind _ hmem hs.contains

/-- The slot of an address that leads into code. -/
theorem index?_eq_some_iff (hl : l.Apart) {maxBlockOps : Nat}
    (ht : t.regions = (ofLayout l maxBlockOps).regions) {addr : UInt32} {slot : Nat} :
    t.index? addr = some slot ↔ ∃ r, l.resolve addr = .ok r ∧ l.isCode r.index = true ∧
      slot = l.firstSlot r.index + r.offset.toNat / 4 := by
  unfold index?
  rw [locate_eq hl ht]
  cases l.resolve addr with
  | error f => simp
  | ok r =>
    dsimp only
    by_cases hcode : l.isCode r.index = true
    · rw [if_pos hcode]
      constructor
      · intro h
        cases h
        exact ⟨r, rfl, hcode, rfl⟩
      · rintro ⟨_, hr, -, rfl⟩
        cases hr
        rfl
    · rw [if_neg hcode]
      refine ⟨nofun, ?_⟩
      rintro ⟨_, hr, hcode', -⟩
      cases hr
      exact absurd hcode' hcode

end EntryTable

/-- An offset lies in its region. -/
theorem Layout.offset_lt {l : Layout} {addr : UInt32} {r : Resolved} (h : l.resolve addr = .ok r)
    (hcode : l.isCode r.index = true) :
    r.offset.toNat < (l.regions.getD r.index default).length.toNat ∧
      r.offset.toNat / 4 < l.slotsOf r.index := by
  obtain ⟨i, s, hs, rfl⟩ := holds_of_resolve h
  have hlt : l.canonical i < l.regions.size := by
    apply Decidable.byContradiction
    intro hnot
    unfold isCode at hcode
    rw [show l.regions[(l.seat i s (physical addr)).index]? = none from
      Array.getElem?_eq_none (Nat.le_of_not_lt hnot)] at hcode
    cases hcode
  have hlength : (l.behind i).length ≠ 0 := by
    have hregion : l.regions[l.canonical i]? = some (l.behind i) := by
      simp [behind, hlt]
    exact length_ne_zero hregion
  have hpos : 0 < (l.behind i).length.toNat := by
    rcases Nat.eq_zero_or_pos (l.behind i).length.toNat with hzero | hpos
    · exact absurd (UInt32.toNat_inj.mp hzero) hlength
    · exact hpos
  have hoffset : (l.seat i s (physical addr)).offset.toNat < (l.behind i).length.toNat := by
    show ((physical addr - s.base) % (l.behind i).length).toNat < _
    rw [UInt32.toNat_mod]
    exact Nat.mod_lt _ hpos
  refine ⟨hoffset, ?_⟩
  unfold slotsOf
  rw [if_pos hcode]
  show _ < ((l.behind i).length.toNat + 3) / 4
  omega

/-- Words of code that share a slot are the same word of the same region. -/
theorem EntryTable.eq_of_index? {l : Layout} {t : EntryTable} (hl : l.Apart) {maxBlockOps : Nat}
    (ht : t.regions = (ofLayout l maxBlockOps).regions) {addr addr' : UInt32} {slot : Nat}
    (h : t.index? addr = some slot) (h' : t.index? addr' = some slot) :
    ∃ r r', l.resolve addr = .ok r ∧ l.resolve addr' = .ok r' ∧ r.index = r'.index ∧
      r.offset.toNat / 4 = r'.offset.toNat / 4 := by
  obtain ⟨r, hr, hcode, hslot⟩ := (index?_eq_some_iff hl ht).mp h
  obtain ⟨r', hr', hcode', hslot'⟩ := (index?_eq_some_iff hl ht).mp h'
  obtain ⟨hindex, hword⟩ := Layout.firstSlot_inj (Layout.offset_lt hr hcode).2
    (Layout.offset_lt hr' hcode').2 (hslot.symm.trans hslot')
  exact ⟨r, r', hr, hr', hindex, hword⟩

/-! ## Maps without aliases -/

/-- Regions that do not overlap and start at whole words, none of them an alias. -/
structure Layout.Plain (l : Layout) : Prop where
  apart : l.Apart
  own : ∀ {i : Nat} {r : Region}, l.regions[i]? = some r → r.isAlias = false
  aligned : ∀ {i : Nat} {r : Region}, l.regions[i]? = some r → r.base.toNat % 4 = 0

/-- A single region that is memory of its own. -/
theorem Layout.Plain.of_single {l : Layout} {r : Region} (h : l.regions = #[r])
    (hown : r.isAlias = false) (haligned : r.base.toNat % 4 = 0) : l.Plain := by
  have hget : ∀ {i s}, l.regions[i]? = some s → i = 0 ∧ s = r := by
    intro i s hs
    rw [h] at hs
    obtain ⟨hi, rfl⟩ := Array.getElem?_eq_some_iff.mp hs
    have hzero : i = 0 := Nat.lt_one_iff.mp hi
    subst hzero
    exact ⟨rfl, rfl⟩
  refine ⟨fun hi hj => ?_, fun hr => (hget hr).2 ▸ hown, fun hr => (hget hr).2 ▸ haligned⟩
  rw [(hget hi.1).1, (hget hj.1).1]

namespace Layout.Plain

variable {l : Layout} {pc : UInt32} {r : Resolved}

/-- An address leads into the region that holds it, as far behind the region's start as it is. -/
theorem holds (hl : l.Plain) (h : l.resolve pc = .ok r) :
    ∃ s, l.Holds r.index s (physical pc) ∧ l.regions.getD r.index default = s ∧
      r.offset = physical pc - s.base ∧ (physical pc).toNat = s.base.toNat + r.offset.toNat ∧
      r.offset.toNat < s.length.toNat := by
  obtain ⟨i, s, hs, rfl⟩ := holds_of_resolve h
  have hcanonical := canonical_of_not_isAlias hs.region (hl.own hs.region)
  have hget : l.regions.getD i default = s := by
    rw [Array.getD_eq_getD_getElem?, hs.region, Option.getD_some]
  have hbehind : l.behind i = s := by rw [behind, hcanonical, hget]
  obtain ⟨hbase, hend⟩ := Region.contains_iff.mp hs.contains
  have hsub := UInt32.toNat_sub_of_le _ _ (UInt32.le_iff_toNat_le.mpr hbase)
  have hoffset : (l.seat i s (physical pc)).offset = physical pc - s.base := by
    show (physical pc - s.base) % (l.behind i).length = _
    rw [hbehind, ← UInt32.toNat_inj, UInt32.toNat_mod]
    exact Nat.mod_eq_of_lt (by omega)
  have hindex : (l.seat i s (physical pc)).index = i := hcanonical
  rw [hindex, hoffset]
  exact ⟨s, hs, hget, rfl, by omega, by omega⟩

theorem offset_mod_four (hl : l.Plain) (h : l.resolve pc = .ok r) :
    r.offset.toNat % 4 = pc.toNat % 4 := by
  obtain ⟨s, hs, -, -, haddr, -⟩ := hl.holds h
  have hbase := hl.aligned hs.region
  have hpc := toNat_physical_mod_four pc
  omega

/-- Addresses that lead to the same place are the same physical address. -/
theorem physical_inj (hl : l.Plain) {pc' : UInt32} {r' : Resolved} (h : l.resolve pc = .ok r)
    (h' : l.resolve pc' = .ok r') (hindex : r.index = r'.index)
    (hoffset : r.offset.toNat = r'.offset.toNat) : physical pc = physical pc' := by
  obtain ⟨s, hs, hget, -, haddr, -⟩ := hl.holds h
  obtain ⟨s', hs', hget', -, haddr', -⟩ := hl.holds h'
  rw [hindex, hget'] at hget
  subst hget
  rw [← UInt32.toNat_inj]
  omega

/-- Behind an address the region goes on. -/
theorem resolve_add (hl : l.Plain) (h : l.resolve pc = .ok r) {n : UInt32}
    (hlow : (physical pc).toNat + n.toNat < 0x20000000)
    (hfits : r.offset.toNat + n.toNat < (l.regions.getD r.index default).length.toNat) :
    ∃ r', l.resolve (pc + n) = .ok r' ∧ r'.index = r.index ∧
      r'.offset.toNat = r.offset.toNat + n.toNat := by
  obtain ⟨s, hs, hget, -, haddr, -⟩ := hl.holds h
  rw [hget] at hfits
  have hadd : (physical pc + n).toNat = (physical pc).toNat + n.toNat := by
    rw [UInt32.toNat_add]
    exact Nat.mod_eq_of_lt (by omega)
  have hholds : l.Holds r.index s (physical (pc + n)) := by
    refine ⟨hs.region, ?_⟩
    rw [physical_add hlow, Region.contains_iff, hadd]
    omega
  have hres := Apart.resolve hl.apart hholds
  refine ⟨_, hres, canonical_of_not_isAlias hs.region (hl.own hs.region), ?_⟩
  obtain ⟨s', hs', hget', -, haddr', -⟩ := hl.holds hres
  rw [hl.apart hs' hholds, hget] at hget'
  subst hget'
  have hphysical := congrArg UInt32.toNat (physical_add hlow)
  omega

end Layout.Plain

namespace Memory

variable {δ : Type} {m m' : Memory δ}

/-- What is memory is memory on the map, of the same size. -/
def Sized (m : Memory δ) : Prop :=
  ∀ {i : Nat} {data : ByteArray}, m.bytes? i = some data →
    ∃ r, m.layout.regions[i]? = some r ∧ r.isDirect = true ∧ data.size = r.length.toNat

/-- The bytes of a single region. -/
theorem Sized.of_single {r : Region} (hregions : m.layout.regions = #[r])
    (hdirect : r.isDirect = true) (hcount : m.contents.size = 1)
    (hsize : m.size? 0 = some r.length.toNat) : m.Sized := by
  intro i data hdata
  have hi : i < m.contents.size := by
    refine Nat.lt_of_not_le fun hle => ?_
    rw [bytes?, Array.getElem?_eq_none hle] at hdata
    cases hdata
  have hzero : i = 0 := by omega
  subst hzero
  rw [size?_eq_map, hdata] at hsize
  exact ⟨r, by rw [hregions]; rfl, hdirect, Option.some.inj hsize⟩

theorem SameExcept.sized {W : Nat → Nat → Prop} (h : SameExcept W m m') (hm : m.Sized) :
    m'.Sized := by
  intro i data hdata
  obtain ⟨old, hold, hsize⟩ := h.bytes?_isSome hdata
  obtain ⟨r, hr, hdirect, hlength⟩ := hm hold
  exact ⟨r, h.layout ▸ hr, hdirect, hsize.symm.trans hlength⟩

/-- A word that was read, and where it stands. -/
theorem readWord_eq_ok_iff {addr word : UInt32} :
    m.readWord addr = .ok word ↔ ∃ r data, m.layout.resolve addr = .ok r ∧
      m.bytes? r.index = some data ∧ r.offset.toNat + 4 ≤ data.size ∧
      word = Bytes.wordAt data r.offset.toNat := by
  unfold readWord locate
  cases m.layout.resolve addr with
  | error f => simp
  | ok r =>
    dsimp only
    rw [size?_eq_map]
    cases hdata : m.bytes? r.index with
    | none => simp [hdata]
    | some data =>
      dsimp only [Option.map_some]
      by_cases hfits : r.offset.toNat + 4 ≤ data.size
      · rw [if_pos hfits]
        dsimp only
        rw [hdata]
        simp [hdata, hfits, eq_comm]
      · rw [if_neg hfits]
        simp [hdata, hfits]

end Memory

end Dynarec
