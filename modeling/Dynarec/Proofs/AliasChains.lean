/-
  Dynarec.Proofs.AliasChains

  Which lists of regions are maps, and where chains of aliases end.

  A chain ends in a region that is no alias. All regions on the way to it are
  a different number of hops from the end, so a chain that ends passes no
  region twice and has fewer hops than there are regions. Hence the check of a
  map, which gives up after as many hops, refuses no chain that ends, and the
  walk along a chain of a map needs no bound: it always ends.
-/
import Dynarec.Iteration
import Dynarec.Proofs.Layout
import Mathlib.Data.Fintype.Card
import Mathlib.Logic.Relation

namespace Dynarec

namespace Layout

variable {regions : Array Region} {start hops i j k n : Nat} {r : Region}

/-! ## Chains -/

/-- Region `i` is an alias of what is at position `j`, if anything is. -/
def Hop (regions : Array Region) (i j : Nat) : Prop :=
  ∃ r, regions[i]? = some r ∧ r.backing = .aliasOf j

/-- The chain of region `i` ends, after `n` hops, in region `j`, which is no alias. -/
inductive Ends (regions : Array Region) : (n i j : Nat) → Prop
  | here {i : Nat} {r : Region} (h : regions[i]? = some r) (hown : r.isAlias = false) :
      Ends regions 0 i i
  | hop {n i t j : Nat} (h : Hop regions i t) (hends : Ends regions n t j) :
      Ends regions (n + 1) i j

theorem isAlias_of_backing {t : Nat} (h : r.backing = .aliasOf t) : r.isAlias = true := by
  unfold Region.isAlias
  rw [h]

theorem isAlias_cases (r : Region) : r.isAlias = false ∨ ∃ t, r.backing = .aliasOf t := by
  unfold Region.isAlias
  cases r.backing with
  | aliasOf t => exact .inr ⟨t, rfl⟩
  | ram | rom | device => exact .inl rfl

/-- A region is an alias of one thing at most. -/
theorem Hop.eq (h : Hop regions i j) (h' : Hop regions i k) : j = k := by
  obtain ⟨r, hr, hj⟩ := h
  obtain ⟨s, hs, hk⟩ := h'
  cases hr.symm.trans hs
  cases hj.symm.trans hk
  rfl

theorem Hop.not_own (h : Hop regions i j) (hr : regions[i]? = some r) : r.isAlias = true := by
  obtain ⟨s, hs, hj⟩ := h
  cases hr.symm.trans hs
  exact isAlias_of_backing hj

namespace Ends

variable (h : Ends regions n i j)
include h

theorem lt_size : i < regions.size := by
  cases h with
  | here hr _ => exact (Array.getElem?_eq_some_iff.mp hr).1
  | hop h _ =>
    obtain ⟨r, hr, -⟩ := h
    exact (Array.getElem?_eq_some_iff.mp hr).1

/-- What the chain ends in is no alias. -/
theorem own : ∃ r, regions[j]? = some r ∧ r.isAlias = false := by
  induction h with
  | here hr hown => exact ⟨_, hr, hown⟩
  | hop _ _ ih => exact ih

theorem reaches : Relation.ReflTransGen (Hop regions) i j := by
  induction h with
  | here _ _ => exact .refl
  | hop h _ ih => exact .head h ih

/-- The number of hops to the end belongs to the region. -/
theorem hops_eq (h' : Ends regions k i j) : n = k := by
  induction h generalizing k with
  | here hr hown =>
    cases h' with
    | here _ _ => rfl
    | hop hhop _ => cases hown.symm.trans (hhop.not_own hr)
  | hop hhop _ ih =>
    cases h' with
    | here hr hown => cases hown.symm.trans (hhop.not_own hr)
    | hop hhop' hends =>
      cases hhop.eq hhop'
      rw [ih hends]

/-- The rest of the chain ends in the same region. -/
theorem rest (hreach : Relation.ReflTransGen (Hop regions) i k) : ∃ m, Ends regions m k j := by
  induction hreach with
  | refl => exact ⟨n, h⟩
  | tail _ hhop ih =>
    obtain ⟨m, hends⟩ := ih
    cases hends with
    | here hr hown => cases hown.symm.trans (hhop.not_own hr)
    | hop hhop' hends =>
      cases hhop.eq hhop'
      exact ⟨_, hends⟩

/-- On the way to the end there is a region for every smaller number of hops. -/
theorem exists_of_le (hk : k ≤ n) : ∃ p, Ends regions k p j := by
  induction h with
  | here hr hown =>
    cases Nat.le_zero.mp hk
    exact ⟨_, .here hr hown⟩
  | hop hhop hends ih =>
    rcases Nat.lt_or_eq_of_le hk with hlt | rfl
    · exact ih (Nat.le_of_lt_succ hlt)
    · exact ⟨_, .hop hhop hends⟩

/-- A chain that ends has fewer hops than there are regions. -/
theorem hops_lt : n < regions.size := by
  -- the regions on the way are told apart by the hops that are left
  choose position hposition using fun k : Fin (n + 1) => h.exists_of_le (Nat.le_of_lt_succ k.isLt)
  have hinj : Function.Injective fun k => (⟨position k, (hposition k).lt_size⟩ : Fin regions.size) := by
    intro a b hab
    have hsame : position a = position b := Fin.mk.inj hab
    have hb := hposition b
    rw [← hsame] at hb
    exact Fin.ext ((hposition a).hops_eq hb)
  have hcard := Fintype.card_le_of_injective _ hinj
  rw [Fintype.card_fin, Fintype.card_fin] at hcard
  exact hcard

end Ends

theorem exists_ends (h : Relation.ReflTransGen (Hop regions) i j) (hr : regions[j]? = some r)
    (hown : r.isAlias = false) : ∃ n, Ends regions n i j := by
  induction h using Relation.ReflTransGen.head_induction_on with
  | refl => exact ⟨0, .here hr hown⟩
  | head hhop _ ih =>
    obtain ⟨n, hends⟩ := ih
    exact ⟨n + 1, .hop hhop hends⟩

/-! ## Along a chain -/

/-- One hop of the walk to the end of a chain. Where no region is, the walk breaks off. -/
def walk (regions : Array Region) (i : Nat) : Progress Nat (Option Nat) :=
  match regions[i]? with
  | none => .finished none
  | some r =>
    match r.backing with
    | .aliasOf t => .running t
    | .ram | .rom | .device => .finished (some i)

theorem walk_of_own (hr : regions[i]? = some r) (hown : r.isAlias = false) :
    walk regions i = .finished (some i) := by
  unfold walk
  rw [hr]
  obtain ⟨base, length, backing, code⟩ := r
  cases backing with
  | aliasOf t => cases hown
  | ram | rom | device => rfl

theorem walk_of_hop (h : Hop regions i j) : walk regions i = .running j := by
  obtain ⟨⟨base, length, backing, code⟩, hr, rfl⟩ := h
  unfold walk
  rw [hr]

theorem follow_of_hop (h : Hop regions i j) (hops : Nat) :
    follow regions (hops + 1) i = follow regions hops j := by
  obtain ⟨⟨base, length, backing, code⟩, hr, rfl⟩ := h
  rw [follow, hr]

theorem chainError?_of_own (hr : regions[i]? = some r) (hown : r.isAlias = false) :
    chainError? regions start hops i = none := by
  rw [chainError?, hr]
  obtain ⟨base, length, backing, code⟩ := r
  cases backing with
  | aliasOf t => cases hown
  | ram | rom | device => rfl

/-- At an alias the chain goes on only inside of the list, and only if hops are left. -/
theorem chainError?_of_hop (h : Hop regions i j) : chainError? regions start hops i = none ↔
      j < regions.size ∧ ∃ left, hops = left + 1 ∧ chainError? regions start left j = none := by
  obtain ⟨⟨base, length, backing, code⟩, hr, rfl⟩ := h
  rw [chainError?, hr]
  dsimp only
  split
  · rename_i hmissing
    simp [Nat.not_lt.mpr hmissing]
  · rename_i hthere
    cases hops with
    | zero => simp
    | succ left => simp [Nat.lt_of_not_le hthere]

namespace Ends

/-- The walk comes to the end of the chain. -/
theorem iterate_walk (h : Ends regions n i j) :
    iterate (walk regions) (n + 1) i = .finished (some j) := by
  induction h with
  | here hr hown => rw [iterate_succ, walk_of_own hr hown]
  | hop hhop _ ih =>
    rw [iterate_succ, walk_of_hop hhop]
    exact ih

/-- So it does with a bound on the hops, if the chain is no longer than that. -/
theorem follow_eq (h : Ends regions n i j) (hn : n ≤ hops) : follow regions hops i = j := by
  induction h generalizing hops with
  | here hr hown => exact follow_of_own hr hown hops
  | hop hhop _ ih =>
    cases hops with
    | zero => cases hn
    | succ left =>
      rw [follow_of_hop hhop]
      exact ih (Nat.le_of_succ_le_succ hn)

/-- The check finds nothing wrong with a chain that ends soon enough. -/
theorem chainError?_eq_none (h : Ends regions n i j) (hn : n ≤ hops) :
    chainError? regions start hops i = none := by
  induction h generalizing hops with
  | here hr hown => exact chainError?_of_own hr hown
  | hop hhop hends ih =>
    cases hops with
    | zero => cases hn
    | succ left =>
      exact (chainError?_of_hop hhop).mpr
        ⟨hends.lt_size, left, rfl, ih (Nat.le_of_succ_le_succ hn)⟩

/-- It finds nothing wrong with no other chain. -/
theorem of_chainError? (hlt : i < regions.size) (h : chainError? regions start hops i = none) :
    ∃ n j, Ends regions n i j := by
  induction hops generalizing i with
  | zero =>
    have hr : regions[i]? = some regions[i] := Array.getElem?_eq_getElem hlt
    rcases isAlias_cases regions[i] with hown | ⟨t, ht⟩
    · exact ⟨0, i, .here hr hown⟩
    · obtain ⟨-, left, hleft, -⟩ := (chainError?_of_hop ⟨_, hr, ht⟩).mp h
      cases hleft
  | succ hops ih =>
    have hr : regions[i]? = some regions[i] := Array.getElem?_eq_getElem hlt
    rcases isAlias_cases regions[i] with hown | ⟨t, ht⟩
    · exact ⟨0, i, .here hr hown⟩
    · obtain ⟨hthere, left, hleft, hrest⟩ := (chainError?_of_hop ⟨_, hr, ht⟩).mp h
      cases hleft
      obtain ⟨n, j, hends⟩ := ih hthere hrest
      exact ⟨n + 1, j, .hop ⟨_, hr, ht⟩ hends⟩

end Ends

/-! ## Maps -/

/-- A list of regions that can be a map. -/
structure WellFormed (regions : Array Region) : Prop where
  /-- No region is empty. -/
  nonempty : ∀ {i : Nat} {r : Region}, regions[i]? = some r → r.length ≠ 0
  /-- The last byte of every region has an address. -/
  fits : ∀ {i : Nat} {r : Region}, regions[i]? = some r →
    r.base.toNat + (r.length.toNat - 1) ≤ 2 ^ 32 - 1
  /-- Chains of aliases stay inside of the list. -/
  inside : ∀ {i j}, i < regions.size → Relation.ReflTransGen (Hop regions) i j → j < regions.size
  /-- Chains of aliases end in a region that is none. -/
  ends : ∀ {i}, i < regions.size → ∃ j r, Relation.ReflTransGen (Hop regions) i j ∧
    regions[j]? = some r ∧ r.isAlias = false

theorem regionError?_eq_none_iff (hr : regions[i]? = some r) :
    regionError? regions i r = none ↔ r.length ≠ 0 ∧
      r.base.toNat + (r.length.toNat - 1) ≤ 2 ^ 32 - 1 ∧ ∃ n j, Ends regions n i j := by
  have hlt : i < regions.size := (Array.getElem?_eq_some_iff.mp hr).1
  have hchain : chainError? regions i regions.size i = none ↔ ∃ n j, Ends regions n i j := by
    constructor
    · exact Ends.of_chainError? hlt
    · rintro ⟨n, j, hends⟩
      exact hends.chainError?_eq_none (Nat.le_of_lt hends.hops_lt)
  unfold regionError?
  by_cases hzero : r.length = 0
  · simp [hzero]
  · by_cases hwraps : 4294967296 ≤ r.base.toNat + (r.length.toNat - 1)
    · rw [if_neg hzero, if_pos hwraps]
      simp only [reduceCtorEq, false_iff, not_and]
      intro _ hfits
      omega
    · rw [if_neg hzero, if_neg hwraps, hchain]
      have hfits : r.base.toNat + (r.length.toNat - 1) ≤ 2 ^ 32 - 1 := by omega
      exact ⟨fun hends => ⟨hzero, hfits, hends⟩, fun h => h.2.2⟩

/-- The check of a map finds exactly what is wrong. -/
theorem error?_eq_none_iff_wellFormed : error? regions = none ↔ WellFormed regions := by
  rw [error?_eq_none_iff]
  constructor
  · intro h
    have hregion {i : Nat} {r : Region} (hr : regions[i]? = some r) :=
      (regionError?_eq_none_iff hr).mp (h hr)
    have hends {i : Nat} (hlt : i < regions.size) : ∃ n j, Ends regions n i j :=
      (hregion (Array.getElem?_eq_getElem hlt)).2.2
    refine ⟨fun hr => (hregion hr).1, fun hr => (hregion hr).2.1, fun hlt hreach => ?_,
      fun hlt => ?_⟩
    · obtain ⟨n, j, hends⟩ := hends hlt
      obtain ⟨m, hrest⟩ := hends.rest hreach
      exact hrest.lt_size
    · obtain ⟨n, j, hends⟩ := hends hlt
      obtain ⟨r, hr, hown⟩ := hends.own
      exact ⟨j, r, hends.reaches, hr, hown⟩
  · intro h i r hr
    obtain ⟨j, s, hreach, hs, hown⟩ := h.ends (Array.getElem?_eq_some_iff.mp hr).1
    obtain ⟨n, hends⟩ := exists_ends hreach hs hown
    exact (regionError?_eq_none_iff hr).mpr ⟨h.nonempty hr, h.fits hr, n, j, hends⟩

/-- On a map the end of every chain is found. -/
theorem ends_canonical {l : Layout} (hlt : i < l.regions.size) :
    ∃ n, Ends l.regions n i (l.canonical i) := by
  have hr : l.regions[i]? = some l.regions[i] := Array.getElem?_eq_getElem hlt
  obtain ⟨-, -, n, j, hends⟩ := (regionError?_eq_none_iff hr).mp (regionError?_eq_none hr)
  have hcanonical : l.canonical i = j := hends.follow_eq (Nat.le_of_lt hends.hops_lt)
  exact ⟨n, hcanonical ▸ hends⟩

theorem regions_of_ofRegions {l : Layout} (h : ofRegions regions = .ok l) : l.regions = regions := by
  unfold ofRegions at h
  split at h
  · cases h
    rfl
  · cases h

theorem exists_ofRegions_iff : (∃ l, ofRegions regions = .ok l) ↔ WellFormed regions := by
  rw [← error?_eq_none_iff_wellFormed]
  unfold ofRegions
  split
  · rename_i h
    exact iff_of_true ⟨_, rfl⟩ h
  · rename_i e h
    simp [h]

end Layout

namespace Memory

open Layout (WellFormed walk)

variable {δ : Type} {specs : Array (RegionSpec δ)} {m : Memory δ}

theorem ofRegions_eq_ok_iff :
    ofRegions specs = .ok m ↔ Layout.ofRegions (specs.map (·.region)) = .ok m.layout ∧
      m.contents = specs.map (·.contents) := by
  unfold ofRegions
  cases Layout.ofRegions (specs.map (·.region)) with
  | error e => simp
  | ok layout =>
    obtain ⟨layout', contents⟩ := m
    simp [eq_comm]

/-- Memory is made of exactly the well-formed lists of regions. On the map of memory that was made
the walk along the aliases of a region ends, without leaving the list, in a region that is no alias,
and that is the one found. -/
theorem ofRegions_accepts_wellFormed (specs : Array (RegionSpec δ)) :
    ((∃ m, ofRegions specs = .ok m) ↔ WellFormed (specs.map (·.region))) ∧
    ∀ m, ofRegions specs = .ok m → ∀ i < specs.size,
      (∃ n, iterate (walk (specs.map (·.region))) n i = .finished (some (m.layout.canonical i))) ∧
      ∃ r, (specs.map (·.region))[m.layout.canonical i]? = some r ∧ r.isAlias = false := by
  constructor
  · rw [← Layout.exists_ofRegions_iff]
    constructor
    · rintro ⟨m, hm⟩
      exact ⟨m.layout, (ofRegions_eq_ok_iff.mp hm).1⟩
    · rintro ⟨layout, hlayout⟩
      exact ⟨{ layout, contents := _ }, ofRegions_eq_ok_iff.mpr ⟨hlayout, rfl⟩⟩
  · intro m hm i hi
    have hregions := Layout.regions_of_ofRegions (ofRegions_eq_ok_iff.mp hm).1
    rw [← hregions]
    have hlt : i < m.layout.regions.size := by rwa [hregions, Array.size_map]
    obtain ⟨n, hends⟩ := Layout.ends_canonical hlt
    exact ⟨⟨n + 1, hends.iterate_walk⟩, hends.own⟩

/-- An alias of an alias of memory. -/
def nested : Array (RegionSpec RegisterBank) :=
  #[.aliasOf 0x200 0x100 2, .ram 0 0x100, .aliasOf 0x100 0x100 1]

theorem ofRegions_accepts_wellFormed_nested :
    WellFormed (nested.map (·.region)) ∧ ∃ m, ofRegions nested = .ok m ∧
      m.layout.canonical 0 = 1 ∧
      ∃ n, iterate (walk (nested.map (·.region))) n 0 = .finished (some 1) := by
  have hwell : WellFormed (nested.map (·.region)) :=
    Layout.error?_eq_none_iff_wellFormed.mp (by decide +kernel)
  obtain ⟨haccepts, hwalks⟩ := ofRegions_accepts_wellFormed nested
  obtain ⟨m, hm⟩ := haccepts.mpr hwell
  have hcanonical : m.layout.canonical 0 = 1 := by
    rw [Layout.canonical, Layout.regions_of_ofRegions (ofRegions_eq_ok_iff.mp hm).1]
    decide +kernel
  have hwalk := (hwalks m hm 0 (by decide)).1
  rw [hcanonical] at hwalk
  exact ⟨hwell, m, hm, hcanonical, hwalk⟩

end Memory

end Dynarec
