/-
  Dynarec.Proofs.Aliases

  All names of a word lead to one place.

  A chain of aliases ends in a region that is none: the map was checked for
  that. So an address leads to an offset inside a region of its own, and the
  physical address of that offset leads to the same place again. The table of
  entries numbers the words of these regions one after the other, and two
  addresses share a slot exactly where they lead to the same word.
-/
import Dynarec.Proofs.AliasChains

namespace Dynarec

namespace Layout

variable {l : Layout} {i : Nat} {r : Region} {addr paddr : UInt32} {res : Resolved}

/-! ## Regions behind aliases -/

/-- Behind every region is one that is no alias. -/
theorem region_behind (h : l.regions[i]? = some r) :
    l.regions[l.canonical i]? = some (l.behind i) ∧ (l.behind i).isAlias = false := by
  obtain ⟨n, hends⟩ := ends_canonical (Array.getElem?_eq_some_iff.mp h).1
  obtain ⟨s, hs, hown⟩ := hends.own
  have hbehind : l.behind i = s := by
    rw [behind, Array.getD_eq_getD_getElem?, hs, Option.getD_some]
  rw [hbehind]
  exact ⟨hs, hown⟩

/-- A region that holds code is no alias. -/
theorem region_of_isCode (h : l.isCode i = true) :
    ∃ r, l.regions[i]? = some r ∧ l.behind i = r ∧ l.canonical i = i := by
  unfold isCode at h
  split at h
  · rename_i r hr
    have hown : r.isAlias = false := by
      obtain ⟨base, length, backing, code⟩ := r
      cases backing with
      | aliasOf target => simp [Region.isDirect] at h
      | ram | rom | device => rfl
    have hcanonical := canonical_of_not_isAlias hr hown
    refine ⟨r, hr, ?_, hcanonical⟩
    rw [behind, hcanonical, Array.getD_eq_getD_getElem?, hr, Option.getD_some]
  · cases h

/-- A region's slots are there. -/
theorem firstSlot_add_lt {word : Nat} (h : word < l.slotsOf i) :
    l.firstSlot i + word < l.firstSlot l.regions.size := by
  have hcode : l.isCode i = true := by
    apply Decidable.byContradiction
    intro hnot
    rw [slotsOf, if_neg hnot] at h
    omega
  obtain ⟨r, hr, -⟩ := region_of_isCode hcode
  have hlt : i < l.regions.size := (Array.getElem?_eq_some_iff.mp hr).1
  have hnext : l.firstSlot i + l.slotsOf i ≤ l.firstSlot l.regions.size := firstSlot_mono hlt
  omega

/-! ## Where an address leads -/

/-- The offset of an address in what is behind its region. -/
theorem toNat_offset_seat (h : r.base.toNat ≤ paddr.toNat) : (l.seat i r paddr).offset.toNat =
      (paddr.toNat - r.base.toNat) % (l.behind i).length.toNat := by
  show ((paddr - r.base) % (l.behind i).length).toNat = _
  rw [UInt32.toNat_mod, UInt32.toNat_sub_of_le _ _ (UInt32.le_iff_toNat_le.mpr h)]

/-- An address leads to a place inside a region that is no alias. -/
theorem inside_of_resolve (h : l.resolve addr = .ok res) :
    ∃ s, l.regions[res.index]? = some s ∧ s.isAlias = false ∧
      res.offset.toNat < s.length.toNat ∧ res.paddr = s.base + res.offset ∧
      res.kind = s.backing.kind := by
  obtain ⟨i, r, hr, rfl⟩ := holds_of_resolve h
  obtain ⟨hregion, hown⟩ := region_behind hr.region
  refine ⟨l.behind i, hregion, hown, ?_, rfl, rfl⟩
  have hpos : 0 < (l.behind i).length.toNat := by
    refine Nat.pos_of_ne_zero fun hzero => length_ne_zero hregion ?_
    exact UInt32.toNat_inj.mp hzero
  rw [toNat_offset_seat (Region.contains_iff.mp hr.contains).1]
  exact Nat.mod_lt _ hpos

/-- Where no regions overlap, the physical address that an address leads to leads to the same place,
as long as the region there lies below the segments. -/
theorem Apart.resolve_paddr (hl : l.Apart) (h : l.resolve addr = .ok res)
    (hlow : ∀ {s}, l.regions[res.index]? = some s → s.base.toNat + s.length.toNat ≤ 0x80000000) :
    l.resolve res.paddr = .ok res := by
  obtain ⟨s, hs, hown, hoffset, hpaddr, hkind⟩ := inside_of_resolve h
  have hend := hlow hs
  have hsum : res.paddr.toNat = s.base.toNat + res.offset.toNat := by
    rw [hpaddr, UInt32.toNat_add]
    exact Nat.mod_eq_of_lt (by omega)
  have hphysical : physical res.paddr = res.paddr := physical_of_low (by omega)
  have hholds : l.Holds res.index s (physical res.paddr) := by
    refine ⟨hs, ?_⟩
    rw [hphysical, Region.contains_iff]
    omega
  have hcanonical := canonical_of_not_isAlias hs hown
  have hbehind : l.behind res.index = s := by
    rw [behind, hcanonical, Array.getD_eq_getD_getElem?, hs, Option.getD_some]
  -- seen from its own region the address is as far in as before
  have hseat : (l.seat res.index s (physical res.paddr)).offset = res.offset := by
    rw [← UInt32.toNat_inj, toNat_offset_seat (by rw [hphysical]; omega), hphysical, hbehind, hsum,
      Nat.add_sub_cancel_left]
    exact Nat.mod_eq_of_lt hoffset
  have hsame : l.seat res.index s (physical res.paddr) =
      { index := l.canonical res.index
        offset := (l.seat res.index s (physical res.paddr)).offset
        paddr := (l.behind res.index).base + (l.seat res.index s (physical res.paddr)).offset
        kind := (l.behind res.index).backing.kind } := rfl
  rw [Apart.resolve hl hholds, hsame, hseat, hcanonical, hbehind, ← hpaddr, ← hkind]

/-- Regions that are not in each other's way. -/
theorem Apart.of_disjoint (h : ∀ i < l.regions.size, ∀ j < l.regions.size, i < j →
      let r := l.regions.getD i default
      let s := l.regions.getD j default
      r.base.toNat + r.length.toNat ≤ s.base.toNat ∨ s.base.toNat + s.length.toNat ≤ r.base.toNat) :
    l.Apart := by
  intro i j r s paddr hr hs
  obtain ⟨hi, hri⟩ := Array.getElem?_eq_some_iff.mp hr.region
  obtain ⟨hj, hsj⟩ := Array.getElem?_eq_some_iff.mp hs.region
  have hgetr : l.regions.getD i default = r := by simp [hi, hri]
  have hgets : l.regions.getD j default = s := by simp [hj, hsj]
  obtain ⟨hrlow, hrhigh⟩ := Region.contains_iff.mp hr.contains
  obtain ⟨hslow, hshigh⟩ := Region.contains_iff.mp hs.contains
  -- an address in both would be on both sides of the boundary between them
  rcases Nat.lt_trichotomy i j with hlt | heq | hlt
  · have hsides := h i hi j hj hlt
    rw [hgetr, hgets] at hsides
    omega
  · exact heq
  · have hsides := h j hj i hi hlt
    rw [hgetr, hgets] at hsides
    omega

end Layout

/-! ## Slots -/

namespace EntryTable

variable {l : Layout} {t : EntryTable} {maxBlockOps : Nat}

theorem size_ofLayout (l : Layout) (maxBlockOps : Nat) :
    (ofLayout l maxBlockOps).size = l.firstSlot l.regions.size := by
  unfold size ofLayout
  rw [placeRegions_eq]
  exact Array.size_replicate

/-- The table has a slot for an address that leads into code, and for no other. -/
theorem isSome_index?_iff (hl : l.Apart) (ht : t.regions = (ofLayout l maxBlockOps).regions)
    {addr : UInt32} {r : Resolved} (h : l.resolve addr = .ok r) :
    (t.index? addr).isSome ↔ l.isCode r.index = true := by
  rw [Option.isSome_iff_exists]
  constructor
  · rintro ⟨slot, hslot⟩
    obtain ⟨_, hr, hcode, -⟩ := (index?_eq_some_iff hl ht).mp hslot
    cases h.symm.trans hr
    exact hcode
  · intro hcode
    exact ⟨_, (index?_eq_some_iff hl ht).mpr ⟨r, h, hcode, rfl⟩⟩

/-- Slots depend on where an address leads only. -/
theorem index?_of_resolve_eq (hl : l.Apart) (ht : t.regions = (ofLayout l maxBlockOps).regions)
    {a b : UInt32} (h : l.resolve a = l.resolve b) : t.index? a = t.index? b := by
  unfold index?
  rw [locate_eq hl ht, locate_eq hl ht, h]

/-- Slots are there. -/
theorem index?_lt_size (hl : l.Apart) (ht : (ofLayout l maxBlockOps).SameShape t) {addr : UInt32}
    {slot : Nat} (h : t.index? addr = some slot) : slot < t.size := by
  obtain ⟨r, hr, hcode, rfl⟩ := (index?_eq_some_iff hl ht.regions).mp h
  have hsize : t.size = l.firstSlot l.regions.size := ht.slots.trans (size_ofLayout l maxBlockOps)
  rw [hsize]
  exact Layout.firstSlot_add_lt (Layout.offset_lt hr hcode).2

/-- The map and the table agree on every name of a word, whatever has happened to the entries. What
an address leads to lies inside a region of its own, and its physical address there leads to the
same place; there is a slot for it if code may be there, all its names have that slot, and no other
word does. -/
theorem resolve_index?_agree (hl : l.Apart)
    (hlow : ∀ (i : Nat) (r : Region), l.regions[i]? = some r →
      r.base.toNat + r.length.toNat ≤ 0x80000000)
    (ht : (ofLayout l maxBlockOps).SameShape t) :
    (∀ (a : UInt32) (r : Resolved), l.resolve a = .ok r →
      (∃ s, l.regions[r.index]? = some s ∧ s.isAlias = false ∧
        r.offset.toNat < s.length.toNat) ∧
      l.resolve r.paddr = .ok r ∧
      ((t.index? a).isSome ↔ l.isCode r.index = true) ∧
      t.index? a = t.index? r.paddr) ∧
    (∀ (a b : UInt32) (r s : Resolved), l.resolve a = .ok r → l.resolve b = .ok s →
      l.isCode r.index = true → l.isCode s.index = true →
      (t.index? a = t.index? b ↔
        r.index = s.index ∧ r.offset.toNat / 4 = s.offset.toNat / 4)) ∧
    (∀ (a : UInt32) (slot : Nat), t.index? a = some slot → slot < t.size) ∧
    (∀ (a : UInt32) (f : Fault), l.resolve a = .error f → t.index? a = none) := by
  refine ⟨fun a r ha => ?_, fun a b r s ha hb hr hs => ?_, fun _ _ => index?_lt_size hl ht, ?_⟩
  · obtain ⟨s, hs, hown, hoffset, -⟩ := Layout.inside_of_resolve ha
    have hagain := hl.resolve_paddr ha (hlow _ _)
    exact ⟨⟨s, hs, hown, hoffset⟩, hagain, isSome_index?_iff hl ht.regions ha,
      index?_of_resolve_eq hl ht.regions (ha.trans hagain.symm)⟩
  · have hslot := (index?_eq_some_iff hl ht.regions).mpr ⟨r, ha, hr, rfl⟩
    have hslot' := (index?_eq_some_iff hl ht.regions).mpr ⟨s, hb, hs, rfl⟩
    rw [hslot, hslot', Option.some.injEq]
    constructor
    · exact Layout.firstSlot_inj (Layout.offset_lt ha hr).2 (Layout.offset_lt hb hs).2
    · rintro ⟨hindex, hword⟩
      rw [hindex, hword]
  · intro a f ha
    unfold index?
    rw [locate_eq hl ht.regions, ha]

/-- Ten bytes of memory, an alias that shows them two and a half times, and an alias of its
beginning. -/
def mirrored : Layout where
  regions := #[
    { base := 0, length := 10, backing := .ram, code := true },
    { base := 0x100, length := 25, backing := .aliasOf 0, code := true },
    { base := 0x200, length := 7, backing := .aliasOf 1, code := true }]
  valid := by decide

/-- The second word of memory under two of its names. -/
theorem resolve_index?_agree_mirrored : mirrored.Apart ∧
    (ofLayout mirrored 16).index? 0xa0000204 = (ofLayout mirrored 16).index? 0x8000010f := by
  have hl : mirrored.Apart := Layout.Apart.of_disjoint (by decide)
  have hlow : ∀ (i : Nat) (r : Region), mirrored.regions[i]? = some r →
      r.base.toNat + r.length.toNat ≤ 0x80000000 := by
    have hall : ∀ r ∈ mirrored.regions, r.base.toNat + r.length.toNat ≤ 0x80000000 := by decide
    intro i r hr
    exact hall r (Array.mem_of_getElem? hr)
  have hfirst : mirrored.resolve 0xa0000204 = .ok ⟨0, 4, 4, .direct⟩ := by cbv
  have hsecond : mirrored.resolve 0x8000010f = .ok ⟨0, 5, 5, .direct⟩ := by cbv
  have hwords := (resolve_index?_agree hl hlow (.refl (ofLayout mirrored 16))).2.1
  exact ⟨hl, (hwords _ _ _ _ hfirst hsecond rfl rfl).mpr (by decide)⟩

end EntryTable

end Dynarec
