/-
  Dynarec.Proofs.EntryTable

  What the operations on the table of entries do, slot by slot.
-/
import Dynarec.EntryTable
import Mathlib.Algebra.GroupWithZero.Nat

namespace Dynarec

theorem physical_physical (addr : UInt32) : physical (physical addr) = physical addr := by
  unfold physical
  by_cases h : 0xa0000000 ≤ addr
  · rw [if_pos h]
    have hlt : ¬ (0xa0000000 : UInt32) ≤ addr - 0xa0000000 := by
      rw [UInt32.le_iff_toNat_le] at h ⊢
      rw [UInt32.toNat_sub_of_le _ _ h]
      have := addr.toNat_lt
      show ¬ 2684354560 ≤ addr.toNat - 2684354560
      omega
    rw [if_neg hlt]
    have hsmall : (addr - 0xa0000000).toNat < 2 ^ 31 := by
      rw [UInt32.toNat_sub_of_le _ _ h]
      have := addr.toNat_lt
      show addr.toNat - 2684354560 < 2147483648
      omega
    rw [← UInt32.toNat_inj, UInt32.toNat_and]
    exact Nat.and_two_pow_sub_one_of_lt_two_pow (n := 31) hsmall
  · rw [if_neg h]
    have hsmall : (addr &&& 0x7fffffff).toNat < 2 ^ 31 := by
      rw [UInt32.toNat_and]
      exact Nat.lt_of_le_of_lt Nat.and_le_right (by decide)
    have hlt : ¬ (0xa0000000 : UInt32) ≤ addr &&& 0x7fffffff := by
      rw [UInt32.le_iff_toNat_le]
      show ¬ 2684354560 ≤ (addr &&& 0x7fffffff).toNat
      omega
    rw [if_neg hlt, UInt32.and_assoc, UInt32.and_self]

namespace EntryTable

variable {t u : EntryTable}

/-- An address has the slot of its physical address. -/
theorem index?_physical (t : EntryTable) (addr : UInt32) : t.index? (physical addr) = t.index? addr := by
  unfold index? locate
  rw [physical_physical]

/-! ## Single slots -/

theorem getD_setIfInBounds_self {α : Type} (a : Array α) {i : Nat} (h : i < a.size) (v d : α) :
    (a.setIfInBounds i v).getD i d = v := by
  simp [Array.getD_eq_getD_getElem?, h]

theorem getD_setIfInBounds_of_ne {α : Type} (a : Array α) {i j : Nat} (h : j ≠ i) (v d : α) :
    (a.setIfInBounds i v).getD j d = a.getD j d := by
  rw [Array.getD_eq_getD_getElem?, Array.getElem?_setIfInBounds_ne (Ne.symm h),
    Array.getD_eq_getD_getElem?]

variable {slot : Nat}

theorem load_store_self (t : EntryTable) (h : slot < t.slots.size) (e : Entry) :
    (t.store slot e).load slot = e := getD_setIfInBounds_self _ h _ _

theorem load_store_of_ne (t : EntryTable) {slot other : Nat} (h : other ≠ slot) (e : Entry) :
    (t.store slot e).load other = t.load other := getD_setIfInBounds_of_ne _ h _ _

theorem store_store (t : EntryTable) (slot : Nat) (e e' : Entry) :
    (t.store slot e).store slot e' = t.store slot e' := by
  simp [store]

/-- A slot that is not clear exists. -/
theorem lt_size_of_load_ne_null {t : EntryTable} (h : t.load slot ≠ .null) :
    slot < t.slots.size := by
  apply Decidable.byContradiction
  intro hlt
  apply h
  simp [load, Array.getD_eq_getD_getElem?, Array.getElem?_eq_none (Nat.le_of_not_lt hlt)]

/-- Tables with the same slots answer alike. -/
theorem ext_load (hr : t.regions = u.regions) (hs : t.spans = u.spans) (hc : t.covered = u.covered)
    (hw : t.window = u.window) (hi : t.invalidations = u.invalidations)
    (hn : t.slots.size = u.slots.size) (hl : ∀ slot, t.load slot = u.load slot) : t = u := by
  have hslots : t.slots = u.slots := by
    apply Array.ext hn
    intro i h1 h2
    have := hl i
    simpa [load, Array.getD_eq_getD_getElem?, h1, h2] using this
  cases t
  cases u
  simp_all

/-! ## Sweeping a range of slots -/

/-- Whether the code that starts at a word overlaps the words from `start` on. -/
def reaches (spans : Array Nat) (base start word : Nat) : Bool :=
  start ≤ word || (spans.getD (base + word) 0 != 0 && start < word + spans.getD (base + word) 0)

variable (spans : Array Nat) (base start n word cleared : Nat)

theorem sweep_succ (slots : Array Entry) : sweep spans base start (n + 1) word cleared slots =
      if reaches spans base start word && !(slots.getD (base + word) .null).isNull then
        sweep spans base start n (word + 1) (cleared + 1) (slots.setIfInBounds (base + word) .null)
      else sweep spans base start n (word + 1) cleared slots := rfl

theorem size_sweep (slots : Array Entry) :
    (sweep spans base start n word cleared slots).2.size = slots.size := by
  induction n generalizing word cleared slots with
  | zero => rfl
  | succ n ih =>
    rw [sweep_succ]
    split
    · rw [ih, Array.size_setIfInBounds]
    · rw [ih]

/-- A sweep clears the slots of its range whose code reaches that far, and no other. -/
theorem getD_sweep (slots : Array Entry) (slot : Nat) :
    (sweep spans base start n word cleared slots).2.getD slot .null =
      if base + word ≤ slot ∧ slot < base + word + n ∧ reaches spans base start (slot - base) = true
      then .null else slots.getD slot .null := by
  induction n generalizing word cleared slots with
  | zero =>
    rw [if_neg (by omega)]
    rfl
  | succ n ih =>
    -- One more slot at the front of the range, given what the sweep does to it.
    have hfirst : ∀ slots' : Array Entry,
        (slot = base + word → reaches spans base start word = true → slots'.getD slot .null = .null) →
        (slot ≠ base + word ∨ reaches spans base start word = false →
          slots'.getD slot .null = slots.getD slot .null) →
        (if base + (word + 1) ≤ slot ∧ slot < base + (word + 1) + n ∧
            reaches spans base start (slot - base) = true then Entry.null
          else slots'.getD slot .null) =
        if base + word ≤ slot ∧ slot < base + word + (n + 1) ∧
            reaches spans base start (slot - base) = true then Entry.null
          else slots.getD slot .null := by
      intro slots' hclear hkeep
      by_cases hslot : slot = base + word
      · have hsub : slot - base = word := by omega
        rw [if_neg (by omega), hsub]
        by_cases hr : reaches spans base start word = true
        · rw [if_pos ⟨by omega, by omega, hr⟩]
          exact hclear hslot hr
        · rw [if_neg (fun h => hr h.2.2)]
          exact hkeep (.inr (by simpa using hr))
      · rw [hkeep (.inl hslot)]
        by_cases hin : base + word ≤ slot ∧ slot < base + word + (n + 1) ∧
            reaches spans base start (slot - base) = true
        · rw [if_pos hin, if_pos ⟨by omega, by omega, hin.2.2⟩]
        · rw [if_neg hin, if_neg (fun h => hin ⟨by omega, by omega, h.2.2⟩)]
    rw [sweep_succ]
    split
    · rename_i hcond
      rw [ih]
      apply hfirst
      · intro hslot _
        rw [hslot]
        simp only [Array.getD_eq_getD_getElem?, Array.getElem?_setIfInBounds]
        by_cases hlt : base + word < slots.size <;> simp [hlt]
      · intro hother
        rcases hother with hne | hfalse
        · exact getD_setIfInBounds_of_ne _ hne _ _
        · simp [hfalse] at hcond
    · rename_i hcond
      rw [ih]
      apply hfirst
      · intro hslot hr
        simp only [hr, Bool.true_and, Bool.not_eq_true', Bool.not_eq_false] at hcond
        rw [hslot]
        simpa [Entry.isNull] using hcond
      · intro _
        rfl

/-- The number of slots a sweep clears. -/
theorem fst_sweep (slots : Array Entry) : (sweep spans base start n word cleared slots).1 =
      cleared + (List.range' word n).countP fun w =>
        reaches spans base start w && !(slots.getD (base + w) .null).isNull := by
  induction n generalizing word cleared slots with
  | zero => simp [sweep]
  | succ n ih =>
    -- clearing a slot does not change the count over the slots behind it
    have hbehind : ∀ e : Entry, (List.range' (word + 1) n).countP (fun w =>
          reaches spans base start w &&
            !((slots.setIfInBounds (base + word) e).getD (base + w) .null).isNull) =
        (List.range' (word + 1) n).countP (fun w =>
          reaches spans base start w && !(slots.getD (base + w) .null).isNull) := by
      intro e
      apply List.countP_congr
      intro w hw
      have hlt := (List.mem_range'_1.mp hw).1
      rw [getD_setIfInBounds_of_ne _ (by omega)]
    rw [sweep_succ, List.range'_succ, List.countP_cons]
    split
    · rename_i hcond
      rw [ih, hbehind]
      omega
    · rw [ih]
      rfl

/-! ## Invalidation -/

/-- The word behind the last one that `length` bytes at `addr`, located at `p`, touch. -/
def stopWord (p : SlotPosition) (addr length : UInt32) : Nat :=
  min (p.word + ((addr &&& 3).toNat + length.toNat + 3) / 4) p.slots

/-- An invalidation of `length` bytes at `addr` clears the slot. -/
structure Clears (t : EntryTable) (addr length : UInt32) (p : SlotPosition) (slot : Nat) : Prop where
  located : t.locate (addr &&& 0xfffffffc) = some p
  nonempty : length ≠ 0
  covered : t.anyCovered (stopWord p addr length - p.word) (p.first + p.word) = true
  first : p.first + (p.word - (t.window - 1)) ≤ slot
  last : slot < p.first + stopWord p addr length
  reaches : reaches t.spans p.first p.word (slot - p.first) = true

/-- An invalidation that does something is a sweep over the window of its range. -/
theorem invalidate_cases (t : EntryTable) (addr length : UInt32) :
    (t.invalidate addr length = (0, t) ∧ ∀ p slot, ¬ t.Clears addr length p slot) ∨
    ∃ p, t.locate (addr &&& 0xfffffffc) = some p ∧ length ≠ 0 ∧
      t.anyCovered (stopWord p addr length - p.word) (p.first + p.word) = true ∧
      t.invalidate addr length =
        let scan := p.word - (t.window - 1)
        let swept := sweep t.spans p.first p.word (stopWord p addr length - scan) scan 0 t.slots
        (swept.1, { t with
          slots := swept.2
          invalidations := if swept.1 = 0 then t.invalidations else t.invalidations + 1 }) := by
  unfold invalidate
  by_cases hlen : length = 0
  · rw [if_pos hlen]
    exact .inl ⟨rfl, fun _ _ h => h.nonempty hlen⟩
  · rw [if_neg hlen]
    cases hloc : t.locate (addr &&& 0xfffffffc) with
    | none =>
      refine .inl ⟨rfl, fun p slot h => ?_⟩
      have := h.located
      rw [hloc] at this
      cases this
    | some p =>
      by_cases hcov : t.anyCovered (stopWord p addr length - p.word) (p.first + p.word) = true
      · refine .inr ⟨p, rfl, hlen, hcov, ?_⟩
        exact if_pos hcov
      · refine .inl ⟨if_neg hcov, fun p' slot h => ?_⟩
        have := h.located
        rw [hloc] at this
        cases this
        exact hcov h.covered

variable {addr length : UInt32}

theorem load_invalidate_of_clears {t : EntryTable} {p : SlotPosition}
    (h : t.Clears addr length p slot) :
    (t.invalidate addr length).2.load slot = .null := by
  rcases t.invalidate_cases addr length with ⟨-, hnot⟩ | ⟨p', hloc, -, -, heq⟩
  · exact absurd h (hnot p slot)
  · rw [h.located] at hloc
    cases hloc
    rw [heq]
    refine (getD_sweep ..).trans (if_pos ⟨?_, ?_, h.reaches⟩)
    · exact h.first
    · have := h.first
      have := h.last
      omega

theorem load_invalidate_of_not_clears {t : EntryTable} (h : ∀ p, ¬ t.Clears addr length p slot) :
    (t.invalidate addr length).2.load slot = t.load slot := by
  rcases t.invalidate_cases addr length with ⟨heq, -⟩ | ⟨p, hloc, hlen, hcov, heq⟩
  · rw [heq]
  · rw [heq]
    refine (getD_sweep ..).trans (if_neg ?_)
    rintro ⟨hfirst, hlast, hr⟩
    refine h p ⟨hloc, hlen, hcov, hfirst, ?_, hr⟩
    omega

theorem load_invalidate_cases (t : EntryTable) (addr length : UInt32) (slot : Nat) :
    (t.invalidate addr length).2.load slot = .null ∨
      (t.invalidate addr length).2.load slot = t.load slot := by
  by_cases h : ∃ p, t.Clears addr length p slot
  · obtain ⟨p, hp⟩ := h
    exact .inl (load_invalidate_of_clears hp)
  · exact .inr (load_invalidate_of_not_clears fun p hp => h ⟨p, hp⟩)

/-- What an invalidation leaves alone. -/
theorem invalidate_frame (t : EntryTable) (addr length : UInt32) :
    (t.invalidate addr length).2.regions = t.regions ∧
    (t.invalidate addr length).2.spans = t.spans ∧
    (t.invalidate addr length).2.covered = t.covered ∧
    (t.invalidate addr length).2.window = t.window ∧
    (t.invalidate addr length).2.slots.size = t.slots.size := by
  rcases t.invalidate_cases addr length with ⟨heq, -⟩ | ⟨p, -, -, -, heq⟩
  · rw [heq]
    exact ⟨rfl, rfl, rfl, rfl, rfl⟩
  · rw [heq]
    exact ⟨rfl, rfl, rfl, rfl, size_sweep ..⟩

theorem invalidations_invalidate (t : EntryTable) (addr length : UInt32) :
    (t.invalidate addr length).2.invalidations =
      if (t.invalidate addr length).1 = 0 then t.invalidations else t.invalidations + 1 := by
  rcases t.invalidate_cases addr length with ⟨heq, -⟩ | ⟨p, -, -, -, heq⟩
  · rw [heq]
    rfl
  · rw [heq]

/-! ## Replacing an entry before or after an invalidation -/

variable {current new : Entry}

theorem load_compareExchange_self (t : EntryTable) (slot : Nat) (hc : current ≠ .null) :
    (t.compareExchange slot current new).2.load slot =
      if t.load slot = current then new else t.load slot := by
  unfold compareExchange
  split
  · rename_i h
    exact load_store_self t (lt_size_of_load_ne_null (by rw [h]; exact hc)) new
  · rfl

theorem load_compareExchange_of_ne (t : EntryTable) {slot other : Nat} (h : other ≠ slot)
    (current new : Entry) : (t.compareExchange slot current new).2.load other = t.load other := by
  unfold compareExchange
  split
  · exact load_store_of_ne t h new
  · rfl

theorem compareExchange_frame (t : EntryTable) (slot : Nat) (current new : Entry) :
    (t.compareExchange slot current new).2.regions = t.regions ∧
    (t.compareExchange slot current new).2.spans = t.spans ∧
    (t.compareExchange slot current new).2.covered = t.covered ∧
    (t.compareExchange slot current new).2.window = t.window ∧
    (t.compareExchange slot current new).2.invalidations = t.invalidations ∧
    (t.compareExchange slot current new).2.slots.size = t.slots.size := by
  unfold compareExchange
  split
  · exact ⟨rfl, rfl, rfl, rfl, rfl, Array.size_setIfInBounds⟩
  · exact ⟨rfl, rfl, rfl, rfl, rfl, rfl⟩

theorem isNull_load_compareExchange (t : EntryTable) (slot : Nat) (hc : current ≠ .null)
    (hn : new ≠ .null) (other : Nat) :
    ((t.compareExchange slot current new).2.load other).isNull = (t.load other).isNull := by
  by_cases h : other = slot
  · subst h
    rw [load_compareExchange_self t other hc]
    split
    · rename_i he
      rw [he, Entry.isNull, Entry.isNull, beq_false_of_ne hn, beq_false_of_ne hc]
    · rfl
  · rw [load_compareExchange_of_ne t h]

theorem anyCovered_congr (h : t.covered = u.covered) (n slot : Nat) :
    t.anyCovered n slot = u.anyCovered n slot := by
  induction n generalizing slot with
  | zero => rfl
  | succ n ih => simp only [anyCovered, h, ih]

theorem locate_congr (h : t.regions = u.regions) (addr : UInt32) :
    t.locate addr = u.locate addr := by
  simp only [locate, h]

theorem index?_congr (h : t.regions = u.regions) (addr : UInt32) :
    t.index? addr = u.index? addr := by
  simp only [index?, locate_congr h]

/-- What an invalidation clears depends on spans and marks only, not on the entries. -/
theorem Clears.congr (hr : t.regions = u.regions) (hs : t.spans = u.spans)
    (hc : t.covered = u.covered) (hw : t.window = u.window) {p : SlotPosition}
    (h : t.Clears addr length p slot) :
    u.Clears addr length p slot where
  located := (locate_congr hr _).symm.trans h.located
  nonempty := h.nonempty
  covered := (anyCovered_congr hc _ _).symm.trans h.covered
  first := hw ▸ h.first
  last := h.last
  reaches := hs ▸ h.reaches

/-- The number of slots an invalidation clears depends on which ones are clear already. -/
theorem fst_invalidate_congr (hr : t.regions = u.regions) (hs : t.spans = u.spans)
    (hc : t.covered = u.covered) (hw : t.window = u.window)
    (hn : ∀ slot, (t.load slot).isNull = (u.load slot).isNull) (addr length : UInt32) :
    (t.invalidate addr length).1 = (u.invalidate addr length).1 := by
  have hloc := locate_congr hr (addr &&& 0xfffffffc)
  unfold invalidate
  rw [hloc]
  split
  · rfl
  · split
    · rfl
    · rename_i p _
      simp only [anyCovered_congr hc, hs, hw]
      split
      · simp only [fst_sweep]
        congr 1
        apply List.countP_congr
        intro w _
        have := hn (p.first + w)
        simp only [load] at this
        rw [this]
      · rfl

/-- Replacing an entry by another that is not clear commutes with an invalidation. -/
theorem invalidate_compareExchange (t : EntryTable) (slot : Nat) (hc : current ≠ .null)
    (hn : new ≠ .null) (addr length : UInt32) :
    (t.compareExchange slot current new).2.invalidate addr length =
      ((t.invalidate addr length).1,
        ((t.invalidate addr length).2.compareExchange slot current new).2) := by
  obtain ⟨hr, hs, hcov, hw, hinv, hsize⟩ := t.compareExchange_frame slot current new
  obtain ⟨hr', hs', hcov', hw', hsize'⟩ := t.invalidate_frame addr length
  obtain ⟨hr1, hs1, hcov1, hw1, hsize1⟩ :=
    (t.compareExchange slot current new).2.invalidate_frame addr length
  obtain ⟨hr2, hs2, hcov2, hw2, hinv2, hsize2⟩ :=
    (t.invalidate addr length).2.compareExchange_frame slot current new
  have hfst : ((t.compareExchange slot current new).2.invalidate addr length).1 =
      (t.invalidate addr length).1 :=
    fst_invalidate_congr hr hs hcov hw (isNull_load_compareExchange t slot hc hn) addr length
  refine Prod.ext hfst (ext_load ?_ ?_ ?_ ?_ ?_ ?_ ?_)
  · rw [hr1, hr, hr2, hr']
  · rw [hs1, hs, hs2, hs']
  · rw [hcov1, hcov, hcov2, hcov']
  · rw [hw1, hw, hw2, hw']
  · rw [hinv2, invalidations_invalidate, invalidations_invalidate, hfst, hinv]
  · rw [hsize1, hsize, hsize2, hsize']
  · -- what is cleared does not depend on what the entries are
    intro other
    by_cases hcl : ∃ p, t.Clears addr length p other
    · obtain ⟨p, hp⟩ := hcl
      rw [load_invalidate_of_clears (hp.congr hr.symm hs.symm hcov.symm hw.symm)]
      have hnull := load_invalidate_of_clears hp
      by_cases ho : other = slot
      · subst ho
        rw [load_compareExchange_self _ _ hc, hnull, if_neg (Ne.symm hc)]
      · rw [load_compareExchange_of_ne _ ho, hnull]
    · have hkeep := load_invalidate_of_not_clears fun p hp => hcl ⟨p, hp⟩
      rw [load_invalidate_of_not_clears fun p hp => hcl ⟨p, hp.congr hr hs hcov hw⟩]
      by_cases ho : other = slot
      · subst ho
        rw [load_compareExchange_self _ _ hc, load_compareExchange_self _ _ hc, hkeep]
      · rw [load_compareExchange_of_ne _ ho, load_compareExchange_of_ne _ ho, hkeep]

/-! ## What an entry can become -/

theorem load_store_cases (t : EntryTable) (slot other : Nat) (e : Entry) :
    (other = slot ∧ (t.store slot e).load other = e) ∨ (t.store slot e).load other = t.load other := by
  by_cases h : other = slot
  · subst h
    by_cases hlt : other < t.slots.size
    · exact .inl ⟨rfl, load_store_self t hlt e⟩
    · refine .inr ?_
      unfold load store
      rw [Array.setIfInBounds_eq_of_size_le (Nat.le_of_not_lt hlt)]
  · exact .inr (load_store_of_ne t h e)

theorem load_noteSpan (t : EntryTable) (slot ops : Nat) (exact : Bool) (other : Nat) :
    (t.noteSpan slot ops exact).load other = t.load other := rfl

theorem load_retire_cases (t : EntryTable) (id : CodeId) (which : Array Nat) (slot : Nat) :
    (t.retire id which).load slot = .null ∨ (t.retire id which).load slot = t.load slot := by
  have hone : ∀ slots s,
      (retireSlot id slots s).getD slot .null = .null ∨
        (retireSlot id slots s).getD slot .null = slots.getD slot .null := by
    intro slots s
    unfold retireSlot
    split
    · rcases load_store_cases { slots } s slot .null with ⟨-, h⟩ | h
      · exact .inl h
      · exact .inr h
    · exact .inr rfl
  unfold retire load
  dsimp only
  rw [← Array.foldl_toList]
  generalize t.slots = slots
  induction which.toList generalizing slots with
  | nil => exact .inr rfl
  | cons s rest ih =>
    rw [List.foldl_cons]
    rcases ih (retireSlot id slots s) with h | h
    · exact .inl h
    · rw [h]
      exact hone slots s

/-- Entries that lead into code which is retired are cleared. -/
theorem load_retire_of_mem {t : EntryTable} {id : CodeId} {which : Array Nat} (hmem : slot ∈ which)
    (h : (t.load slot).codeId? = some id) :
    (t.retire id which).load slot = .null := by
  have hmem : slot ∈ which.toList := Array.mem_toList_iff.mpr hmem
  unfold retire load at *
  dsimp only
  rw [← Array.foldl_toList]
  generalize t.slots = slots at h
  generalize which.toList = items at hmem
  induction items generalizing slots with
  | nil => cases hmem
  | cons s rest ih =>
    rw [List.foldl_cons]
    -- what is cleared stays so
    have hrest : ∀ (rest : List Nat) (slots : Array Entry), slots.getD slot .null = .null →
        (rest.foldl (retireSlot id) slots).getD slot .null = .null := by
      intro rest slots hnull
      have hcases := load_retire_cases { slots } id rest.toArray slot
      unfold retire load at hcases
      dsimp only at hcases
      rw [← Array.foldl_toList] at hcases
      rcases hcases with hcases | hcases
      · exact hcases
      · exact hcases.trans hnull
    by_cases hs : s = slot
    · subst hs
      refine hrest rest _ ?_
      rw [retireSlot, if_pos h]
      rcases load_store_cases { slots } s s .null with ⟨-, hnull⟩ | hsame
      · exact hnull
      · have hlt : s < slots.size :=
          lt_size_of_load_ne_null (t := { slots }) fun hnull => by
            rw [show slots.getD s .null = .null from hnull] at h
            cases h
        exact load_store_self { slots } hlt .null
    · rcases List.mem_cons.mp hmem with hmem | hmem
      · exact absurd hmem.symm hs
      · refine ih _ ?_ hmem
        have hsame : (retireSlot id slots s).getD slot .null = slots.getD slot .null := by
          unfold retireSlot
          split
          · exact load_store_of_ne { slots } (Ne.symm hs) .null
          · rfl
        rw [hsame]
        exact h

/-- What still leads into code is not what was retired. -/
theorem load_of_load_retire {t : EntryTable} {id n : CodeId} {which : Array Nat} {slot offset : Nat}
    (h : (t.retire id which).load slot = .code n offset) :
    t.load slot = .code n offset ∧ ¬ (n = id ∧ slot ∈ which) := by
  have hsame : t.load slot = .code n offset := by
    rcases t.load_retire_cases id which slot with hnull | hsame
    · cases h.symm.trans hnull
    · exact hsame.symm.trans h
  refine ⟨hsame, ?_⟩
  rintro ⟨rfl, hmem⟩
  cases h.symm.trans (load_retire_of_mem hmem (by rw [hsame]; rfl))

theorem load_compareExchange_cases (t : EntryTable) (slot other : Nat) (current new : Entry) :
    (t.compareExchange slot current new).2.load other = t.load other ∨
      (other = slot ∧ t.load other = current ∧
        (t.compareExchange slot current new).2.load other = new) := by
  unfold compareExchange
  split
  · rename_i h
    rcases load_store_cases t slot other new with ⟨rfl, hs⟩ | hs
    · exact .inr ⟨rfl, h, hs⟩
    · exact .inl hs
  · exact .inl rfl

theorem load_invalidateAll (t : EntryTable) (slot : Nat) : t.invalidateAll.load slot = .null := by
  unfold invalidateAll load
  simp only [Array.getD_eq_getD_getElem?, Array.getElem?_replicate]
  split <;> rfl

/-! ## What never changes -/

/-- The same regions, with the same number of slots, searched over the same window. -/
structure SameShape (t u : EntryTable) : Prop where
  regions : u.regions = t.regions
  window : u.window = t.window
  slots : u.slots.size = t.slots.size
  spans : u.spans.size = t.spans.size
  covered : u.covered.size = t.covered.size

theorem SameShape.refl (t : EntryTable) : t.SameShape t := ⟨rfl, rfl, rfl, rfl, rfl⟩

theorem SameShape.trans {t u v : EntryTable} (h1 : t.SameShape u) (h2 : u.SameShape v) :
    t.SameShape v :=
  ⟨h2.regions.trans h1.regions, h2.window.trans h1.window, h2.slots.trans h1.slots,
    h2.spans.trans h1.spans, h2.covered.trans h1.covered⟩

theorem SameShape.symm (h : t.SameShape u) : u.SameShape t :=
  ⟨h.regions.symm, h.window.symm, h.slots.symm, h.spans.symm, h.covered.symm⟩

theorem SameShape.index? (h : t.SameShape u) (addr : UInt32) :
    u.index? addr = t.index? addr := index?_congr h.regions addr

theorem sameShape_store (t : EntryTable) (slot : Nat) (e : Entry) : t.SameShape (t.store slot e) :=
  ⟨rfl, rfl, Array.size_setIfInBounds, rfl, rfl⟩

theorem size_cover (n slot : Nat) (marks : Array Bool) : (cover n slot marks).size = marks.size := by
  induction n generalizing slot marks with
  | zero => rfl
  | succ n ih => rw [cover, ih, Array.size_setIfInBounds]

theorem sameShape_noteSpan (t : EntryTable) (slot ops : Nat) (exact : Bool) :
    t.SameShape (t.noteSpan slot ops exact) :=
  ⟨rfl, rfl, rfl, Array.size_modify, size_cover ..⟩

theorem sameShape_retire (t : EntryTable) (id : CodeId) (which : Array Nat) :
    t.SameShape (t.retire id which) := by
  refine ⟨rfl, rfl, ?_, rfl, rfl⟩
  unfold retire
  dsimp only
  rw [← Array.foldl_toList]
  generalize t.slots = slots
  induction which.toList generalizing slots with
  | nil => rfl
  | cons s rest ih =>
    rw [List.foldl_cons, ih]
    unfold retireSlot
    split
    · exact Array.size_setIfInBounds
    · rfl

theorem sameShape_compareExchange (t : EntryTable) (slot : Nat) (current new : Entry) :
    t.SameShape (t.compareExchange slot current new).2 := by
  obtain ⟨hr, hs, hc, hw, -, hn⟩ := t.compareExchange_frame slot current new
  exact ⟨hr, hw, hn, by rw [hs], by rw [hc]⟩

theorem sameShape_invalidate (t : EntryTable) (addr length : UInt32) :
    t.SameShape (t.invalidate addr length).2 := by
  obtain ⟨hr, hs, hc, hw, hn⟩ := t.invalidate_frame addr length
  exact ⟨hr, hw, hn, by rw [hs], by rw [hc]⟩

theorem sameShape_invalidateAll (t : EntryTable) : t.SameShape t.invalidateAll :=
  ⟨rfl, rfl, Array.size_replicate, rfl, rfl⟩

end EntryTable

end Dynarec
