/-
  Dynarec.Proofs.BlockCache

  What the block cache holds.

  The buckets are what counts: a line is held if it stands in the bucket of its
  start address. In a well-formed cache the hot table repeats lines that are
  held, and no two of them share a start address or a block, so looking up an
  address finds the one line there is.
-/
import Dynarec.BlockCache
import Dynarec.Proofs.EntryTable

namespace Dynarec.BlockCache

variable {c : BlockCache} {line : CacheLine}

/-- The line stands in the bucket of its start address. -/
def Holds (c : BlockCache) (line : CacheLine) : Prop :=
  line ∈ c.buckets.getD (bucketIndex line.start) []

/-- The two tables belong together and hold every block once. -/
structure WellFormed (c : BlockCache) : Prop where
  size : c.buckets.size = bucketCount
  place : ∀ {i : Nat} {line : CacheLine}, line ∈ c.buckets.getD i [] → bucketIndex line.start = i
  nodup : ∀ i, (c.buckets.getD i []).Nodup
  hot : ∀ {i : Nat} {line : CacheLine}, c.hot.getD i none = some line →
    c.Holds line ∧ hotIndex line.start = i
  start : ∀ {l l' : CacheLine}, c.Holds l → c.Holds l' → l.start = l'.start → l = l'
  block : ∀ {l l' : CacheLine}, c.Holds l → c.Holds l' → l.block = l'.block → l = l'

/-! ## Looking up -/

theorem holds_of_findInBucket? {start : UInt32} {id : BlockId}
    (h : c.findInBucket? start = some id) : c.Holds { start, block := id } := by
  unfold findInBucket? at h
  split at h
  · rename_i line hline
    cases h
    have hmem := List.mem_of_find?_eq_some hline
    have hstart : line.start = start := by simpa using List.find?_some hline
    subst hstart
    exact hmem
  · cases h

theorem not_holds_of_findInBucket? {start : UInt32} (h : c.findInBucket? start = none)
    (hline : c.Holds line) :
    line.start ≠ start := by
  intro hstart
  unfold findInBucket? at h
  split at h
  · cases h
  · rename_i hnone
    rw [← hstart] at hnone
    have := List.find?_eq_none.mp hnone line hline
    simp at this

/-- A block that is found is held. -/
theorem WellFormed.holds_of_find? (hc : c.WellFormed) {pc : UInt32} {id : BlockId}
    (h : c.find? pc = some id) : c.Holds ⟨physical pc, id⟩ := by
  unfold find? at h
  dsimp only at h
  split at h
  · rename_i line hhot
    split at h
    · rename_i hstart
      cases h
      rw [← hstart]
      exact (hc.hot hhot).1
    · exact holds_of_findInBucket? h
  · exact holds_of_findInBucket? h

/-- Where no block is found, none is held. -/
theorem not_holds_of_find? {pc : UInt32} (h : c.find? pc = none)
    (hline : c.Holds line) : line.start ≠ physical pc := by
  unfold find? at h
  dsimp only at h
  split at h
  · split at h
    · cases h
    · exact not_holds_of_findInBucket? h hline
  · exact not_holds_of_findInBucket? h hline

/-! ## The empty cache -/

theorem getD_buckets_empty (i : Nat) : empty.buckets.getD i [] = [] := by
  simp only [empty, Array.getD_eq_getD_getElem?, Array.getElem?_replicate]
  split <;> rfl

theorem not_holds_empty (line : CacheLine) : ¬ empty.Holds line := by
  unfold Holds
  rw [getD_buckets_empty]
  exact List.not_mem_nil

theorem wellFormed_empty : empty.WellFormed where
  size := Array.size_replicate
  place := by
    intro i line h
    rw [getD_buckets_empty] at h
    cases h
  nodup := by
    intro i
    rw [getD_buckets_empty]
    exact List.nodup_nil
  hot := by
    intro i line h
    simp only [empty, Array.getD_eq_getD_getElem?, Array.getElem?_replicate] at h
    split at h <;> cases h
  start := fun h => absurd h (not_holds_empty _)
  block := fun h => absurd h (not_holds_empty _)

/-! ## Adding and removing a line -/

theorem getD_modify {α : Type} (a : Array α) (i j : Nat) (f : α → α) (d : α) :
    (a.modify i f).getD j d = if i = j ∧ j < a.size then f (a.getD j d) else a.getD j d := by
  simp only [Array.getD_eq_getD_getElem?, Array.getElem?_modify]
  by_cases hij : i = j
  · by_cases hlt : j < a.size
    · simp [hij, hlt]
    · simp [hij, hlt]
  · simp [hij]

theorem bucketIndex_lt (start : UInt32) : bucketIndex start < bucketCount :=
  Nat.mod_lt _ (by decide)

theorem getD_buckets_insert (hsize : c.buckets.size = bucketCount) (line : CacheLine) (i : Nat) :
    (c.insert line).buckets.getD i [] =
      if bucketIndex line.start = i then line :: c.buckets.getD i [] else c.buckets.getD i [] := by
  have hlt := bucketIndex_lt line.start
  simp only [insert, getD_modify, hsize]
  by_cases hi : bucketIndex line.start = i
  · rw [if_pos ⟨hi, hi ▸ hlt⟩, if_pos hi]
  · rw [if_neg (fun h => hi h.1), if_neg hi]

theorem holds_insert (hc : c.WellFormed) {line l : CacheLine} :
    (c.insert line).Holds l ↔ l = line ∨ c.Holds l := by
  unfold Holds
  rw [getD_buckets_insert hc.size]
  split
  · exact List.mem_cons
  · rename_i hne
    constructor
    · exact .inr
    · rintro (rfl | h)
      · exact absurd rfl hne
      · exact h

/-- A line with a new start address and a new block can be added. -/
theorem WellFormed.insert (hc : c.WellFormed) (hstart : ∀ {l}, c.Holds l → l.start ≠ line.start)
    (hblock : ∀ {l}, c.Holds l → l.block ≠ line.block) : (c.insert line).WellFormed where
  size := by
    show (c.buckets.modify _ _).size = _
    rw [Array.size_modify]
    exact hc.size
  place := by
    intro i l h
    rw [getD_buckets_insert hc.size] at h
    split at h
    · rename_i hi
      rcases List.mem_cons.mp h with rfl | h
      · exact hi
      · exact hc.place h
    · exact hc.place h
  nodup := by
    intro i
    rw [getD_buckets_insert hc.size]
    split
    · rename_i hi
      refine List.nodup_cons.mpr ⟨fun hmem => ?_, hc.nodup i⟩
      rw [← hi] at hmem
      exact hstart hmem rfl
    · exact hc.nodup i
  hot := by
    intro i l h
    -- the new line is hot, in the place of another one
    by_cases hi : i = hotIndex line.start
    · subst hi
      by_cases hlt : hotIndex line.start < c.hot.size
      · simp only [BlockCache.insert, Array.getD_eq_getD_getElem?,
          Array.getElem?_setIfInBounds_self_of_lt hlt, Option.getD_some, Option.some.injEq] at h
        subst h
        exact ⟨(holds_insert hc).mpr (.inl rfl), rfl⟩
      · simp [BlockCache.insert, Array.getD_eq_getD_getElem?, hlt] at h
    · simp only [BlockCache.insert, Array.getD_eq_getD_getElem?,
        Array.getElem?_setIfInBounds_ne (Ne.symm hi)] at h
      rw [← Array.getD_eq_getD_getElem?] at h
      obtain ⟨hheld, hplace⟩ := hc.hot h
      exact ⟨(holds_insert hc).mpr (.inr hheld), hplace⟩
  start := by
    intro l l' hl hl' heq
    rcases (holds_insert hc).mp hl with rfl | hold
    · rcases (holds_insert hc).mp hl' with rfl | hold'
      · rfl
      · exact absurd heq.symm (hstart hold')
    · rcases (holds_insert hc).mp hl' with rfl | hold'
      · exact absurd heq (hstart hold)
      · exact hc.start hold hold' heq
  block := by
    intro l l' hl hl' heq
    rcases (holds_insert hc).mp hl with rfl | hold
    · rcases (holds_insert hc).mp hl' with rfl | hold'
      · rfl
      · exact absurd heq.symm (hblock hold')
    · rcases (holds_insert hc).mp hl' with rfl | hold'
      · exact absurd heq (hblock hold)
      · exact hc.block hold hold' heq

theorem getD_buckets_erase (hsize : c.buckets.size = bucketCount) (line : CacheLine) (i : Nat) :
    (c.erase line).buckets.getD i [] =
      if bucketIndex line.start = i then
        (c.buckets.getD i []).eraseP fun l => l.block == line.block
      else c.buckets.getD i [] := by
  have hlt := bucketIndex_lt line.start
  simp only [erase, getD_modify, hsize]
  by_cases hi : bucketIndex line.start = i
  · rw [if_pos ⟨hi, hi ▸ hlt⟩, if_pos hi]
  · rw [if_neg (fun h => hi h.1), if_neg hi]

/-- The bucket of a held line has no other line of its block, so the line itself goes. -/
theorem eraseP_bucket (hc : c.WellFormed) (hline : c.Holds line) :
    (c.buckets.getD (bucketIndex line.start) []).eraseP (fun l => l.block == line.block) =
      (c.buckets.getD (bucketIndex line.start) []).erase line := by
  rw [List.erase_eq_eraseP]
  have hheld : ∀ l ∈ c.buckets.getD (bucketIndex line.start) [], c.Holds l := by
    intro l hl
    have hplace := hc.place hl
    unfold Holds
    rw [hplace]
    exact hl
  generalize c.buckets.getD (bucketIndex line.start) [] = bucket at hheld
  induction bucket with
  | nil => rfl
  | cons l bucket ih =>
    have htail := ih fun l' hl' => hheld l' (List.mem_cons_of_mem l hl')
    by_cases hl : l = line
    · subst hl
      rw [List.eraseP_cons_of_pos (by simp), List.eraseP_cons_of_pos (by simp)]
    · have hne : l.block ≠ line.block := fun h => hl (hc.block (hheld l List.mem_cons_self) hline h)
      rw [List.eraseP_cons_of_neg (by simpa using hne),
        List.eraseP_cons_of_neg (by simpa using Ne.symm hl), htail]

theorem holds_erase (hc : c.WellFormed) {line l : CacheLine}
    (hline : c.Holds line) : (c.erase line).Holds l ↔ c.Holds l ∧ l ≠ line := by
  unfold Holds
  rw [getD_buckets_erase hc.size]
  split
  · rename_i hi
    rw [← hi, eraseP_bucket hc hline, (hc.nodup _).mem_erase_iff]
    exact and_comm
  · rename_i hi
    constructor
    · intro h
      refine ⟨h, ?_⟩
      rintro rfl
      exact hi rfl
    · exact fun h => h.1

/-- A held line can be removed. -/
theorem WellFormed.erase (hc : c.WellFormed)
    (hline : c.Holds line) : (c.erase line).WellFormed where
  size := by
    show (c.buckets.modify _ _).size = _
    rw [Array.size_modify]
    exact hc.size
  place := by
    intro i l h
    rw [getD_buckets_erase hc.size] at h
    split at h
    · exact hc.place (List.mem_of_mem_eraseP h)
    · exact hc.place h
  nodup := by
    intro i
    rw [getD_buckets_erase hc.size]
    split
    · exact (hc.nodup i).eraseP _
    · exact hc.nodup i
  hot := by
    intro i l h
    -- a line that stays hot was hot before, and is not the one that goes
    have hold : c.hot.getD i none = some l ∧ l ≠ line := by
      simp only [BlockCache.erase, getD_modify] at h
      split at h
      · split at h
        · rename_i l' hhot
          split at h
          · cases h
          · rename_i hne
            cases h
            exact ⟨hhot, fun heq => hne (heq ▸ rfl)⟩
        · cases h
      · rename_i hi
        refine ⟨h, ?_⟩
        rintro rfl
        have hplace := (hc.hot h).2
        apply hi
        refine ⟨hplace, ?_⟩
        apply Decidable.byContradiction
        intro hlt
        simp [Array.getD_eq_getD_getElem?, hlt] at h
    obtain ⟨hheld, hplace⟩ := hc.hot hold.1
    exact ⟨(holds_erase hc hline).mpr ⟨hheld, hold.2⟩, hplace⟩
  start := fun hl hl' =>
    hc.start ((holds_erase hc hline).mp hl).1 ((holds_erase hc hline).mp hl').1
  block := fun hl hl' =>
    hc.block ((holds_erase hc hline).mp hl).1 ((holds_erase hc hline).mp hl').1

/-! ## How many blocks there are -/

/-- The count of a cache is that of its lines. -/
def Counted (c : BlockCache) : Prop := c.count = c.toList.length

/-- The number of lines of all buckets after one of them changed. -/
theorem sum_modify_bucket (buckets : List (List CacheLine)) {i : Nat} (hi : i < buckets.length)
    (f : List CacheLine → List CacheLine) :
    ((buckets.modify i f).map List.length).sum + buckets[i].length =
      (buckets.map List.length).sum + (f buckets[i]).length := by
  have hsplit : buckets = buckets.take i ++ buckets[i] :: buckets.drop (i + 1) := by simp
  have hsum := congrArg (fun l => (l.map List.length).sum) hsplit
  rw [List.modify_eq_take_cons_drop hi]
  simp only [List.map_append, List.map_cons, List.sum_append, List.sum_cons] at hsum ⊢
  omega

theorem length_toList (c : BlockCache) :
    c.toList.length = (c.buckets.toList.map List.length).sum := by
  unfold toList
  rw [List.length_flatMap]
  simp only [List.length_map]

theorem counted_empty : empty.Counted := by
  unfold Counted
  rw [length_toList]
  simp [empty]

/-- The bucket of a line, as it is found in the list of buckets. -/
theorem bucket_eq (hc : c.WellFormed) (start : UInt32) :
    ∃ hi : bucketIndex start < c.buckets.toList.length,
      c.buckets.toList[bucketIndex start] = c.buckets.getD (bucketIndex start) [] := by
  have hi : bucketIndex start < c.buckets.toList.length := by
    rw [Array.length_toList, hc.size]
    exact bucketIndex_lt start
  refine ⟨hi, ?_⟩
  rw [Array.getD_eq_getD_getElem?, ← Array.getElem?_toList, List.getElem?_eq_getElem hi]
  rfl

theorem Counted.insert (h : c.Counted) (hc : c.WellFormed) (line : CacheLine) :
    (c.insert line).Counted := by
  obtain ⟨hi, -⟩ := bucket_eq hc line.start
  have hsum := sum_modify_bucket c.buckets.toList hi (line :: ·)
  unfold Counted at *
  rw [length_toList] at *
  show c.count + 1 = ((c.buckets.modify (bucketIndex line.start) (line :: ·)).toList.map List.length).sum
  rw [Array.toList_modify]
  rw [List.length_cons] at hsum
  omega

theorem Counted.erase (h : c.Counted) (hc : c.WellFormed)
    (hline : c.Holds line) : (c.erase line).Counted ∧ (c.erase line).count + 1 = c.count := by
  obtain ⟨hi, hbucket⟩ := bucket_eq hc line.start
  have hsum := sum_modify_bucket c.buckets.toList hi (·.eraseP fun l => l.block == line.block)
  have hmem : line ∈ c.buckets.toList[bucketIndex line.start] := hbucket ▸ hline
  have hblock : (fun l : CacheLine => l.block == line.block) line = true := beq_self_eq_true _
  rw [List.length_eraseP_of_mem hmem hblock] at hsum
  have hpos := List.length_pos_of_mem hmem
  unfold Counted at *
  rw [length_toList] at *
  refine ⟨?_, ?_⟩
  · show c.count - 1 = ((c.buckets.modify (bucketIndex line.start)
      (·.eraseP fun l => l.block == line.block)).toList.map List.length).sum
    rw [Array.toList_modify]
    omega
  · show c.count - 1 + 1 = c.count
    omega

/-! ## Entries of a block that leaves -/

/-- A block that is taken out loses the entry of its start and then those of its code. -/
theorem unregister_cases (c : BlockCache) (t : EntryTable) (id : BlockId) (b : Block) :
    ∃ u, ((∃ slot, u = t.store slot .null) ∨ u = t) ∧
      ((∃ code : CompiledCode, (c.unregister t id b).2 = u.retire code.id code.slots) ∨
        (c.unregister t id b).2 = u) := by
  unfold unregister
  dsimp only
  cases t.index? b.start with
  | none =>
    refine ⟨t, .inr rfl, ?_⟩
    cases b.code with
    | none => exact .inr rfl
    | some code => exact .inl ⟨code, rfl⟩
  | some slot =>
    refine ⟨t.store slot .null, .inl ⟨slot, rfl⟩, ?_⟩
    cases b.code with
    | none => exact .inr rfl
    | some code => exact .inl ⟨code, rfl⟩

theorem sameShape_unregister (c : BlockCache) (t : EntryTable) (id : BlockId) (b : Block) :
    t.SameShape (c.unregister t id b).2 := by
  obtain ⟨u, hu, hcases⟩ := c.unregister_cases t id b
  have hstart : t.SameShape u := by
    rcases hu with ⟨slot, rfl⟩ | rfl
    · exact t.sameShape_store slot .null
    · exact .refl u
  rcases hcases with ⟨code, h⟩ | h
  · rw [h]
    exact hstart.trans (u.sameShape_retire code.id code.slots)
  · rw [h]
    exact hstart

/-- A block that leaves the cache clears entries and changes no other. -/
theorem load_unregister_cases (c : BlockCache) (t : EntryTable) (id : BlockId) (b : Block)
    (slot : Nat) :
    (c.unregister t id b).2.load slot = .null ∨ (c.unregister t id b).2.load slot = t.load slot := by
  obtain ⟨u, hu, hcases⟩ := c.unregister_cases t id b
  have hstart : u.load slot = .null ∨ u.load slot = t.load slot := by
    rcases hu with ⟨start, rfl⟩ | rfl
    · rcases t.load_store_cases start slot .null with ⟨-, h⟩ | h
      · exact .inl h
      · exact .inr h
    · exact .inr rfl
  rcases hcases with ⟨code, h⟩ | h
  · rw [h]
    rcases u.load_retire_cases code.id code.slots slot with hnull | hsame
    · exact .inl hnull
    · rw [hsame]
      exact hstart
  · rw [h]
    exact hstart

/-- What still leads into code is not the code of the block that left. -/
theorem load_of_load_unregister {t : EntryTable} {id : BlockId} {b : Block} {slot : Nat}
    {n : CodeId} {offset : Nat} (h : (c.unregister t id b).2.load slot = .code n offset) :
    t.load slot = .code n offset ∧ ∀ {k}, b.code = some k →
      ¬ (n = k.id ∧ slot ∈ k.slots) := by
  refine ⟨?_, ?_⟩
  · rcases c.load_unregister_cases t id b slot with hnull | hsame
    · cases h.symm.trans hnull
    · exact hsame.symm.trans h
  · intro k hk
    unfold unregister at h
    dsimp only at h
    rw [hk] at h
    exact (EntryTable.load_of_load_retire h).2

end Dynarec.BlockCache
