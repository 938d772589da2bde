/-
  Dynarec.Proofs.Invalidation

  What an invalidation clears.

  Every slot stands for a word of a region. The table notes how many words the
  code behind a slot spans, and marks those words. An invalidation passes at
  once where no word is marked, and otherwise looks back from its range as far
  as a block can be long. That finds as much as a look at every slot would: the
  entries there are have a span, no span is longer than the window, and the
  words of every span are marked. All that happens to a table keeps that so.
-/
import Dynarec.Proofs.Aliases
import Dynarec.Proofs.BlockCache

namespace Dynarec

/-- The word around an address is the word around its physical address. -/
theorem toNat_physical_and_aligned (addr : UInt32) :
    (physical (addr &&& 0xfffffffc)).toNat = (physical addr).toNat - (physical addr).toNat % 4 := by
  have hword := toNat_and_aligned addr
  rw [toNat_physical, toNat_physical, hword]
  split
  · split
    · omega
    · omega
  · split
    · omega
    · omega

/-- Rounding down to a multiple of four commutes with wrapping around at one. -/
theorem sub_mod_four_mod {x length limit : Nat} (hx : x < limit)
    (h : limit ≤ length ∨ length % 4 = 0) :
    (x - x % 4) % length = x % length - x % length % 4 ∧ x % length % 4 = x % 4 := by
  rcases h with hle | hfour
  · rw [Nat.mod_eq_of_lt (show x < length by omega), Nat.mod_eq_of_lt (by omega)]
    exact ⟨rfl, rfl⟩
  · obtain ⟨q, hq⟩ := Nat.dvd_of_mod_eq_zero hfour
    have hmod : x % length % 4 = x % 4 := Nat.mod_mod_of_dvd x ⟨q, hq⟩
    have hdiv := Nat.div_add_mod x length
    refine ⟨?_, hmod⟩
    rcases Nat.eq_zero_or_pos length with rfl | hpos
    · rw [Nat.mod_zero, Nat.mod_zero]
    · have hsplit : x - x % 4 = x % length - x % length % 4 + length * (x / length) := by
        have := Nat.mod_le (x % length) 4
        omega
      rw [hsplit, Nat.add_mul_mod_self_left]
      have := Nat.mod_lt x hpos
      exact Nat.mod_eq_of_lt (by omega)

/-- Counting over a range counts what lies in the part where there is something to count. -/
theorem countP_range' {p : Nat → Bool} {a n s m : Nat} (hs : s ≤ a) (he : a + n ≤ s + m)
    (h : ∀ k, p k = true → a ≤ k ∧ k < a + n) :
    (List.range' s m).countP p = (List.range' a n).countP p := by
  have hsplit : List.range' s m =
      List.range' s (a - s) ++ (List.range' a n ++ List.range' (a + n) (s + m - (a + n))) := by
    obtain ⟨d, rfl⟩ := Nat.exists_eq_add_of_le hs
    rw [Nat.add_sub_cancel_left, List.range'_append_1, List.range'_append_1]
    congr 1
    omega
  have hbefore : (List.range' s (a - s)).countP p = 0 := by
    refine List.countP_eq_zero.mpr fun k hk hp => ?_
    have hrange := List.mem_range'_1.mp hk
    have hin := h k hp
    omega
  have hbehind : (List.range' (a + n) (s + m - (a + n))).countP p = 0 := by
    refine List.countP_eq_zero.mpr fun k hk hp => ?_
    have hrange := List.mem_range'_1.mp hk
    have hin := h k hp
    omega
  rw [hsplit, List.countP_append, List.countP_append, hbefore, hbehind]
  omega

/-- A block that leaves the cache takes no span and no mark back. -/
theorem BlockCache.marks_unregister (c : BlockCache) (t : EntryTable) (id : BlockId) (b : Block) :
    (c.unregister t id b).2.spans = t.spans ∧ (c.unregister t id b).2.covered = t.covered := by
  obtain ⟨u, hu, hcases⟩ := c.unregister_cases t id b
  have hstart : u.spans = t.spans ∧ u.covered = t.covered := by
    rcases hu with ⟨slot, rfl⟩ | rfl
    · exact ⟨rfl, rfl⟩
    · exact ⟨rfl, rfl⟩
  rcases hcases with ⟨code, h⟩ | h
  · rw [h]
    exact hstart
  · rw [h]
    exact hstart

namespace EntryTable

variable {l : Layout} {t u : EntryTable} {slot n maxBlockOps : Nat}

/-! ## Spans and marks -/

theorem getD_cover (count first : Nat) (marks : Array Bool) (i : Nat) :
    (cover count first marks).getD i false =
      if first ≤ i ∧ i < first + count ∧ i < marks.size then true else marks.getD i false := by
  induction count generalizing first marks with
  | zero =>
    rw [if_neg (by omega)]
    rfl
  | succ count ih =>
    rw [cover, ih, Array.size_setIfInBounds]
    by_cases hi : i = first
    · subst hi
      by_cases hlt : i < marks.size
      · rw [if_neg (by omega), if_pos (by omega), getD_setIfInBounds_self _ hlt]
      · rw [if_neg (by omega), if_neg (by omega),
          Array.setIfInBounds_eq_of_size_le (Nat.le_of_not_lt hlt)]
    · rw [getD_setIfInBounds_of_ne _ hi]
      by_cases hin : first + 1 ≤ i ∧ i < first + 1 + count ∧ i < marks.size
      · rw [if_pos hin, if_pos (by omega)]
      · rw [if_neg hin, if_neg (by omega)]

theorem getD_spans_noteSpan (t : EntryTable) (slot ops : Nat) (exact : Bool) (other : Nat) :
    (t.noteSpan slot ops exact).spans.getD other 0 =
      if slot = other ∧ other < t.spans.size then
        (if exact then min ops 65535 else max (t.spans.getD other 0) (min ops 65535))
      else t.spans.getD other 0 := by
  unfold noteSpan
  simp only [Array.getD_eq_getD_getElem?, Array.getElem?_modify]
  by_cases hslot : slot = other
  · by_cases hlt : other < t.spans.size
    · simp [hslot, hlt]
    · simp [hslot, hlt]
  · simp [hslot]

theorem getD_covered_noteSpan (t : EntryTable) (slot ops : Nat) (exact : Bool) (i : Nat) :
    (t.noteSpan slot ops exact).covered.getD i false =
      if slot ≤ i ∧ i < slot + min ops 65535 ∧ i < t.covered.size then true
      else t.covered.getD i false := by
  refine (getD_cover ..).trans ?_
  by_cases hin : slot ≤ i ∧ i < slot + min ops 65535 ∧ i < t.covered.size
  · rw [if_pos hin, if_pos (by omega)]
  · rw [if_neg hin, if_neg (by omega)]

theorem anyCovered_of_covered {count first i : Nat} (hle : first ≤ i) (hlt : i < first + count)
    (h : t.covered.getD i false = true) : t.anyCovered count first = true := by
  induction count generalizing first with
  | zero => omega
  | succ count ih =>
    rw [anyCovered]
    by_cases hi : i = first
    · rw [← hi, h, Bool.true_or]
    · rw [ih (by omega) (by omega), Bool.or_true]

/-- Entries have spans, spans fit into the window, and their words are marked. -/
structure Marked (t : EntryTable) : Prop where
  spans : t.spans.size = t.slots.size
  marks : t.covered.size = t.slots.size
  pos : ∀ slot, t.load slot ≠ .null → 0 < t.spans.getD slot 0
  le : ∀ slot, t.spans.getD slot 0 ≤ t.window
  covered : ∀ slot i, i < t.spans.getD slot 0 → slot + i < t.covered.size →
    t.covered.getD (slot + i) false = true

/-- No mark is lost where entries are cleared, or replaced by others. -/
theorem Marked.of_load (h : t.Marked) (hspans : u.spans = t.spans)
    (hcovered : u.covered = t.covered) (hwindow : u.window = t.window)
    (hsize : u.slots.size = t.slots.size)
    (hload : ∀ slot, u.load slot ≠ .null → t.load slot ≠ .null) : u.Marked where
  spans := by rw [hspans, hsize, h.spans]
  marks := by rw [hcovered, hsize, h.marks]
  pos slot hslot := by
    rw [hspans]
    exact h.pos slot (hload slot hslot)
  le slot := by
    rw [hspans, hwindow]
    exact h.le slot
  covered := by
    rw [hspans, hcovered]
    exact h.covered

theorem Marked.of_cleared (h : t.Marked) (hspans : u.spans = t.spans)
    (hcovered : u.covered = t.covered) (hwindow : u.window = t.window)
    (hsize : u.slots.size = t.slots.size)
    (hload : ∀ slot, u.load slot = .null ∨ u.load slot = t.load slot) : u.Marked := by
  refine h.of_load hspans hcovered hwindow hsize fun slot hslot => ?_
  rcases hload slot with hnull | heq
  · exact absurd hnull hslot
  · rwa [heq] at hslot

/-- A span that is noted marks its words; the marks of other spans, and of those that it replaces,
stay. -/
theorem Marked.noteSpan (h : t.Marked) (hspans : u.spans = t.spans)
    (hcovered : u.covered = t.covered) (hwindow : u.window = t.window)
    (hsize : u.slots.size = t.slots.size)
    (hload : ∀ other, other ≠ slot → u.load other ≠ .null → t.load other ≠ .null) {ops : Nat}
    (hpos : 1 ≤ ops) (hle : ops ≤ t.window) (exact : Bool) :
    (u.noteSpan slot ops exact).Marked where
  spans := by
    show (u.spans.modify _ _).size = u.slots.size
    rw [Array.size_modify, hspans, hsize, h.spans]
  marks := by
    refine (size_cover ..).trans ?_
    rw [hcovered, h.marks]
    exact hsize.symm
  pos other hother := by
    rw [load_noteSpan] at hother
    rw [getD_spans_noteSpan, hspans]
    split
    · cases exact with
      | true =>
        rw [if_pos rfl]
        omega
      | false =>
        rw [if_neg Bool.false_ne_true]
        omega
    · rename_i hnot
      have hlt := lt_size_of_load_ne_null hother
      rw [hsize, ← h.spans] at hlt
      have hne : other ≠ slot := fun heq => hnot ⟨heq.symm, hlt⟩
      exact h.pos other (hload other hne hother)
  le other := by
    have hold := h.le other
    show _ ≤ u.window
    rw [getD_spans_noteSpan, hspans, hwindow]
    split
    · cases exact with
      | true =>
        rw [if_pos rfl]
        omega
      | false =>
        rw [if_neg Bool.false_ne_true]
        omega
    · exact hold
  covered other i hi hlt := by
    have hlt : other + i < t.covered.size := by
      rw [← hcovered]
      exact Nat.lt_of_lt_of_eq hlt (size_cover ..)
    rw [getD_spans_noteSpan, hspans] at hi
    rw [getD_covered_noteSpan, hcovered]
    by_cases hin : slot ≤ other + i ∧ other + i < slot + min ops 65535 ∧
        other + i < t.covered.size
    · rw [if_pos hin]
    · rw [if_neg hin]
      refine h.covered other i ?_ hlt
      -- a word that the new span does not reach belongs to an older one
      split at hi
      · rename_i hslot
        cases exact with
        | true =>
          rw [if_pos rfl] at hi
          omega
        | false =>
          rw [if_neg Bool.false_ne_true] at hi
          omega
      · exact hi

theorem Marked.storeSpan (h : t.Marked) (slot : Nat) (e : Entry) {ops : Nat} (hpos : 1 ≤ ops)
    (hle : ops ≤ t.window) (exact : Bool) : ((t.store slot e).noteSpan slot ops exact).Marked :=
  h.noteSpan (u := t.store slot e) rfl rfl rfl Array.size_setIfInBounds
    (fun other hne hload => by rwa [load_store_of_ne t hne] at hload) hpos hle exact

/-! ## What happens to a table -/

/-- One operation on a table whose blocks have at most `maxBlockOps` instructions and a delay
slot. -/
inductive Update (maxBlockOps : Nat) (t : EntryTable) : EntryTable → Prop where
  | register (c : BlockCache) (id : BlockId) (b : Block) (hpos : 1 ≤ b.opCount)
      (hle : b.opCount ≤ maxBlockOps + 1) : Update maxBlockOps t (c.register t id b).2
  | unregister (c : BlockCache) (id : BlockId) (b : Block) :
      Update maxBlockOps t (c.unregister t id b).2
  /-- An entry at the start of a block or inside it, with the number of words to the block's end. -/
  | publish (slot : Nat) (e : Entry) (ops : Nat) (exact : Bool) (hpos : 1 ≤ ops)
      (hle : ops ≤ maxBlockOps + 1) :
      Update maxBlockOps t ((t.store slot e).noteSpan slot ops exact)
  | publishIf (slot : Nat) (current e : Entry) (ops : Nat) (exact : Bool) (hpos : 1 ≤ ops)
      (hle : ops ≤ maxBlockOps + 1) :
      Update maxBlockOps t ((t.compareExchange slot current e).2.noteSpan slot ops exact)
  /-- Another entry for a block that has one already. -/
  | replace (slot : Nat) (e : Entry) (hload : t.load slot ≠ .null) :
      Update maxBlockOps t (t.store slot e)
  | flagRecompile (b : Block) : Update maxBlockOps t (b.flagRecompile t).2.1
  | retire (id : CodeId) (which : Array Nat) : Update maxBlockOps t (t.retire id which)
  | invalidate (addr length : UInt32) : Update maxBlockOps t (t.invalidate addr length).2
  | invalidateAll : Update maxBlockOps t t.invalidateAll

/-- What the table of a map can become. -/
inductive Reached (l : Layout) (maxBlockOps : Nat) : EntryTable → Prop where
  | start : Reached l maxBlockOps (ofLayout l maxBlockOps)
  | step {t u : EntryTable} (h : Reached l maxBlockOps t) (hu : t.Update maxBlockOps u) :
      Reached l maxBlockOps u

theorem Update.sameShape (h : t.Update maxBlockOps u) : t.SameShape u := by
  cases h with
  | register c id b =>
    unfold BlockCache.register
    dsimp only
    split
    · exact (sameShape_noteSpan ..).trans (sameShape_store ..)
    · exact .refl t
  | unregister c id b => exact c.sameShape_unregister t id b
  | publish => exact (sameShape_store ..).trans (sameShape_noteSpan ..)
  | publishIf => exact (sameShape_compareExchange ..).trans (sameShape_noteSpan ..)
  | replace => exact sameShape_store ..
  | flagRecompile b =>
    unfold Block.flagRecompile
    dsimp only
    split
    · exact .refl t
    · dsimp only
      split
      · exact sameShape_compareExchange ..
      · exact .refl t
  | retire => exact sameShape_retire ..
  | invalidate => exact sameShape_invalidate ..
  | invalidateAll => exact sameShape_invalidateAll t

/-- An entry may take the place of another one. -/
theorem Marked.store (h : t.Marked) (e : Entry) (hload : t.load slot ≠ .null) :
    (t.store slot e).Marked := by
  refine h.of_load rfl rfl rfl Array.size_setIfInBounds fun other hother => ?_
  rcases load_store_cases t slot other e with ⟨rfl, -⟩ | heq
  · exact hload
  · rwa [heq] at hother

theorem Update.marked (h : t.Update maxBlockOps u) (ht : t.Marked)
    (hwindow : maxBlockOps + 1 ≤ t.window) : u.Marked := by
  -- Entries are written together with their spans, or there was one before, or they are cleared.
  cases h with
  | register c id b hpos hle =>
    unfold BlockCache.register
    dsimp only
    split
    · rename_i slot _
      exact ht.storeSpan slot .pending hpos (Nat.le_trans hle hwindow) true
    · exact ht
  | unregister c id b =>
    obtain ⟨hspans, hcovered⟩ := c.marks_unregister t id b
    have hshape := c.sameShape_unregister t id b
    exact ht.of_cleared hspans hcovered hshape.window hshape.slots (c.load_unregister_cases t id b)
  | publish slot e ops exact hpos hle =>
    exact ht.storeSpan slot e hpos (Nat.le_trans hle hwindow) exact
  | publishIf slot current e ops exact hpos hle =>
    obtain ⟨-, hspans, hcovered, hw, -, hsize⟩ := t.compareExchange_frame slot current e
    exact ht.noteSpan hspans hcovered hw hsize
      (fun other hne hload => by rwa [load_compareExchange_of_ne t hne] at hload) hpos
      (Nat.le_trans hle hwindow) exact
  | replace slot e hload => exact ht.store e hload
  | flagRecompile b =>
    unfold Block.flagRecompile
    dsimp only
    split
    · exact ht
    · rename_i code _
      dsimp only
      split
      · -- the entry led into code, so there was one
        rename_i slot _
        unfold compareExchange
        split
        · rename_i hcode
          exact ht.store .pending (by rw [hcode]; intro hnull; cases hnull)
        · exact ht
      · exact ht
  | retire id which =>
    have hsize := (sameShape_retire t id which).slots
    exact ht.of_cleared rfl rfl rfl hsize (load_retire_cases t id which)
  | invalidate addr length =>
    obtain ⟨-, hspans, hcovered, hw, hsize⟩ := t.invalidate_frame addr length
    exact ht.of_cleared hspans hcovered hw hsize (load_invalidate_cases t addr length)
  | invalidateAll =>
    have hload := load_invalidateAll t
    exact ht.of_cleared rfl rfl rfl Array.size_replicate fun slot => .inl (hload slot)

theorem marked_ofLayout (l : Layout) (maxBlockOps : Nat) : (ofLayout l maxBlockOps).Marked := by
  have hspan : ∀ slot, (ofLayout l maxBlockOps).spans.getD slot 0 = 0 := by
    intro slot
    unfold ofLayout
    dsimp only
    rw [Array.getD_eq_getD_getElem?, Array.getElem?_replicate]
    split
    · rfl
    · rfl
  refine ⟨?_, ?_, fun slot hslot => absurd ?_ hslot, fun slot => ?_, fun slot i hi => ?_⟩
  · unfold ofLayout
    dsimp only
    rw [Array.size_replicate, Array.size_replicate]
  · unfold ofLayout
    dsimp only
    rw [Array.size_replicate, Array.size_replicate]
  · unfold load ofLayout
    dsimp only
    rw [Array.getD_eq_getD_getElem?, Array.getElem?_replicate]
    split
    · rfl
    · rfl
  · rw [hspan]
    exact Nat.zero_le _
  · rw [hspan] at hi
    omega

theorem Reached.sameShape (h : Reached l maxBlockOps t) : (ofLayout l maxBlockOps).SameShape t := by
  induction h with
  | start => exact .refl _
  | step _ hu ih => exact ih.trans hu.sameShape

theorem Reached.marked (h : Reached l maxBlockOps t) : t.Marked := by
  induction h with
  | start => exact marked_ofLayout l maxBlockOps
  | step h hu ih =>
    refine hu.marked ih ?_
    rw [h.sameShape.window]
    show maxBlockOps + 1 ≤ max maxBlockOps 2 + 1
    omega

end EntryTable

/-! ## Where the bytes of a range are -/

namespace Layout

variable {l : Layout} {i : Nat} {r : Region} {addr length : UInt32}

/-- The `length` bytes at `addr` lie in the region at position `i`, which is `r` and starts at a
whole word. Code may be there, and the bytes belong to one copy of the memory behind. -/
structure Shows (l : Layout) (addr length : UInt32) (i : Nat) (r : Region) : Prop where
  region : l.regions[i]? = some r
  code : l.isCode (l.canonical i) = true
  aligned : r.base.toNat % 4 = 0
  above : r.base.toNat ≤ (physical addr).toNat
  inside : (physical addr).toNat + length.toNat ≤ r.base.toNat + r.length.toNat
  whole : r.length.toNat ≤ (l.behind i).length.toNat ∨ (l.behind i).length.toNat % 4 = 0
  copy : (l.seat i r (physical addr)).offset.toNat + length.toNat ≤ (l.behind i).length.toNat

/-- No region before the one at position `i` has slots for the physical address. -/
def Foremost (l : Layout) (i : Nat) (paddr : UInt32) : Prop :=
  ∀ {j : Nat} {s : Region}, j < i → l.Holds j s paddr → l.isCode (l.canonical j) = false

/-- Memory of a region's own has one copy. -/
theorem Shows.of_isCode (hr : l.regions[i]? = some r) (hcode : l.isCode i = true)
    (haligned : r.base.toNat % 4 = 0) (habove : r.base.toNat ≤ (physical addr).toNat)
    (hinside : (physical addr).toNat + length.toNat ≤ r.base.toNat + r.length.toNat) :
    l.Shows addr length i r := by
  obtain ⟨_, hr', hbehind, hcanonical⟩ := region_of_isCode hcode
  cases hr.symm.trans hr'
  have hcopy : ((physical addr).toNat - r.base.toNat) % r.length.toNat + length.toNat ≤
      r.length.toNat := by
    have hle := Nat.mod_le ((physical addr).toNat - r.base.toNat) r.length.toNat
    omega
  refine ⟨hr, hcanonical.symm ▸ hcode, haligned, habove, hinside, ?_, ?_⟩
  · exact .inl (Nat.le_of_eq (by rw [hbehind]))
  · rwa [toNat_offset_seat habove, hbehind]

/-- The word that a range begins in lies in the region of the range. -/
theorem Shows.holds (h : l.Shows addr length i r) (hlength : length ≠ 0) :
    l.Holds i r (physical (addr &&& 0xfffffffc)) := by
  have hpos : length.toNat ≠ 0 := fun hzero => hlength (UInt32.toNat_inj.mp hzero)
  have hword := toNat_physical_and_aligned addr
  have haligned := h.aligned
  have habove := h.above
  have hinside := h.inside
  exact ⟨h.region, Region.contains_iff.mpr ⟨by omega, by omega⟩⟩

/-- Where no regions overlap, the first region that holds an address is the only one. -/
theorem Shows.foremost (h : l.Shows addr length i r) (hl : l.Apart) (hlength : length ≠ 0) :
    l.Foremost i (physical (addr &&& 0xfffffffc)) := by
  intro j s hj hs
  have hsame := hl hs (h.holds hlength)
  omega

/-- The word that a range begins in, in the memory behind. -/
theorem Shows.toNat_offset_word (h : l.Shows addr length i r) (hlength : length ≠ 0) :
    let offset := (l.seat i r (physical addr)).offset.toNat
    (l.seat i r (physical (addr &&& 0xfffffffc))).offset.toNat = offset - offset % 4 ∧
      offset % 4 = addr.toNat % 4 := by
  dsimp only
  have hpos : length.toNat ≠ 0 := fun hzero => hlength (UInt32.toNat_inj.mp hzero)
  have hword := toNat_physical_and_aligned addr
  have hfour := toNat_physical_mod_four addr
  have haligned := h.aligned
  have habove := h.above
  have hinside := h.inside
  obtain ⟨hdown, hmod⟩ := sub_mod_four_mod
    (show (physical addr).toNat - r.base.toNat < r.length.toNat by omega) h.whole
  have hsub : (physical (addr &&& 0xfffffffc)).toNat - r.base.toNat =
      (physical addr).toNat - r.base.toNat - ((physical addr).toNat - r.base.toNat) % 4 := by
    omega
  rw [toNat_offset_seat (by omega), toNat_offset_seat habove, hsub, hdown]
  exact ⟨rfl, by omega⟩

end Layout

namespace EntryTable

variable {l : Layout} {t : EntryTable} {i slot maxBlockOps : Nat} {r : Region}
  {addr length : UInt32}

/-- The first region with slots for an address is where the table finds it. -/
theorem locate_of_foremost (ht : t.regions = (ofLayout l maxBlockOps).regions)
    (h : l.Holds i r (physical addr)) (hcode : l.isCode (l.canonical i) = true)
    (hfirst : l.Foremost i (physical addr)) :
    t.locate addr = some (place l (l.seat i r (physical addr))) := by
  obtain ⟨hlt, hget⟩ := Array.getElem?_eq_some_iff.mp h.region
  have hregion : l.regions.getD i default = r := by
    rw [Array.getD_eq_getD_getElem?, h.region, Option.getD_some]
  unfold locate
  dsimp only
  rw [ht, regions_ofLayout, List.find?_filterMap, (List.find?_range_eq_some (i := i)).mpr]
  · rw [Option.bind_some, if_pos hcode]
    dsimp only
    rw [hregion]
    rfl
  · refine ⟨?_, List.mem_range.mpr hlt, fun j hj => ?_⟩
    · rw [if_pos hcode, Option.any_some, hregion]
      exact h.contains
    · have hjlt : j < l.regions.size := Nat.lt_trans hj hlt
      have hjget : l.regions.getD j default = l.regions[j] := by simp [hjlt]
      by_cases hjcode : l.isCode (l.canonical j) = true
      · rw [if_pos hjcode, Option.any_some, hjget, Bool.not_eq_true', ← Bool.not_eq_true]
        intro hcontains
        have hnot := hfirst hj ⟨Array.getElem?_eq_getElem hjlt, hcontains⟩
        rw [hjcode] at hnot
        cases hnot
      · rw [if_neg hjcode]
        rfl

/-- What a sweep counts are the slots that it clears. -/
theorem fst_sweep_eq_countP (spans : Array Nat) (base start n word : Nat) (slots : Array Entry) :
    (sweep spans base start n word 0 slots).1 = (List.range slots.size).countP fun slot =>
      !(slots.getD slot .null).isNull &&
        ((sweep spans base start n word 0 slots).2.getD slot .null).isNull := by
  generalize hcleared : (fun slot => !(slots.getD slot .null).isNull &&
    ((sweep spans base start n word 0 slots).2.getD slot .null).isNull) = cleared
  have hiff : ∀ slot, cleared slot = true ↔
      (base + word ≤ slot ∧ slot < base + word + n) ∧
        (reaches spans base start (slot - base) && !(slots.getD slot .null).isNull) = true := by
    intro slot
    rw [← hcleared]
    dsimp only
    rw [getD_sweep, Bool.and_eq_true, Bool.and_eq_true, Bool.not_eq_true']
    split
    · rename_i hin
      exact ⟨fun h => ⟨⟨hin.1, hin.2.1⟩, hin.2.2, h.1⟩, fun h => ⟨h.2.2, rfl⟩⟩
    · rename_i hout
      refine ⟨fun h => ?_, fun h => absurd ⟨h.1.1, h.1.2, h.2.1⟩ hout⟩
      rw [h.1] at h
      exact absurd h.2 Bool.false_ne_true
  have hlt : ∀ slot, cleared slot = true → slot < slots.size := by
    intro slot hslot
    have hload := (Bool.and_eq_true_iff.mp ((hiff slot).mp hslot).2).2
    refine lt_size_of_load_ne_null (t := { slots }) fun hnull => ?_
    rw [show slots.getD slot .null = .null from hnull] at hload
    cases hload
  -- both the slots there are and those of the sweep are part of one range
  have hall : (List.range slots.size).countP cleared =
      (List.range' 0 (base + word + n + slots.size)).countP cleared := by
    rw [List.range_eq_range']
    refine (countP_range' (Nat.zero_le 0) (by omega) fun slot hslot => ?_).symm
    have hslot := hlt slot hslot
    omega
  have hswept : (List.range' 0 (base + word + n + slots.size)).countP cleared =
      (List.range' (base + word) n).countP cleared :=
    countP_range' (Nat.zero_le _) (by omega) fun slot hslot => ((hiff slot).mp hslot).1
  rw [hall, hswept, fst_sweep, Nat.zero_add, ← List.map_add_range', List.countP_map]
  refine List.countP_congr fun w hw => ?_
  have hrange := List.mem_range'_1.mp hw
  rw [Function.comp_apply, hiff, Nat.add_sub_cancel_left]
  exact ⟨fun h => ⟨⟨by omega, by omega⟩, h⟩, fun h => h.2⟩

/-- What an invalidation counts are the slots that it clears. -/
theorem fst_invalidate (t : EntryTable) (addr length : UInt32) :
    (t.invalidate addr length).1 = (List.range t.size).countP fun slot =>
      !(t.load slot).isNull && ((t.invalidate addr length).2.load slot).isNull := by
  rcases t.invalidate_cases addr length with ⟨heq, -⟩ | ⟨p, -, -, -, heq⟩
  · rw [heq, eq_comm, List.countP_eq_zero]
    intro slot _
    rw [Bool.and_comm, Bool.and_not_self]
    exact Bool.false_ne_true
  · rw [heq]
    exact fst_sweep_eq_countP ..

/-- The word that a range begins in, where the table finds it. -/
theorem locate_word (ht : t.regions = (ofLayout l maxBlockOps).regions)
    (hr : l.Shows addr length i r) (hfirst : l.Foremost i (physical (addr &&& 0xfffffffc)))
    (hlength : length ≠ 0) :
    t.locate (addr &&& 0xfffffffc) = some {
      first := l.firstSlot (l.canonical i)
      slots := l.slotsOf (l.canonical i)
      word := (l.seat i r (physical addr)).offset.toNat / 4 } := by
  obtain ⟨hword, -⟩ := hr.toNat_offset_word hlength
  have hslots : l.slotsOf (l.canonical i) = slotCount (l.behind i).length := if_pos hr.code
  rw [locate_of_foremost ht (hr.holds hlength) hr.code hfirst, place, hword, hslots]
  congr 2
  omega

/-- The code behind the slot spans a word of the region at position `index` in which one of the
`length` bytes from `offset` on lies. -/
def Touches (t : EntryTable) (l : Layout) (index offset length slot : Nat) : Prop :=
  ∃ word byte, slot = l.firstSlot index + word ∧ word < l.slotsOf index ∧
    offset ≤ byte ∧ byte < offset + length ∧
    word ≤ byte / 4 ∧ byte / 4 < word + t.spans.getD slot 0

/-- A range clears every slot whose span has a word of it, as far as the region has slots: the word is
marked, and the slot is not too far back for the sweep. -/
theorem Marked.clears (h : t.Marked) {p : SlotPosition}
    (hp : t.locate (addr &&& 0xfffffffc) = some p) (hlength : length ≠ 0) {first word : Nat}
    (hslot : slot = p.first + first) (hbegin : first ≤ word)
    (hend : word < first + t.spans.getD slot 0) (hfrom : p.word ≤ word)
    (hto : 4 * word < 4 * p.word + addr.toNat % 4 + length.toNat) (hslots : word < p.slots)
    (hsize : p.first + word < t.covered.size) : t.Clears addr length p slot := by
  have hle := h.le slot
  have hmark : t.covered.getD (slot + (word - first)) false = true :=
    h.covered slot _ (by omega) (by omega)
  refine ⟨hp, hlength, anyCovered_of_covered ?_ ?_ hmark, ?_, ?_, ?_⟩
  · omega
  · rw [stopWord, toNat_and_three]
    omega
  · omega
  · rw [stopWord, toNat_and_three]
    omega
  · rw [reaches, Bool.or_eq_true, decide_eq_true_eq, Bool.and_eq_true, bne_iff_ne,
      decide_eq_true_eq]
    rw [hslot, Nat.add_sub_cancel_left, ← hslot]
    omega

/-- Of the slots with an entry, a range clears those that it touches. -/
theorem clears_iff_touches (ht : Reached l maxBlockOps t) (hr : l.Shows addr length i r)
    (hfirst : l.Foremost i (physical (addr &&& 0xfffffffc))) (hload : t.load slot ≠ .null) :
    (∃ p, t.Clears addr length p slot) ↔
      t.Touches l (l.canonical i) (l.seat i r (physical addr)).offset.toNat length.toNat slot := by
  have hshape := ht.sameShape
  have hpos := ht.marked.pos slot hload
  have hcopy := hr.copy
  have hslots : l.slotsOf (l.canonical i) = ((l.behind i).length.toNat + 3) / 4 := if_pos hr.code
  constructor
  · rintro ⟨p, hp⟩
    have hlength : length.toNat ≠ 0 := fun hzero => hp.nonempty (UInt32.toNat_inj.mp hzero)
    obtain ⟨-, hmod⟩ := hr.toNat_offset_word hp.nonempty
    -- the range starts at the word of its first byte
    cases hp.located.symm.trans (locate_word hshape.regions hr hfirst hp.nonempty)
    have hreaches := hp.reaches
    have hscan := hp.first
    have hlast := hp.last
    rw [stopWord, toNat_and_three] at hlast
    rw [reaches, Bool.or_eq_true, decide_eq_true_eq, Bool.and_eq_true, bne_iff_ne,
      decide_eq_true_eq] at hreaches
    dsimp only at hreaches hscan hlast
    generalize (l.seat i r (physical addr)).offset.toNat = offset at *
    obtain ⟨word, rfl⟩ : ∃ word, slot = l.firstSlot (l.canonical i) + word :=
      ⟨slot - l.firstSlot (l.canonical i), by omega⟩
    rw [Nat.add_sub_cancel_left] at hreaches
    -- the first byte of the range that is not before the slot's word
    refine ⟨word, max offset (4 * word), rfl, by omega, by omega, by omega, by omega, by omega⟩
  · rintro ⟨word, byte, hslot, hword, hfrom, hto, hbegin, hend⟩
    have hlength : length ≠ 0 := by
      rintro rfl
      have hzero : (0 : UInt32).toNat = 0 := rfl
      omega
    obtain ⟨-, hmod⟩ := hr.toNat_offset_word hlength
    generalize hoffset : (l.seat i r (physical addr)).offset.toNat = offset at *
    have hlocated := locate_word hshape.regions hr hfirst hlength
    rw [hoffset] at hlocated
    have hsize : t.covered.size = l.firstSlot l.regions.size :=
      ht.marked.marks.trans (hshape.slots.trans (size_ofLayout l maxBlockOps))
    have hlt : l.firstSlot (l.canonical i) + byte / 4 < l.firstSlot l.regions.size :=
      Layout.firstSlot_add_lt (by omega)
    refine ⟨_, ht.marked.clears hlocated hlength hslot hbegin hend ?_ ?_ ?_ ?_⟩
    · dsimp only
      omega
    · dsimp only
      omega
    · dsimp only
      omega
    · dsimp only
      omega

/-- An invalidation that looks back over the window does what a look at every slot would do: it
clears the entries whose code spans a word of the range, leaves all others as they are, and says how
many it cleared. The range lies in one region, and it is the first with slots for the word that the
range begins in. -/
theorem invalidate_eq_scan (ht : Reached l maxBlockOps t) (hr : l.Shows addr length i r)
    (hfirst : l.Foremost i (physical (addr &&& 0xfffffffc))) :
    (∀ slot,
      t.Touches l (l.canonical i) (l.seat i r (physical addr)).offset.toNat length.toNat slot →
      (t.invalidate addr length).2.load slot = .null) ∧
    (∀ slot,
      ¬ t.Touches l (l.canonical i) (l.seat i r (physical addr)).offset.toNat length.toNat slot →
      (t.invalidate addr length).2.load slot = t.load slot) ∧
    (t.invalidate addr length).1 = (List.range t.size).countP fun slot =>
      !(t.load slot).isNull && ((t.invalidate addr length).2.load slot).isNull := by
  refine ⟨fun slot htouches => ?_, fun slot hnot => ?_, fst_invalidate t addr length⟩
  · by_cases hload : t.load slot = .null
    · rcases load_invalidate_cases t addr length slot with hnull | heq
      · exact hnull
      · exact heq.trans hload
    · obtain ⟨p, hp⟩ := (clears_iff_touches ht hr hfirst hload).mpr htouches
      exact load_invalidate_of_clears hp
  · by_cases hload : t.load slot = .null
    · rcases load_invalidate_cases t addr length slot with hnull | heq
      · exact hnull.trans hload.symm
      · exact heq
    · exact load_invalidate_of_not_clears fun p hp =>
        hnot ((clears_iff_touches ht hr hfirst hload).mp ⟨p, hp⟩)

/-- Sixteen words of memory and an alias that shows them twice. -/
def doubled : Layout where
  regions := #[
    { base := 0, length := 64, backing := .ram, code := true },
    { base := 0x100, length := 128, backing := .aliasOf 0, code := true }]
  valid := by decide

/-- A block of words 2 to 4 with an entry at word 3, behind a block of words 0 to 3. -/
def entered : EntryTable :=
  let t := (ofLayout doubled 16).store 0 .pending |>.noteSpan 0 4 true
  let t := (t.store 2 (.code 7 0)).noteSpan 2 3 true
  (t.store 3 (.code 7 1)).noteSpan 3 2 false

theorem reached_entered : Reached doubled 16 entered :=
  .step (.step (.step .start (.publish 0 .pending 4 true (by decide) (by decide)))
    (.publish 2 (.code 7 0) 3 true (by decide) (by decide)))
    (.publish 3 (.code 7 1) 2 false (by decide) (by decide))

/-- Two bytes in the second copy, the first of them in word 4: the block that ends there loses its
entries, the one that ends before it does not. -/
theorem invalidate_eq_scan_entered : Reached doubled 16 entered ∧
    (entered.invalidate 0x80000153 2).2.load 2 = .null ∧
    (entered.invalidate 0x80000153 2).2.load 0 = .pending := by
  have hr : doubled.Shows 0x80000153 2 1
      { base := 0x100, length := 128, backing := .aliasOf 0, code := true } :=
    ⟨rfl, rfl, by decide, by decide, by decide, by decide, by decide⟩
  have hapart : doubled.Apart := Layout.Apart.of_disjoint (by decide)
  obtain ⟨hclears, hkeeps, -⟩ := invalidate_eq_scan reached_entered hr
    (hr.foremost hapart (by decide))
  refine ⟨reached_entered, hclears 2 ⟨2, 19, by decide⟩, hkeeps 0 ?_⟩
  rintro ⟨word, byte, hslot, -, hfrom, -, -, hend⟩
  have hspan : entered.spans.getD 0 0 = 4 := by decide
  have hslots : doubled.firstSlot (doubled.canonical 1) = 0 := by decide
  have hoffset : (doubled.seat 1
      { base := 0x100, length := 128, backing := .aliasOf 0, code := true }
      (physical 0x80000153)).offset.toNat = 19 := by decide
  omega

/-- The first five bytes lie in two regions; only the first of them is found there. -/
def overlapping : Layout where
  regions := #[
    { base := 0, length := 5, backing := .ram, code := true },
    { base := 0, length := 16, backing := .ram, code := true },
    { base := 0x100, length := 16, backing := .aliasOf 1, code := true }]
  valid := by decide

/-- A block at the second word of the larger region, reached through the alias. -/
def shadowed : EntryTable :=
  (BlockCache.empty.register (ofLayout overlapping 16) 0
    { pc := 0x104, opCount := 1, words := [0], flags := {}, ops := none }).2

/-- A byte that lies in one region only, in a word that begins in another: the range is looked for
there, and the entry that it touches stays. -/
theorem invalidate_misses_overlapping :
    Reached overlapping 16 shadowed ∧ overlapping.isCode 1 = true ∧
    overlapping.Shows 5 1 1 { base := 0, length := 16, backing := .ram, code := true } ∧
    (∀ j r, overlapping.Holds j r (physical 5) → j = 1) ∧
    shadowed.Touches overlapping 1 5 1 3 ∧
    (shadowed.invalidate 5 1).1 = 0 ∧ (shadowed.invalidate 5 1).2.load 3 = .pending := by
  refine ⟨.step .start (.register _ _ _ (by decide) (by decide)), by decide, ?_, ?_,
    ⟨1, 5, by decide⟩, by decide, by decide⟩
  · exact .of_isCode rfl rfl (by decide) (by decide) (by decide)
  · intro j r hr
    have hall : ∀ j (hj : j < overlapping.regions.size),
        overlapping.regions[j].contains (physical 5) = true → j = 1 := by decide
    obtain ⟨hj, rfl⟩ := Array.getElem?_eq_some_iff.mp hr.region
    exact hall j hj hr.contains

end EntryTable

end Dynarec
