/-
  Dynarec.Proofs.Orderly

  Maps on which code can be found again.

  On an orderly map regions do not overlap and start at whole words, those that
  lead to code lie below the segments, and an alias shows whole copies of what
  is behind it. From an address that leads to code on, words have their slots
  one after the other, and a range that is invalidated under any of its names
  clears the entries whose code has a word of it. That goes as far as the
  region does: what lies behind its end is not found.
-/
import Dynarec.Proofs.Invalidation

namespace Dynarec

namespace Layout

variable {l : Layout} {addr pc : UInt32} {r : Resolved}

/-- Regions that do not overlap and start at whole words. Those that lead to code lie below the
segments, and aliases among them show whole copies of the memory behind, in whole words. -/
structure Orderly (l : Layout) : Prop where
  apart : l.Apart
  aligned : ∀ {i : Nat} {s : Region}, l.regions[i]? = some s → s.base.toNat % 4 = 0
  low : ∀ {i : Nat} {s : Region}, l.regions[i]? = some s → l.isCode (l.canonical i) = true →
    s.base.toNat + s.length.toNat ≤ 0x20000000
  copies : ∀ {i : Nat} {s : Region}, l.regions[i]? = some s → l.isCode (l.canonical i) = true →
    s.isAlias = true →
      (l.behind i).length.toNat % 4 = 0 ∧ (l.behind i).length.toNat ∣ s.length.toNat

/-- A map without aliases is orderly if code lies below the segments. -/
theorem Plain.orderly (hl : l.Plain) (hlow : ∀ {i s}, l.regions[i]? = some s → l.isCode i = true →
      s.base.toNat + s.length.toNat ≤ 0x20000000) : l.Orderly where
  apart := hl.apart
  aligned := hl.aligned
  low hs hcode := hlow hs (canonical_of_not_isAlias hs (hl.own hs) ▸ hcode)
  copies hs _ halias := by
    rw [hl.own hs] at halias
    cases halias

/-- The regions of a map that has two. -/
theorem eq_of_pair {a b s : Region} (h : l.regions = #[a, b]) {i : Nat}
    (hs : l.regions[i]? = some s) : i = 0 ∧ s = a ∨ i = 1 ∧ s = b := by
  rw [h] at hs
  obtain ⟨hi, rfl⟩ := Array.getElem?_eq_some_iff.mp hs
  have htwo : i < 2 := hi
  obtain rfl | rfl : i = 0 ∨ i = 1 := by omega
  · exact .inl ⟨rfl, rfl⟩
  · exact .inr ⟨rfl, rfl⟩

theorem Apart.of_pair {a b : Region} (h : l.regions = #[a, b])
    (hends : a.base.toNat + a.length.toNat ≤ b.base.toNat) : l.Apart := by
  intro i j r s paddr hi hj
  have hr := Region.contains_iff.mp hi.contains
  have hs := Region.contains_iff.mp hj.contains
  rcases eq_of_pair h hi.region with ⟨rfl, rfl⟩ | ⟨rfl, rfl⟩ <;>
    rcases eq_of_pair h hj.region with ⟨rfl, rfl⟩ | ⟨rfl, rfl⟩ <;> omega

theorem behind_of_not_isAlias {i : Nat} {s : Region} (hs : l.regions[i]? = some s)
    (hown : s.isAlias = false) : l.behind i = s := by
  rw [behind, canonical_of_not_isAlias hs hown, Array.getD_eq_getD_getElem?, hs, Option.getD_some]

namespace Orderly

/-- Where a copy of the memory behind goes on, so does the region that shows it. -/
theorem copy_le (hl : l.Orderly) {i : Nat} {s : Region} (hs : l.regions[i]? = some s)
    (hcode : l.isCode (l.canonical i) = true) {x n : Nat} (hx : x < s.length.toNat)
    (hn : x % (l.behind i).length.toNat + n ≤ (l.behind i).length.toNat) :
    x + n ≤ s.length.toNat := by
  cases halias : s.isAlias with
  | false =>
    rw [behind_of_not_isAlias hs halias, Nat.mod_eq_of_lt hx] at hn
    exact hn
  | true =>
    obtain ⟨copies, hcopies⟩ := (hl.copies hs hcode halias).2
    have hdiv := Nat.div_add_mod x (l.behind i).length.toNat
    -- the copy that `x` lies in is one of the copies there are
    have hlt : x / (l.behind i).length.toNat < copies := by
      refine Nat.div_lt_of_lt_mul ?_
      rwa [← hcopies]
    have hle := Nat.mul_le_mul_left (l.behind i).length.toNat (Nat.succ_le_of_lt hlt)
    rw [Nat.mul_succ, ← hcopies] at hle
    omega

/-- An address that leads to code lies in a region that shows it. -/
theorem shows (hl : l.Orderly) (h : l.resolve addr = .ok r) (hcode : l.isCode r.index = true) :
    ∃ i s, l.Shows addr 1 i s ∧ l.canonical i = r.index ∧ l.seat i s (physical addr) = r := by
  obtain ⟨i, s, hs, rfl⟩ := holds_of_resolve h
  obtain ⟨habove, hbelow⟩ := Region.contains_iff.mp hs.contains
  have hcode : l.isCode (l.canonical i) = true := hcode
  obtain ⟨hoffset, -⟩ := offset_lt h hcode
  have hone : (1 : UInt32).toNat = 1 := rfl
  refine ⟨i, s, ⟨hs.region, hcode, hl.aligned hs.region, habove, by omega, ?_, ?_⟩, rfl, rfl⟩
  · cases halias : s.isAlias with
    | false => exact .inl (Nat.le_of_eq (by rw [behind_of_not_isAlias hs.region halias]))
    | true => exact .inr (hl.copies hs.region hcode halias).1
  · rw [hone]
    exact hoffset

/-- Whole words are found as whole words. -/
theorem offset_mod_four (hl : l.Orderly) (h : l.resolve addr = .ok r)
    (hcode : l.isCode r.index = true) : r.offset.toNat % 4 = addr.toNat % 4 := by
  obtain ⟨i, s, hs, -, rfl⟩ := hl.shows h hcode
  exact (hs.toNat_offset_word (by decide)).2

/-- Behind an address that leads to code the memory goes on under the same name. -/
theorem resolve_add (hl : l.Orderly) (h : l.resolve pc = .ok r) (hcode : l.isCode r.index = true)
    {n : UInt32}
    (hfits : r.offset.toNat + n.toNat < (l.regions.getD r.index default).length.toNat) :
    physical (pc + n) = physical pc + n ∧
      ∃ r', l.resolve (pc + n) = .ok r' ∧ r'.index = r.index ∧
        r'.offset.toNat = r.offset.toNat + n.toNat := by
  obtain ⟨i, s, hs, rfl⟩ := holds_of_resolve h
  have hcode : l.isCode (l.canonical i) = true := hcode
  have hfits : (l.seat i s (physical pc)).offset.toNat + n.toNat < (l.behind i).length.toNat :=
    hfits
  obtain ⟨habove, hbelow⟩ := Region.contains_iff.mp hs.contains
  have hlow := hl.low hs.region hcode
  rw [toNat_offset_seat habove] at hfits
  have hinside := hl.copy_le hs.region hcode (x := (physical pc).toNat - s.base.toNat)
    (n := n.toNat + 1) (by omega) (by omega)
  have hphysical := @physical_add pc n (by omega)
  have hsum : (physical (pc + n)).toNat = (physical pc).toNat + n.toNat := by
    rw [hphysical, UInt32.toNat_add]
    exact Nat.mod_eq_of_lt (by omega)
  have hholds : l.Holds i s (physical (pc + n)) :=
    ⟨hs.region, Region.contains_iff.mpr ⟨by omega, by omega⟩⟩
  refine ⟨hphysical, _, Apart.resolve hl.apart hholds, rfl, ?_⟩
  rw [toNat_offset_seat (by omega), toNat_offset_seat habove, hsum, Nat.sub_add_comm habove]
  -- the sum stays in the copy that the address is in
  generalize (physical pc).toNat - s.base.toNat = x at hfits ⊢
  generalize (l.behind i).length.toNat = length at hfits ⊢
  have hdiv := Nat.div_add_mod x length
  rw [show x + n.toNat = x % length + n.toNat + length * (x / length) by omega,
    Nat.add_mul_mod_self_left, Nat.mod_eq_of_lt hfits]

end Orderly

/-- The word around an offset. -/
theorem toNat_div_mul_four (offset : UInt32) : (offset / 4 * 4).toNat = offset.toNat / 4 * 4 := by
  have hlt := offset.toNat_lt
  have hfour : (4 : UInt32).toNat = 4 := rfl
  rw [UInt32.toNat_mul, UInt32.toNat_div, hfour]
  omega

/-- Byte `k` of the region at position `i` is one of the `n` bytes that `addr` names. -/
def Names (l : Layout) (addr : UInt32) (n i k : Nat) : Prop :=
  ∃ r, l.resolve addr = .ok r ∧ Memory.range r.index r.offset.toNat n i k

/-- Addresses `p` and `q` lead into the region at position `i`, but are not as far apart as the
words that they lead to. -/
def Aliased (l : Layout) (p q : UInt32) (i : Nat) : Prop :=
  ∃ r s, l.resolve p = .ok r ∧ l.resolve q = .ok s ∧ r.index = i ∧ s.index = i ∧
    physical p + s.offset / 4 * 4 ≠ physical q + r.offset / 4 * 4

/-- Addresses of `start` lead into the region at position `i` under one name. -/
def OneName (l : Layout) (start : UInt32 → Prop) (i : Nat) : Prop :=
  ∀ {p q : UInt32}, start p → start q → ¬ l.Aliased p q i

/-- Without aliases every region has one name. -/
theorem Plain.oneName (hl : l.Plain) {start : UInt32 → Prop}
    (haligned : ∀ pc, start pc → pc.toNat % 4 = 0) (i : Nat) : l.OneName start i := by
  rintro p q hp hq ⟨r, s, hr, hs, hri, hsi, hne⟩
  obtain ⟨a, -, hgeta, -, haddr, -⟩ := hl.holds hr
  obtain ⟨b, -, hgetb, -, haddr', -⟩ := hl.holds hs
  rw [hri] at hgeta
  rw [hsi, hgeta] at hgetb
  subst hgetb
  have hmod := hl.offset_mod_four hr
  have hmod' := hl.offset_mod_four hs
  rw [haligned p hp] at hmod
  rw [haligned q hq] at hmod'
  refine hne ?_
  rw [← UInt32.toNat_inj, UInt32.toNat_add, UInt32.toNat_add, toNat_div_mul_four,
    toNat_div_mul_four]
  omega

end Layout

namespace EntryTable

open Layout (Orderly)

variable {l : Layout} {t : EntryTable} {maxBlockOps : Nat} {addr pc : UInt32} {r : Resolved}

/-- From an address on, the words of its region have their slots one after the other. -/
theorem index?_physical_add (hl : l.Orderly) (ht : t.regions = (ofLayout l maxBlockOps).regions)
    (h : l.resolve pc = .ok r) (hcode : l.isCode r.index = true) {n : UInt32}
    (hfits : r.offset.toNat + n.toNat < (l.regions.getD r.index default).length.toNat) :
    t.index? (physical pc + n) =
      some (l.firstSlot r.index + (r.offset.toNat + n.toNat) / 4) := by
  obtain ⟨hphysical, r', hr', hindex, hoffset⟩ := hl.resolve_add h hcode hfits
  rw [← hphysical, index?_physical]
  refine (index?_eq_some_iff hl.apart ht).mpr ⟨r', hr', by rwa [hindex], ?_⟩
  rw [hindex, hoffset]

/-- An invalidation clears the entries whose code has a word with one of the bytes named. -/
theorem load_invalidate_of_names (hl : l.Orderly) (ht : (ofLayout l maxBlockOps).SameShape t)
    (hm : t.Marked) {length : UInt32} {i k first slot : Nat} (h : l.Names addr length.toNat i k)
    (hcode : l.isCode i = true) (hslot : slot = l.firstSlot i + first) (hbegin : first ≤ k / 4)
    (hend : k / 4 < first + t.spans.getD slot 0) (hlast : k / 4 < l.slotsOf i) :
    (t.invalidate addr length).2.load slot = .null := by
  obtain ⟨r, hr, rfl, hfrom, hto⟩ := h
  obtain ⟨j, s, hshows, hcanonical, hseat⟩ := hl.shows hr hcode
  have hone : (1 : UInt32) ≠ 0 := by decide
  have hlocated := locate_word ht.regions hshows (hshows.foremost hl.apart hone) hone
  rw [hcanonical, hseat] at hlocated
  have hlength : length ≠ 0 := by
    rintro rfl
    have hzero : (0 : UInt32).toNat = 0 := rfl
    omega
  have hsize : t.covered.size = l.firstSlot l.regions.size :=
    hm.marks.trans (ht.slots.trans (size_ofLayout l maxBlockOps))
  have hlt := Layout.firstSlot_add_lt hlast
  have hmod := hl.offset_mod_four hr hcode
  refine load_invalidate_of_clears
    (hm.clears hlocated hlength hslot hbegin hend ?_ ?_ hlast ?_)
  · dsimp only
    omega
  · dsimp only
    omega
  · dsimp only
    omega

end EntryTable

/-! ## Writes of the host -/

namespace HostWrite

variable {δ : Type} (w : HostWrite) (l : Layout)

/-- Byte `k` of the region at position `i` is written. Words are found one by one. -/
def Writes (i k : Nat) : Prop :=
  match w with
  | words addr values => ∃ n < values.length, l.Names (addr + n.toUInt32 * 4) 4 i k
  | w => l.Names w.addr w.length i k

/-- Byte `k` of the region at position `i` is written although it is not one of those that follow
the first one in its region. -/
def Strays (i k : Nat) : Prop := w.Writes l i k ∧ ¬ l.Names w.addr w.length.toUInt32.toNat i k

theorem sameExcept_of_locate {m : Memory δ} {addr : UInt32} {n index offset : Nat}
    (h : m.locate addr n = .ok (index, offset)) {f : ByteArray → ByteArray}
    (hf : Bytes.Local f offset n) :
    m.SameExcept (m.layout.Names addr n) (m.modifyBytes index f) := by
  obtain ⟨r, data, hr, -, rfl, rfl, -⟩ := Memory.locate_ok h
  exact (m.sameExcept_modifyBytes r.index hf).mono fun hrange => ⟨r, hr, hrange⟩

theorem sameExcept_writeWord_names (m : Memory δ) (addr value : UInt32) :
    m.SameExcept (m.layout.Names addr 4) (m.writeWord addr value).2 := by
  unfold Memory.writeWord
  cases h : m.locate addr 4 with
  | error f => exact .refl _ m
  | ok place => exact sameExcept_of_locate h (Bytes.local_setWord place.2 value)

theorem sameExcept_writeWords (m : Memory δ) (addr : UInt32) (values : List UInt32) :
    m.SameExcept (fun i k => ∃ n < values.length, m.layout.Names (addr + n.toUInt32 * 4) 4 i k)
      (m.writeWords addr values).2 := by
  induction values generalizing m addr with
  | nil => exact .refl _ m
  | cons value values ih =>
    have hfirst : m.SameExcept
        (fun i k => ∃ n < values.length + 1, m.layout.Names (addr + n.toUInt32 * 4) 4 i k)
        (m.writeWord addr value).2 :=
      (sameExcept_writeWord_names m addr value).mono fun h =>
        ⟨0, Nat.succ_pos _, by rwa [show addr + Nat.toUInt32 0 * 4 = addr from UInt32.add_zero _]⟩
    unfold Memory.writeWords
    generalize m.writeWord addr value = answer at hfirst ⊢
    obtain ⟨fault, m'⟩ := answer
    cases fault with
    | some f => exact hfirst
    | none =>
      refine hfirst.trans ((ih m' (addr + 4)).mono ?_)
      rintro i k ⟨n, hn, hnames⟩
      refine ⟨n + 1, Nat.succ_lt_succ hn, ?_⟩
      rw [hfirst.layout] at hnames
      have hnext : addr + (n + 1).toUInt32 * 4 = addr + 4 + n.toUInt32 * 4 := by
        rw [show (n + 1).toUInt32 = n.toUInt32 + 1 by simp [Nat.toUInt32], UInt32.add_mul,
          UInt32.add_comm (n.toUInt32 * 4), ← UInt32.add_assoc]
        rfl
      rwa [hnext]

/-- A write changes what it is said to write, and nothing else. -/
theorem sameExcept_apply_writes (m : Memory δ) :
    m.SameExcept (w.Writes m.layout) (w.apply m).2 := by
  cases w with
  | bytes addr src =>
    show m.SameExcept (m.layout.Names addr src.size) (m.writeBytes addr src).2
    unfold Memory.writeBytes
    cases h : m.locate addr src.size with
    | error f => exact .refl _ m
    | ok place => exact sameExcept_of_locate h (Bytes.local_copy src src.size 0 place.2)
  | word addr value => exact sameExcept_writeWord_names m addr value
  | words addr values => exact sameExcept_writeWords m addr values
  | fill addr length value =>
    show m.SameExcept (m.layout.Names addr length) (m.fillBytes addr length value).2
    unfold Memory.fillBytes
    cases h : m.locate addr length with
    | error f => exact .refl _ m
    | ok place => exact sameExcept_of_locate h (Bytes.local_fill value length place.2)

end HostWrite

end Dynarec
