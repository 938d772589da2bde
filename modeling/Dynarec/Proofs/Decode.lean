/-
  Dynarec.Proofs.Decode

  Where blocks end.

  The words behind an address go on to the end of their region. A block takes
  them up to the first that stops it, which is the first system call, the
  first unconditional jump or the last one within the limit, and the delay slot
  of that word if there is one. `collect_cut` says so of the loop that collects
  a block, by induction on the words left; decoding fails only where there is no
  word to start with.
-/
import Dynarec.Proofs.Aliases
import Dynarec.Proofs.Program

namespace Dynarec

variable {δ : Type}

/-! ## The words of a region -/

theorem Bytes.size_zeros (n : Nat) : (zeros n).size = n := by
  induction n using zeros.induct with
  | case1 =>
    rw [zeros, dif_pos rfl]
    rfl
  | case2 n hn heven ih =>
    rw [zeros, dif_neg hn]
    dsimp only
    rw [if_pos heven, ByteArray.size_append, ih]
    omega
  | case3 n hn hodd ih =>
    rw [zeros, dif_neg hn]
    dsimp only
    rw [if_neg hodd, ByteArray.size_push, ByteArray.size_append, ih]
    omega

namespace Memory

variable {m : Memory δ} {r : Resolved}

/-- What is memory on the map is memory, of the same size. -/
def Backed (m : Memory δ) : Prop :=
  ∀ ⦃i : Nat⦄ ⦃s : Region⦄, m.layout.regions[i]? = some s → s.isDirect = true →
    ∃ data, m.bytes? i = some data ∧ data.size = s.length.toNat

/-- Memory that was made of a list of regions is as large as they say. -/
theorem backed_of_ofRegions {specs : Array (RegionSpec δ)} (h : ofRegions specs = .ok m) :
    m.Backed := by
  unfold ofRegions at h
  split at h
  · cases h
  · rename_i layout hlayout
    cases h
    intro i s hs hdirect
    have hregions : layout.regions = specs.map (·.region) := by
      unfold Layout.ofRegions at hlayout
      split at hlayout
      · cases hlayout
        rfl
      · cases hlayout
    rw [hregions, Array.getElem?_map] at hs
    obtain ⟨spec, hspec, rfl⟩ := Option.map_eq_some_iff.mp hs
    have hcontents : ∃ data, spec.contents = .bytes data ∧ data.size = spec.region.length.toNat := by
      unfold RegionSpec.contents
      unfold Region.isDirect at hdirect
      cases hbacking : spec.region.backing with
      | ram | rom => exact ⟨_, rfl, (Bytes.size_copy _ _ _ _ _).trans (Bytes.size_zeros _)⟩
      | device | aliasOf =>
        rw [hbacking] at hdirect
        cases hdirect
    obtain ⟨data, hdata, hsize⟩ := hcontents
    refine ⟨data, ?_, hsize⟩
    rw [bytes?, Array.getElem?_map, hspec, Option.map_some, hdata]

/-- Number of whole words that the region behind `r` has left, from the word at `r` on. -/
def wordsLeft (m : Memory δ) (r : Resolved) : Nat :=
  ((m.layout.regions.getD r.index default).length.toNat - r.offset.toNat / 4 * 4) / 4

/-- The word of the region behind `r` that stands `i` words behind the one at `r`. -/
def wordFrom (m : Memory δ) (r : Resolved) (i : Nat) : UInt32 :=
  Bytes.wordAt ((m.bytes? r.index).getD ByteArray.empty) (r.offset.toNat / 4 * 4 + 4 * i)

/-- What is no device is memory. -/
theorem Backed.bytes (hm : m.Backed) {pc : UInt32} (hr : m.layout.resolve pc = .ok r)
    (hkind : r.kind = .direct) :
    ∃ data, m.bytes? r.index = some data ∧
      m.wordsLeft r = (data.size - r.offset.toNat / 4 * 4) / 4 ∧
      m.wordFrom r = fun i => Bytes.wordAt data (r.offset.toNat / 4 * 4 + 4 * i) := by
  obtain ⟨s, hs, halias, -, -, hbacking⟩ := Layout.inside_of_resolve hr
  have hdirect : s.isDirect = true := by
    rw [hbacking] at hkind
    unfold Region.isAlias at halias
    unfold Region.isDirect
    cases hb : s.backing with
    | ram | rom => rfl
    | device =>
      rw [hb] at hkind
      cases hkind
    | aliasOf target =>
      rw [hb] at halias
      cases halias
  obtain ⟨data, hdata, hsize⟩ := hm hs hdirect
  refine ⟨data, hdata, ?_, ?_⟩
  · rw [wordsLeft, Array.getD_eq_getD_getElem?, hs, Option.getD_some, hsize]
  · funext i
    rw [wordFrom, hdata, Option.getD_some]

end Memory

namespace Block

/-! ## The rule -/

/-- A block with at most `limit` instructions, a last delay slot apart, goes no further than the word
at `k`, unless for the delay slot of that word. -/
def Stops (word : Nat → UInt32) (limit k : Nat) : Prop :=
  Instruction.isSyscall { word := word k } = true ∨
    Instruction.isUnconditionalJump { word := word k } = true ∨ k + 1 = limit

/-- Number of instructions of a block that stops with `i` at position `last`, where there are `count`
words in all. -/
def cutLength (i : Instruction) (last count : Nat) : Nat :=
  if i.isSyscall || !i.hasDelaySlot then last + 1 else min (last + 2) count

/-- A block of `length` out of `count` words is cut at the first word that stops it. -/
structure Cut (word : Nat → UInt32) (count limit last length : Nat) : Prop where
  stops : Stops word limit last
  first : ∀ j < last, ¬ Stops word limit j
  length : length = cutLength { word := word last } last count

namespace Cut

variable {word word' : Nat → UInt32} {count count' limit limit' last last' length length' : Nat}

variable (h : Cut word count limit last length)
include h

/-- The limit stops a block. -/
theorem last_lt (hlimit : 0 < limit) : last < limit := by
  refine Nat.lt_of_not_le fun hle => h.first (limit - 1) (by omega) (.inr (.inr ?_))
  omega

theorem last_lt_length (hlimit : 0 < limit) (hcount : limit ≤ count) : last < length := by
  have hlast := h.last_lt hlimit
  rw [h.length, cutLength]
  split
  · omega
  · omega

theorem length_le (hlimit : 0 < limit) (hcount : limit ≤ count) :
    length ≤ limit + 1 ∧ length ≤ count := by
  have hlast := h.last_lt hlimit
  rw [h.length, cutLength]
  split
  · omega
  · omega

/-- A branch that stops a block keeps its delay slot, unless there is none. -/
theorem slot (hlimit : 0 < limit) (hcount : limit ≤ count)
    (hslot : Instruction.hasDelaySlot { word := word last } = true) :
    length = last + 2 ∨ (length = last + 1 ∧ count = last + 1) := by
  have hlast := h.last_lt hlimit
  have hsyscall : Instruction.isSyscall { word := word last } = false := by
    refine Bool.eq_false_iff.mpr fun hsyscall => ?_
    rw [Instruction.hasDelaySlot_of_isSyscall hsyscall] at hslot
    cases hslot
  rw [h.length, cutLength, if_neg (by simp [hslot, hsyscall])]
  omega

/-- Where the words of a block stand again, with as much room for it, a block is not cut before. -/
theorem length_le_of_same
    (h' : Cut word' count' limit' last' length') (hlimit : 0 < limit) (hcount : limit ≤ count)
    (hword : ∀ i < length, word' i = word i) (hlimit' : length ≤ limit') (hcount' : limit' ≤ count') :
    length ≤ length' := by
  have hlast := h.last_lt_length hlimit hcount
  refine Nat.le_of_not_lt fun hlt => ?_
  have hlast' : last' < length' := h'.last_lt_length (by omega) hcount'
  have hsame := hword last' (by omega)
  -- the limit is not what stops the second block
  have hstops : Stops word limit last' := by
    rcases h'.stops with hsyscall | hjump | hlimit'
    · exact .inl (hsame ▸ hsyscall)
    · exact .inr (.inl (hsame ▸ hjump))
    · omega
  have hle : last ≤ last' := Nat.le_of_not_lt fun hbefore => h.first last' hbefore hstops
  -- both stop with the same word, which has a delay slot in the one and not in the other
  have hlength := h.length
  have hlength' := h'.length
  unfold cutLength at hlength hlength'
  split at hlength
  · omega
  · rename_i hkeeps
    have heq : last' = last := by omega
    rw [heq, hword last hlast, if_neg hkeeps] at hlength'
    omega

end Cut

/-! ## Collecting -/

section Collect

variable {data : ByteArray} {start limit left index : Nat} {ops : Array Op}

/-- Where a block stops, the delay slot of its last word is all that is still taken. -/
theorem toList_collect_of_stops
    (h : Stops (fun i => Bytes.wordAt data (start + 4 * i)) limit index) :
    (collect data start limit (left + 1) index ops).toList = ops.toList ++
      fetched data start index
        (cutLength { word := Bytes.wordAt data (start + 4 * index) } index (index + (left + 1)) -
          index) := by
  have hone : (ops.push (Op.ofWord (Bytes.wordAt data (start + 4 * index)))).toList =
      ops.toList ++ fetched data start index 1 := by
    simp [fetched]
  have hinstr : ({ word := Bytes.wordAt data (start + 4 * index) } : Instruction) =
      (Op.ofWord (Bytes.wordAt data (start + 4 * index))).instr := rfl
  unfold Stops at h
  unfold collect
  dsimp only at h ⊢
  rw [hinstr] at h ⊢
  split
  · rename_i hsyscall
    rw [hone, cutLength, hsyscall, Bool.true_or, if_pos rfl, Nat.add_sub_cancel_left]
  · rename_i hsyscall
    split
    · rename_i hjump
      have hslot : (Op.ofWord (Bytes.wordAt data (start + 4 * index))).instr.hasDelaySlot = true := by
        rcases Bool.or_eq_true_iff.mp hjump with hjump | hlast
        · exact Instruction.hasDelaySlot_of_isUnconditionalJump hjump
        · exact (Bool.and_eq_true_iff.mp hlast).2
      have hlength : cutLength (Op.ofWord (Bytes.wordAt data (start + 4 * index))).instr index
          (index + (left + 1)) = min (index + 2) (index + (left + 1)) := by
        rw [cutLength, if_neg (by simp [hsyscall, hslot])]
      rw [hlength]
      split
      · rename_i hleft
        rw [hone, show min (index + 2) (index + (left + 1)) - index = 1 by omega]
      · rename_i hleft
        rw [Array.toList_push, hone, show min (index + 2) (index + (left + 1)) - index = 2 by omega,
          List.append_assoc]
        simp [fetched, List.range'_succ]
    · rename_i hjump
      -- the block stops for its length, with a word that has no delay slot
      simp only [Bool.or_eq_true, Bool.and_eq_true, decide_eq_true_eq, not_or, not_and,
        Bool.not_eq_true] at hjump
      have hlast : index + 1 = limit := by
        rcases h with h | h | h
        · exact absurd h hsyscall
        · exact absurd h (Bool.eq_false_iff.mp hjump.1)
        · exact h
      rw [if_pos (decide_eq_true (Nat.le_of_eq hlast.symm)), hone, cutLength,
        hjump.2 (Nat.le_of_eq hlast.symm), Bool.not_false, Bool.or_true, if_pos rfl,
        Nat.add_sub_cancel_left]

/-- Where a block does not stop, it goes on with the next word. -/
theorem collect_of_not_stops (hindex : index < limit)
    (h : ¬ Stops (fun i => Bytes.wordAt data (start + 4 * i)) limit index) :
    collect data start limit (left + 1) index ops =
      collect data start limit left (index + 1)
        (ops.push (Op.ofWord (Bytes.wordAt data (start + 4 * index)))) := by
  have hinstr : ({ word := Bytes.wordAt data (start + 4 * index) } : Instruction) =
      (Op.ofWord (Bytes.wordAt data (start + 4 * index))).instr := rfl
  simp only [Stops, not_or, hinstr] at h
  obtain ⟨hsyscall, hjump, hlimit⟩ := h
  have hlast : ¬ limit ≤ index + 1 := by omega
  rw [collect, if_neg hsyscall, if_neg, if_neg (by simpa using hlast)]
  rintro hends
  rcases Bool.or_eq_true_iff.mp hends with hends | hends
  · exact hjump hends
  · exact hlast (of_decide_eq_true (Bool.and_eq_true_iff.mp hends).1)

end Collect

/-- The loop takes the words up to the first that stops the block, and its delay slot. -/
theorem collect_cut (data : ByteArray) (start limit left index : Nat) (ops : Array Op)
    (hindex : index < limit) (hlimit : limit ≤ index + left) :
    ∃ last, index ≤ last ∧ Stops (fun i => Bytes.wordAt data (start + 4 * i)) limit last ∧
      (∀ j < last, index ≤ j → ¬ Stops (fun i => Bytes.wordAt data (start + 4 * i)) limit j) ∧
      (collect data start limit left index ops).toList = ops.toList ++
        fetched data start index
          (cutLength { word := Bytes.wordAt data (start + 4 * last) } last (index + left) - index) := by
  induction left generalizing index ops with
  | zero => omega
  | succ left ih =>
    -- by the words that are left: the first one stops the block, or another one does
    by_cases hstops : Stops (fun i => Bytes.wordAt data (start + 4 * i)) limit index
    · exact ⟨index, Nat.le_refl _, hstops, fun j hj hle => absurd hj (Nat.not_lt.mpr hle),
        toList_collect_of_stops hstops⟩
    · have hnext : index + 1 ≠ limit := fun h => hstops (.inr (.inr h))
      obtain ⟨last, hle, hlast, hfirst, hops⟩ := ih (index + 1)
        (ops.push (Op.ofWord (Bytes.wordAt data (start + 4 * index)))) (by omega) (by omega)
      refine ⟨last, by omega, hlast, fun j hj hfrom => ?_, ?_⟩
      · rcases Nat.lt_or_eq_of_le hfrom with hlt | rfl
        · exact hfirst j hj hlt
        · exact hstops
      · rw [collect_of_not_stops hindex hstops, hops, Nat.add_right_comm index 1 left]
        have hmore : index + 1 ≤
            cutLength { word := Bytes.wordAt data (start + 4 * last) } last (index + left + 1) := by
          unfold cutLength
          split
          · omega
          · omega
        rw [Nat.add_assoc index left 1] at hmore ⊢
        generalize cutLength { word := Bytes.wordAt data (start + 4 * last) } last
          (index + (left + 1)) = length at hmore ⊢
        obtain ⟨n, rfl⟩ := Nat.exists_eq_add_of_le hmore
        rw [show index + 1 + n - index = n + 1 by omega, Nat.add_sub_cancel_left,
          fetched_succ data start index n, Array.toList_push, List.append_assoc]
        rfl

/-- Decoding cuts a block out of the bytes behind an address. -/
theorem exists_cut_of_bytes {m : Memory δ} {pc : UInt32} {r : Resolved} {data : ByteArray}
    (hr : m.layout.resolve pc = .ok r) (hkind : r.kind = .direct)
    (hdata : m.bytes? r.index = some data) (hfits : r.offset.toNat / 4 * 4 + 4 ≤ data.size)
    (maxOps : Nat) :
    ∃ last length,
      Cut (fun i => Bytes.wordAt data (r.offset.toNat / 4 * 4 + 4 * i))
        ((data.size - r.offset.toNat / 4 * 4) / 4)
        (min ((data.size - r.offset.toNat / 4 * 4) / 4) (max maxOps 2)) last length ∧
      decode m pc maxOps =
        .ok (fetched data (r.offset.toNat / 4 * 4) 0 length).toArray := by
  generalize hstart : r.offset.toNat / 4 * 4 = start at hfits ⊢
  generalize hcount : (data.size - start) / 4 = count
  obtain ⟨last, -, hstops, hfirst, hops⟩ := collect_cut data start (min count (max maxOps 2)) count 0 #[]
    (by omega) (by omega)
  refine ⟨last, _, ⟨hstops, fun j hj => hfirst j hj (Nat.zero_le j), rfl⟩,
    decode_eq_ok_iff.mpr ⟨r, data, hr, by rw [hkind]; decide, hdata, hstart ▸ hfits, ?_⟩⟩
  rw [hstart, hcount]
  apply Array.toList_inj.mp
  rw [hops, Array.toList_empty, List.nil_append, Nat.zero_add, Nat.sub_zero]

/-- A block whose words stand in memory can be decoded again with its own length as the limit. It is
what the block found there starts with, whatever stands behind it now. -/
theorem decode_again_of_supplies {m m' : Memory δ} {pc : UInt32} {maxOps : Nat} {ops : Array Op}
    (h : decode m pc maxOps = .ok ops) {r : Resolved} {data : ByteArray}
    (hs : m'.Supplies pc (opWords ops) r data) :
    ∃ again, decode m' pc ops.size = .ok again ∧ again.extract 0 ops.size = ops := by
  obtain ⟨r0, data0, hr0, hkind0, hdata0, hfits0, -⟩ := decode_eq_ok_iff.mp h
  have hdirect0 : r0.kind = .direct := by
    cases hk : r0.kind with
    | direct => rfl
    | device => exact absurd hk hkind0
  obtain ⟨last0, length0, hcut0, hdecode0⟩ :=
    exists_cut_of_bytes hr0 hdirect0 hdata0 hfits0 maxOps
  cases h.symm.trans hdecode0
  have hsize : (fetched data0 (r0.offset.toNat / 4 * 4) 0 length0).toArray.size = length0 := by
    rw [List.size_toArray, fetched, List.length_map, List.length_range']
  have hpos : 0 < length0 := Nat.lt_of_le_of_lt (Nat.zero_le last0)
    (hcut0.last_lt_length (by omega) (by omega))
  have hfits := hs.fits
  rw [length_opWords, hsize] at hfits
  -- the same words, wherever they stand now
  have hword : ∀ i < length0, Bytes.wordAt data (r.offset.toNat / 4 * 4 + 4 * i) =
      Bytes.wordAt data0 (r0.offset.toNat / 4 * 4 + 4 * i) := by
    intro i hi
    have hget := hs.word (by rw [length_opWords, hsize]; exact hi)
    simpa [opWords, fetched, hi, Op.ofWord, eq_comm] using hget
  obtain ⟨last, length, hcut, hdecode⟩ :=
    exists_cut_of_bytes hs.resolves hs.direct hs.bytes (by omega) length0
  -- the first stop is the same, or the limit is reached before it
  have hle : length0 ≤ length :=
    hcut0.length_le_of_same hcut (by omega) (by omega) hword (by omega) (by omega)
  rw [hsize]
  refine ⟨_, hdecode, ?_⟩
  apply Array.toList_inj.mp
  rw [Array.toList_extract, List.extract_eq_take_drop, List.drop_zero, Nat.sub_zero,
    List.toList_toArray, List.toList_toArray, fetched, fetched, ← List.map_take, ← List.range_eq_range',
    ← List.range_eq_range', List.take_range, Nat.min_eq_left hle]
  refine List.map_congr_left fun i hi => ?_
  rw [hword i (by simpa using hi)]

/-- Blocks end where the rule says. -/
theorem decode_cuts_at_first_stop {m : Memory δ} (hm : m.Backed) (pc : UInt32) (maxOps : Nat) :
    ((∃ fault, decode m pc maxOps = .error fault) ↔
      (∀ r, m.layout.resolve pc = .ok r → r.kind ≠ .direct) ∨
        ∃ r, m.layout.resolve pc = .ok r ∧ r.kind = .direct ∧ m.wordsLeft r = 0) ∧
    ∀ {r : Resolved}, m.layout.resolve pc = .ok r → r.kind = .direct → 0 < m.wordsLeft r →
      ∃ last length,
        Cut (m.wordFrom r) (m.wordsLeft r) (min (m.wordsLeft r) (max maxOps 2)) last length ∧
        decode m pc maxOps =
          .ok ((List.range length).map fun i => Op.ofWord (m.wordFrom r i)).toArray ∧
        1 ≤ length ∧ length ≤ max maxOps 2 + 1 ∧
        (Instruction.hasDelaySlot { word := m.wordFrom r last } = true →
          length = last + 2 ∨ (length = last + 1 ∧ m.wordsLeft r = last + 1)) := by
  have hcuts : ∀ {r : Resolved}, m.layout.resolve pc = .ok r → r.kind = .direct →
      0 < m.wordsLeft r → ∃ last length,
        Cut (m.wordFrom r) (m.wordsLeft r) (min (m.wordsLeft r) (max maxOps 2)) last length ∧
        decode m pc maxOps =
          .ok ((List.range length).map fun i => Op.ofWord (m.wordFrom r i)).toArray := by
    intro r hr hkind hleft
    obtain ⟨data, hdata, hcount, hword⟩ := hm.bytes hr hkind
    rw [hcount] at hleft ⊢
    rw [hword]
    obtain ⟨last, length, hcut, hdecode⟩ := exists_cut_of_bytes hr hkind hdata (by omega) maxOps
    refine ⟨last, length, hcut, ?_⟩
    rw [hdecode, fetched, List.range_eq_range']
  refine ⟨⟨?_, ?_⟩, ?_⟩
  · rintro ⟨fault, hfault⟩
    by_cases hsome : ∃ r, m.layout.resolve pc = .ok r ∧ r.kind = .direct
    · obtain ⟨r, hr, hkind⟩ := hsome
      refine .inr ⟨r, hr, hkind, Nat.eq_zero_of_not_pos fun hleft => ?_⟩
      obtain ⟨_, _, -, hdecode⟩ := hcuts hr hkind hleft
      cases hfault.symm.trans hdecode
    · exact .inl fun r hr hkind => hsome ⟨r, hr, hkind⟩
  · intro hnone
    cases hdecode : decode m pc maxOps with
    | error fault => exact ⟨fault, rfl⟩
    | ok ops =>
      obtain ⟨r, data, hr, hkind, hdata, hfits, -⟩ := decode_eq_ok_iff.mp hdecode
      have hdirect : r.kind = .direct := by
        cases hk : r.kind with
        | direct => rfl
        | device => exact absurd hk hkind
      rcases hnone with hnone | ⟨r', hr', -, hleft⟩
      · exact absurd hdirect (hnone r hr)
      · cases hr.symm.trans hr'
        obtain ⟨data', hdata', hcount, -⟩ := hm.bytes hr hdirect
        cases hdata.symm.trans hdata'
        omega
  · intro r hr hkind hleft
    obtain ⟨last, length, hcut, hdecode⟩ := hcuts hr hkind hleft
    have hlimit : 0 < min (m.wordsLeft r) (max maxOps 2) := by omega
    have hroom : min (m.wordsLeft r) (max maxOps 2) ≤ m.wordsLeft r := by omega
    have hlast := hcut.last_lt_length hlimit hroom
    have hmost := (hcut.length_le hlimit hroom).1
    exact ⟨last, length, hcut, hdecode, by omega, by omega, hcut.slot hlimit hroom⟩

/-- Four words of memory and another name for them: an addition, a branch, its delay slot and a
return. -/
def branchAndReturn : Array (RegionSpec RegisterBank) :=
  #[.rom 0 0x10 ⟨#[0x07, 0x00, 0x02, 0x24, 0xfe, 0xff, 0x80, 0x14,
      0x00, 0x00, 0x00, 0x00, 0x08, 0x00, 0xe0, 0x03]⟩,
    .aliasOf 0x100 0x10 0]

theorem eq_ok_of_toOption {ε α : Type} {x : Except ε α} {a : α} (h : x.toOption = some a) :
    x = .ok a := by
  cases x with
  | error e => cases h
  | ok b => exact congrArg Except.ok (Option.some.inj h)

/-- Blocks of two instructions there: one that ends with the branch and has its delay slot, and one at
the return, with no word left for a delay slot. Behind the last word there is none. -/
theorem decode_cuts_at_first_stop_branch :
    ∃ m, Memory.ofRegions branchAndReturn = .ok m ∧ m.Backed ∧
      (∃ r last, m.layout.resolve 0x100 = .ok r ∧ Cut (m.wordFrom r) 4 2 last 3) ∧
      (∃ r last, m.layout.resolve 0x10c = .ok r ∧ Cut (m.wordFrom r) 1 1 last 1) ∧
      ∃ fault, decode m 0x110 2 = .error fault := by
  -- what is there, and how long the blocks are
  obtain ⟨m, hm, hfacts⟩ := (Option.any_eq_true _ _).mp (show
    (Memory.ofRegions branchAndReturn).toOption.any (fun m => decide (
      (m.layout.resolve 0x100).toOption = some ⟨0, 0, 0, .direct⟩ ∧
      m.wordsLeft ⟨0, 0, 0, .direct⟩ = 4 ∧ (decode m 0x100 2).toOption.map Array.size = some 3 ∧
      (m.layout.resolve 0x10c).toOption = some ⟨0, 12, 12, .direct⟩ ∧
      m.wordsLeft ⟨0, 12, 12, .direct⟩ = 1 ∧ (decode m 0x10c 2).toOption.map Array.size = some 1 ∧
      (m.layout.resolve 0x110).toOption = none)) = true by decide +kernel)
  obtain ⟨hr, hleft, hsize, hr', hleft', hsize', hnone⟩ := of_decide_eq_true hfacts
  have hbacked := Memory.backed_of_ofRegions (eq_ok_of_toOption hm)
  refine ⟨m, eq_ok_of_toOption hm, hbacked, ?_, ?_, ?_⟩
  · obtain ⟨last, length, hcut, hdecode, -⟩ :=
      (decode_cuts_at_first_stop hbacked 0x100 2).2 (eq_ok_of_toOption hr) rfl (by omega)
    rw [hdecode] at hsize
    have hlength : length = 3 := by simpa [Except.toOption] using hsize
    rw [hleft, hlength] at hcut
    exact ⟨_, last, eq_ok_of_toOption hr, hcut⟩
  · obtain ⟨last, length, hcut, hdecode, -⟩ :=
      (decode_cuts_at_first_stop hbacked 0x10c 2).2 (eq_ok_of_toOption hr') rfl (by omega)
    rw [hdecode] at hsize'
    have hlength : length = 1 := by simpa [Except.toOption] using hsize'
    rw [hleft', hlength] at hcut
    exact ⟨_, last, eq_ok_of_toOption hr', hcut⟩
  · refine (decode_cuts_at_first_stop hbacked 0x110 2).1.mpr (.inl fun r hr => ?_)
    rw [hr] at hnone
    cases hnone

end Block

end Dynarec
