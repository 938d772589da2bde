/-
  Dynarec.Proofs.BlockReuse

  How a block that was invalidated is recognised.

  Every step of the hash keeps apart what was apart before it. Adding a copy
  shifted to the left is a product with an odd number; mixing in a copy shifted
  to the right leaves the highest bits, and the others follow from them. Rows of
  words that differ in one place therefore differ in their hash. What is hashed
  are the bytes from the address of the block on, while a block is decoded from
  the word around its address: the two are the same words unless the block
  starts inside a word.
-/
import Dynarec.Engine.Dispatch
import Dynarec.Proofs.Block
import Dynarec.Proofs.Memory
import Mathlib.Data.Nat.ModEq
import Mathlib.Data.Nat.Prime.Basic

namespace Dynarec

/-! ## Steps of the hash -/

/-- A word is known from its exclusive or with itself shifted to the right. -/
theorem eq_of_xor_shiftRight {x y k : UInt32} (hk : 0 < k.toNat % 32)
    (h : x ^^^ (x >>> k) = y ^^^ (y >>> k)) : x = y := by
  -- the shift does not change what the two differ by, and it makes any other number smaller
  have hdiff : x ^^^ y = (x ^^^ y) >>> k := by
    calc x ^^^ y = x ^^^ (x >>> k) ^^^ (x >>> k) ^^^ y := by
          rw [UInt32.xor_assoc x, UInt32.xor_self, UInt32.xor_zero]
      _ = (x >>> k) ^^^ (y >>> k) ^^^ (y ^^^ y) := by
          rw [h]
          ac_rfl
      _ = (x ^^^ y) >>> k := by rw [UInt32.xor_self, UInt32.xor_zero, UInt32.shiftRight_xor]
  have hzero : (x ^^^ y).toNat = 0 := by
    have hshift := congrArg UInt32.toNat hdiff
    rw [UInt32.toNat_shiftRight, Nat.shiftRight_eq_div_pow] at hshift
    by_contra hne
    have hless := Nat.div_lt_self (Nat.pos_of_ne_zero hne) (Nat.one_lt_two_pow (Nat.ne_of_gt hk))
    omega
  exact UInt32.xor_eq_zero_iff.mp (UInt32.toNat_inj.mp hzero)

theorem toNat_add_shiftLeft (x k : UInt32) :
    (x + (x <<< k)).toNat = x.toNat * (2 ^ (k.toNat % 32) + 1) % 2 ^ 32 := by
  rw [UInt32.toNat_add, UInt32.toNat_shiftLeft, Nat.shiftLeft_eq, Nat.add_mod_mod, Nat.mul_add_one,
    Nat.add_comm]

/-- A word is known from its sum with itself shifted to the left: the factor is odd. -/
theorem eq_of_add_shiftLeft {x y k : UInt32} (hk : 0 < k.toNat % 32)
    (h : x + (x <<< k) = y + (y <<< k)) : x = y := by
  -- 2 ^ 32 and the factor have no divisor in common, so it can be cancelled
  have hprod : x.toNat * (2 ^ (k.toNat % 32) + 1) ≡
      y.toNat * (2 ^ (k.toNat % 32) + 1) [MOD 2 ^ 32] := by
    have hnat := congrArg UInt32.toNat h
    rwa [toNat_add_shiftLeft, toNat_add_shiftLeft] at hnat
  have hodd : Nat.Coprime (2 ^ 32) (2 ^ (k.toNat % 32) + 1) := by
    apply Nat.Coprime.pow_left
    rw [Nat.coprime_two_left]
    exact (Nat.even_pow.mpr ⟨even_two, Nat.ne_of_gt hk⟩).add_one
  have hmod := Nat.ModEq.cancel_right_of_coprime hodd hprod
  rw [Nat.ModEq, Nat.mod_eq_of_lt x.toNat_lt, Nat.mod_eq_of_lt y.toNat_lt] at hmod
  exact UInt32.toNat_inj.mp hmod

theorem mixWord_injective_hash (word : UInt32) : Function.Injective (mixWord · word) := by
  intro x y h
  have hsum : x + word = y + word :=
    eq_of_add_shiftLeft (by decide) (eq_of_xor_shiftRight (by decide) h)
  exact (UInt32.add_left_inj word).mp hsum

theorem mixWord_injective_word (hash : UInt32) : Function.Injective (mixWord hash) := by
  intro x y h
  have hsum : hash + x = hash + y :=
    eq_of_add_shiftLeft (by decide) (eq_of_xor_shiftRight (by decide) h)
  exact (UInt32.add_right_inj hash).mp hsum

theorem finishHash_injective : Function.Injective finishHash := by
  intro x y h
  exact eq_of_add_shiftLeft (by decide)
    (eq_of_xor_shiftRight (by decide) (eq_of_add_shiftLeft (by decide) h))

theorem foldl_mixWord_injective (words : List UInt32) :
    Function.Injective fun hash => words.foldl mixWord hash := by
  induction words with
  | nil => exact Function.injective_id
  | cons w words ih => exact ih.comp (mixWord_injective_hash w)

/-- Among rows of words that agree everywhere else, the hash tells the one word. -/
theorem hashWords_injective_at (u v : List UInt32) :
    Function.Injective fun w => hashWords (u ++ [w] ++ v) := by
  intro w w' h
  -- up to the word in question both runs are the same, and behind it they stay apart
  have hrun := finishHash_injective h
  rw [List.foldl_append, List.foldl_append, List.foldl_append, List.foldl_append] at hrun
  exact mixWord_injective_word _ (foldl_mixWord_injective v hrun)

/-! ## What is hashed -/

/-- The `n` words from byte `start` on. -/
def Bytes.wordsFrom (data : ByteArray) (start n : Nat) : List UInt32 :=
  (List.range n).map fun i => wordAt data (start + 4 * i)

theorem Bytes.wordAt_extract (data : ByteArray) {start stop i : Nat} (hi : start + i + 4 ≤ stop)
    (hstop : stop ≤ data.size) : wordAt (data.extract start stop) i = wordAt data (start + i) := by
  unfold wordAt
  rw [byteAt_extract _ (by omega) hstop, byteAt_extract _ (by omega) hstop,
    byteAt_extract _ (by omega) hstop, byteAt_extract _ (by omega) hstop]
  rfl

/-- A slice starts at the very byte, not at the word around it. -/
theorem Memory.slice_of_resolve {δ : Type} {m : Memory δ} {addr : UInt32} {r : Resolved}
    {data : ByteArray} (hr : m.layout.resolve addr = .ok r) (hdata : m.bytes? r.index = some data)
    (n : Nat) : m.slice addr n =
      if r.offset.toNat + n ≤ data.size then .ok (data.extract r.offset.toNat (r.offset.toNat + n))
      else .error (.outOfBounds addr) := by
  unfold slice
  rw [locate_of_resolve hr hdata]
  by_cases hfits : r.offset.toNat + n ≤ data.size
  · rw [if_pos hfits, if_pos hfits]
    dsimp only
    rw [hdata]
  · rw [if_neg hfits, if_neg hfits]

/-- Code is decoded from the word around the address on. -/
theorem Memory.Supplies.words_eq {δ : Type} {m : Memory δ} {pc : UInt32} {words : List UInt32}
    {r : Resolved} {data : ByteArray} (h : m.Supplies pc words r data) :
    words = Bytes.wordsFrom data (r.offset.toNat / 4 * 4) words.length := by
  apply List.ext_getElem?
  intro i
  unfold Bytes.wordsFrom
  rw [List.getElem?_map]
  by_cases hi : i < words.length
  · rw [h.word hi, List.getElem?_range hi]
    rfl
  · rw [List.getElem?_eq_none (by omega), List.getElem?_eq_none (by simpa using hi)]
    rfl

namespace Engine

/-- A block is taken for unchanged if the words from its very address on have its hash. -/
theorem isUnchanged_iff {δ : Type} {m : Memory δ} {b : Block} {r : Resolved} {data : ByteArray}
    (hr : m.layout.resolve b.pc = .ok r) (hdata : m.bytes? r.index = some data) :
    isUnchanged m b = true ↔ r.offset.toNat + b.opCount * 4 ≤ data.size ∧
      hashWords (Bytes.wordsFrom data r.offset.toNat b.opCount) = b.hash := by
  unfold isUnchanged
  rw [Memory.slice_of_resolve hr hdata]
  by_cases hfits : r.offset.toNat + b.opCount * 4 ≤ data.size
  · have hread : ((List.range b.opCount).map fun i => Bytes.wordAt
        (data.extract r.offset.toNat (r.offset.toNat + b.opCount * 4)) (4 * i)) =
        Bytes.wordsFrom data r.offset.toNat b.opCount := by
      refine List.map_congr_left fun i hi => ?_
      have hlt := List.mem_range.mp hi
      exact Bytes.wordAt_extract data (by omega) hfits
    rw [if_pos hfits]
    dsimp only
    rw [hread, beq_iff_eq]
    exact ⟨fun h => ⟨hfits, h⟩, And.right⟩
  · rw [if_neg hfits]
    exact ⟨fun h => (by cases h), fun h => absurd h.1 hfits⟩

/-- Changing one word changes the hash of a row of words. If memory has one word other than a block
was decoded from, the block is therefore not taken for unchanged, provided it starts where a word
starts. One that starts inside a word is compared with other bytes, and is taken for unchanged
exactly if those happen to have its hash. -/
theorem one_change_noticed_unless_misaligned (u v : List UInt32) {w w' : UInt32} (hne : w ≠ w') :
    hashWords (u ++ [w] ++ v) ≠ hashWords (u ++ [w'] ++ v) ∧
    ∀ {δ : Type} {m : Memory δ} {b : Block} {r : Resolved} {data : ByteArray},
      b.opCount = b.words.length → b.words = u ++ [w] ++ v →
      m.Supplies b.pc (u ++ [w'] ++ v) r data →
      (r.offset.toNat % 4 = 0 → isUnchanged m b = false) ∧
      (isUnchanged m b = true ↔ r.offset.toNat % 4 ≠ 0 ∧
        r.offset.toNat + b.opCount * 4 ≤ data.size ∧
        hashWords (Bytes.wordsFrom data r.offset.toNat b.opCount) = hashWords b.words) := by
  have hhash : hashWords (u ++ [w] ++ v) ≠ hashWords (u ++ [w'] ++ v) :=
    fun h => hne (hashWords_injective_at u v h)
  refine ⟨hhash, ?_⟩
  intro δ m b r data hcount hwords hmemory
  have hiff := isUnchanged_iff hmemory.resolves hmemory.bytes
  -- read from the start of a word on, memory has the changed word
  have haligned (halign : r.offset.toNat % 4 = 0) :
      hashWords (Bytes.wordsFrom data r.offset.toNat b.opCount) ≠ b.hash := by
    have hstart : r.offset.toNat / 4 * 4 = r.offset.toNat := by omega
    have hlength : b.opCount = (u ++ [w'] ++ v).length := by
      rw [hcount, hwords]
      simp
    have hread : Bytes.wordsFrom data r.offset.toNat b.opCount = u ++ [w'] ++ v := by
      rw [hlength, ← hstart]
      exact hmemory.words_eq.symm
    rw [hread, Block.hash, hwords]
    exact hhash.symm
  refine ⟨?_, ?_⟩
  · intro halign
    rw [Bool.eq_false_iff]
    exact fun h => haligned halign (hiff.mp h).2
  · rw [hiff]
    exact ⟨fun h => ⟨fun halign => haligned halign h.2, h⟩, And.right⟩

/-- A memory of two words. -/
def pair (first second : UInt32) : Memory RegisterBank where
  layout :=
    { regions := #[{ base := 0, length := 8, backing := .ram, code := true }], valid := by decide }
  contents := #[.bytes (Bytes.ofWord first ++ Bytes.ofWord second)]

/-- A system call is decoded at an address inside its word. The word is overwritten with an
addition, and the block is taken for unchanged. -/
theorem one_change_noticed_unless_misaligned_halfway :
    Block.decode (pair 0x0000000c 0) 2 256 = .ok #[Op.ofWord 0x0000000c] ∧
      (∃ r data, (pair 0x000c1021 0).Supplies 2 [0x000c1021] r data ∧ r.offset.toNat % 4 ≠ 0) ∧
      isUnchanged (pair 0x000c1021 0) (.ofOps 2 #[Op.ofWord 0x0000000c] {}) = true := by
  have hsupplies : (pair 0x000c1021 0).Supplies 2 ([] ++ [0x000c1021] ++ [])
      { index := 0, offset := 2, paddr := 2, kind := .direct }
      (Bytes.ofWord 0x000c1021 ++ Bytes.ofWord 0) := by
    refine ⟨by decide +kernel, rfl, rfl, by decide, ?_⟩
    intro i hi
    have hzero : i = 0 := by simpa using hi
    subst hzero
    decide
  have hne : (0x0000000c : UInt32) ≠ 0x000c1021 := by decide
  obtain ⟨-, hnoticed⟩ := one_change_noticed_unless_misaligned [] [] hne
  have hmissed := (hnoticed (b := .ofOps 2 #[Op.ofWord 0x0000000c] {}) rfl rfl hsupplies).2
  exact ⟨by decide +kernel, ⟨_, _, hsupplies, by decide⟩, hmissed.mpr (by decide +kernel)⟩

end Engine

end Dynarec
