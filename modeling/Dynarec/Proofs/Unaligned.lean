/-
  Dynarec.Proofs.Unaligned

  Words at any address.

  Guest code reaches an unaligned word by two instructions, one for the bytes
  from its address on and one for the bytes up to its last. Each merges a
  register with the aligned word around its address. What a merge does is said
  byte by byte: which bytes come from the register and which from memory. So the
  two of a pair do, in either order, what one access to the four bytes would.
-/
import Dynarec.Proofs.ClearLoop
import Dynarec.Proofs.Layout
import Dynarec.Proofs.Machine.Agreement

namespace Dynarec

/-! ## The bytes of a word -/

namespace Bytes

/-- Byte `k` of a word, the lowest first. -/
def byteOf (w : UInt32) (k : Nat) : UInt8 := (w >>> (8 * k).toUInt32).toUInt8

theorem toNat_eight_mul {p : Nat} (hp : p < 4) : (8 * p).toUInt32.toNat % 32 = 8 * p := by
  rw [UInt32.toNat_ofNat_of_lt' (by rw [UInt32.size]; omega)]
  omega

/-- Bits of a byte are bits of its word. -/
theorem testBit_byteOf (w : UInt32) {k i : Nat} (hk : k < 4) (hi : i < 8) :
    (byteOf w k).toNat.testBit i = w.toNat.testBit (8 * k + i) := by
  rw [byteOf, UInt32.toNat_toUInt8, Nat.testBit_mod_two_pow, UInt32.toNat_shiftRight,
    toNat_eight_mul hk, Nat.testBit_shiftRight, decide_eq_true hi, Bool.true_and]

theorem testBit_of_eight_le (x : UInt8) {i : Nat} (hi : 8 ≤ i) : x.toNat.testBit i = false :=
  Nat.testBit_lt_two_pow (Nat.lt_of_lt_of_le x.toNat_lt (Nat.pow_le_pow_right (by omega) hi))

theorem testBit_of_width_le (w : UInt32) {i : Nat} (hi : 32 ≤ i) : w.toNat.testBit i = false :=
  Nat.testBit_lt_two_pow (Nat.lt_of_lt_of_le w.toNat_lt (Nat.pow_le_pow_right (by omega) hi))

theorem byte_ext {x y : UInt8} (h : ∀ i < 8, x.toNat.testBit i = y.toNat.testBit i) : x = y := by
  refine UInt8.toNat_inj.mp (Nat.eq_of_testBit_eq fun i => ?_)
  by_cases hi : i < 8
  · exact h i hi
  · rw [testBit_of_eight_le x (by omega), testBit_of_eight_le y (by omega)]

/-- A word is its four bytes. -/
theorem word_ext {v w : UInt32} (h : ∀ k < 4, byteOf v k = byteOf w k) : v = w := by
  refine UInt32.toNat_inj.mp (Nat.eq_of_testBit_eq fun j => ?_)
  by_cases hj : j < 32
  · have hk : j / 8 < 4 := by omega
    have hi : j % 8 < 8 := by omega
    have hsum : 8 * (j / 8) + j % 8 = j := by omega
    rw [← hsum, ← testBit_byteOf v hk hi, ← testBit_byteOf w hk hi, h _ hk]
  · rw [testBit_of_width_le v (by omega), testBit_of_width_le w (by omega)]

section Operations

variable (x y : UInt32) {k p : Nat}

theorem byteOf_or (k : Nat) : byteOf (x ||| y) k = byteOf x k ||| byteOf y k := by
  rw [byteOf, UInt32.shiftRight_or, UInt32.toUInt8_or, byteOf, byteOf]

theorem byteOf_and (k : Nat) : byteOf (x &&& y) k = byteOf x k &&& byteOf y k := by
  rw [byteOf, UInt32.shiftRight_and, UInt32.toUInt8_and, byteOf, byteOf]

theorem byteOf_shiftLeft (hp : p < 4) (hk : k < 4) :
    byteOf (x <<< (8 * p).toUInt32) k = if p ≤ k then byteOf x (k - p) else 0 := by
  refine byte_ext fun i hi => ?_
  rw [testBit_byteOf _ hk hi, UInt32.toNat_shiftLeft, toNat_eight_mul hp, Nat.testBit_mod_two_pow,
    Nat.testBit_shiftLeft, decide_eq_true (show 8 * k + i < 32 by omega), Bool.true_and]
  -- whole bytes move, so a bit keeps its place in its byte
  split
  · rename_i hle
    have hsub : 8 * k + i - 8 * p = 8 * (k - p) + i := by omega
    rw [decide_eq_true (show 8 * k + i ≥ 8 * p by omega), hsub, testBit_byteOf _ (by omega) hi]
    rfl
  · rw [decide_eq_false (show ¬ 8 * k + i ≥ 8 * p by omega)]
    exact (Nat.zero_testBit i).symm

theorem byteOf_shiftRight (hp : p < 4) (hk : k < 4) :
    byteOf (x >>> (8 * p).toUInt32) k = if k + p < 4 then byteOf x (k + p) else 0 := by
  refine byte_ext fun i hi => ?_
  have hsum : 8 * p + (8 * k + i) = 8 * (k + p) + i := by omega
  rw [testBit_byteOf _ hk hi, UInt32.toNat_shiftRight, toNat_eight_mul hp, Nat.testBit_shiftRight,
    hsum]
  split
  · rename_i hlt
    rw [testBit_byteOf _ hlt hi]
  · rw [testBit_of_width_le x (by omega)]
    exact (Nat.zero_testBit i).symm

theorem byteOf_toUInt32 (b : UInt8) (hk : k < 4) :
    byteOf b.toUInt32 k = if k = 0 then b else 0 := by
  refine byte_ext fun i hi => ?_
  rw [testBit_byteOf _ hk hi, UInt8.toNat_toUInt32]
  split
  · rename_i hzero
    rw [hzero, Nat.mul_zero, Nat.zero_add]
  · rw [testBit_of_eight_le b (by omega)]
    exact (Nat.zero_testBit i).symm

/-- A byte shifted to a position is all there is at that position. -/
theorem byteOf_toUInt32_shiftLeft (b : UInt8) (hp : p < 4) (hk : k < 4) :
    byteOf (b.toUInt32 <<< (8 * p).toUInt32) k = if k = p then b else 0 := by
  rw [byteOf_shiftLeft _ hp hk]
  by_cases hle : p ≤ k
  · rw [if_pos hle, byteOf_toUInt32 b (by omega)]
    by_cases heq : k = p
    · rw [if_pos (by omega), if_pos heq]
    · rw [if_neg (by omega), if_neg heq]
  · rw [if_neg hle, if_neg (by omega)]

end Operations

/-! ## Words in byte arrays -/

theorem byteOf_wordAt (data : ByteArray) (i : Nat) {k : Nat} (hk : k < 4) :
    byteOf (wordAt data i) k = byteAt data (i + k) := by
  have h1 : byteOf ((byteAt data (i + 1)).toUInt32 <<< 8) k = _ :=
    byteOf_toUInt32_shiftLeft (p := 1) _ (by omega) hk
  have h2 : byteOf ((byteAt data (i + 2)).toUInt32 <<< 16) k = _ :=
    byteOf_toUInt32_shiftLeft (p := 2) _ (by omega) hk
  have h3 : byteOf ((byteAt data (i + 3)).toUInt32 <<< 24) k = _ :=
    byteOf_toUInt32_shiftLeft (p := 3) _ (by omega) hk
  rw [wordAt, byteOf_or, byteOf_or, byteOf_or, byteOf_toUInt32 _ hk, h1, h2, h3]
  obtain rfl | rfl | rfl | rfl : k = 0 ∨ k = 1 ∨ k = 2 ∨ k = 3 := by omega
  all_goals simp

theorem byteAt_setWord (b : ByteArray) {i : Nat} (hi : i + 4 ≤ b.size) (v : UInt32) (j : Nat) :
    byteAt (setWord b i v) j = if i ≤ j ∧ j < i + 4 then byteOf v (j - i) else byteAt b j := by
  by_cases hj : i ≤ j ∧ j < i + 4
  · obtain ⟨k, rfl⟩ := Nat.exists_eq_add_of_le hj.1
    rw [if_pos hj, Nat.add_sub_cancel_left]
    unfold setWord
    simp only [byteAt_setByte, size_setByte, show i + 3 < b.size by omega,
      show i + 2 < b.size by omega, show i + 1 < b.size by omega, show i < b.size by omega]
    obtain rfl | rfl | rfl | rfl : k = 0 ∨ k = 1 ∨ k = 2 ∨ k = 3 := by omega
    all_goals simp [byteOf]
  · rw [if_neg hj]
    exact (local_setWord i v).byte b (by omega)

theorem wordAt_setWord (b : ByteArray) {i : Nat} (hi : i + 4 ≤ b.size) (v : UInt32) :
    wordAt (setWord b i v) i = v := by
  refine word_ext fun k hk => ?_
  rw [byteOf_wordAt _ _ hk, byteAt_setWord _ hi, if_pos (by omega), Nat.add_sub_cancel_left]

theorem ext_of_byteAt {a b : ByteArray} (hsize : a.size = b.size)
    (h : ∀ j, byteAt a j = byteAt b j) : a = b := by
  refine ByteArray.ext_getElem hsize fun j hj hj' => ?_
  have hat := h j
  unfold byteAt at hat
  rwa [dif_pos hj, dif_pos hj'] at hat

end Bytes

/-! ## Merges -/

namespace Unaligned

open Bytes

theorem byteOf_lowMask : ∀ p < 4, ∀ k < 4,
    byteOf (lowMask (8 * p).toUInt32) k = if k < p then 0xff else 0 := by
  decide

theorem byteOf_highMask : ∀ p < 4, ∀ k < 4,
    byteOf (highMask (8 * p).toUInt32) k = if 4 ≤ k + p then 0xff else 0 := by
  decide

/-- The amounts of all shifts are whole bytes. -/
theorem amounts : ∀ l < 4, l.toUInt32 * 8 = (8 * l).toUInt32 ∧
    24 - l.toUInt32 * 8 = (8 * (3 - l)).toUInt32 ∧
    (3 - l.toUInt32) * 8 = (8 * (3 - l)).toUInt32 := by
  decide

variable (reg mem : UInt32) {l k : Nat}

theorem and_ones (x : UInt8) : x &&& 0xff = x := UInt8.and_neg_one

theorem byteOf_loadLeft (hl : l < 4) (hk : k < 4) : byteOf (loadLeft reg mem l.toUInt32) k =
      if 3 ≤ k + l then byteOf mem (k + l - 3) else byteOf reg k := by
  obtain ⟨-, hamount, -⟩ := amounts l hl
  rw [loadLeft, hamount, byteOf_or, byteOf_and, byteOf_lowMask _ (by omega) _ hk,
    byteOf_shiftLeft _ (by omega) hk]
  by_cases h : 3 ≤ k + l
  · have hplace : k - (3 - l) = k + l - 3 := by omega
    rw [if_neg (by omega), if_pos (by omega), if_pos h, UInt8.and_zero, UInt8.zero_or, hplace]
  · rw [if_pos (by omega), if_neg (by omega), if_neg h, and_ones, UInt8.or_zero]

theorem byteOf_loadRight (hl : l < 4) (hk : k < 4) : byteOf (loadRight reg mem l.toUInt32) k =
      if k + l < 4 then byteOf mem (k + l) else byteOf reg k := by
  obtain ⟨hamount, -, -⟩ := amounts l hl
  rw [loadRight, hamount, byteOf_or, byteOf_and, byteOf_highMask _ hl _ hk,
    byteOf_shiftRight _ hl hk]
  by_cases h : k + l < 4
  · rw [if_neg (by omega), if_pos h, if_pos h, UInt8.and_zero, UInt8.zero_or]
  · rw [if_pos (by omega), if_neg h, if_neg h, and_ones, UInt8.or_zero]

theorem byteOf_storeLeft (hl : l < 4) (hk : k < 4) : byteOf (storeLeft reg mem l.toUInt32) k =
      if k ≤ l then byteOf reg (k + 3 - l) else byteOf mem k := by
  obtain ⟨-, hmask, hshift⟩ := amounts l hl
  rw [storeLeft, hmask, hshift, byteOf_or, byteOf_and, byteOf_highMask _ (by omega) _ hk,
    byteOf_shiftRight _ (by omega) hk]
  by_cases h : k ≤ l
  · have hplace : k + (3 - l) = k + 3 - l := by omega
    rw [if_pos (by omega), if_neg (by omega), if_pos h, UInt8.and_zero, UInt8.or_zero, hplace]
  · rw [if_neg (by omega), if_pos (by omega), if_neg h, and_ones, UInt8.zero_or]

theorem byteOf_storeRight (hl : l < 4) (hk : k < 4) : byteOf (storeRight reg mem l.toUInt32) k =
      if l ≤ k then byteOf reg (k - l) else byteOf mem k := by
  obtain ⟨hamount, -, -⟩ := amounts l hl
  rw [storeRight, hamount, byteOf_or, byteOf_and, byteOf_lowMask _ hl _ hk,
    byteOf_shiftLeft _ hl hk]
  by_cases h : l ≤ k
  · rw [if_pos h, if_neg (by omega), if_pos h, UInt8.and_zero, UInt8.or_zero]
  · rw [if_neg h, if_pos (by omega), if_neg h, and_ones, UInt8.zero_or]

/-- The two kinds of merges. -/
inductive Side where
  /-- The bytes up to the lane. -/
  | left
  /-- The bytes from the lane on. -/
  | right

namespace Side

def load : Side → UInt32 → UInt32 → UInt32 → UInt32
  | left => loadLeft
  | right => loadRight

def store : Side → UInt32 → UInt32 → UInt32 → UInt32
  | left => storeLeft
  | right => storeRight

def loadAccess : Side → MemoryAccess
  | left => .lwl
  | right => .lwr

def storeAccess : Side → MemoryAccess
  | left => .swl
  | right => .swr

end Side

/-! ### Shift amounts -/

/-- A shift to the left whose amount has to be less than the width of a word. -/
def shiftLeft? (x n : UInt32) : Option UInt32 := if n < 32 then some (x <<< n) else none

/-- A shift to the right with the same bound. -/
def shiftRight? (x n : UInt32) : Option UInt32 := if n < 32 then some (x >>> n) else none

def lowMask? (bits : UInt32) : Option UInt32 := (shiftLeft? 1 bits).map (· - 1)

def highMask? (bits : UInt32) : Option UInt32 :=
  if bits = 0 then some 0 else shiftLeft? 0xffffffff (32 - bits)

/-- The merge of a load, if none of its shifts reaches the width of a word. -/
def Side.load? (s : Side) (reg mem lane : UInt32) : Option UInt32 :=
  match s with
  | left => do return (reg &&& (← lowMask? (24 - lane * 8))) ||| (← shiftLeft? mem (24 - lane * 8))
  | right => do return (reg &&& (← highMask? (lane * 8))) ||| (← shiftRight? mem (lane * 8))

/-- The merge of a store, if none of its shifts reaches the width of a word. -/
def Side.store? (s : Side) (reg mem lane : UInt32) : Option UInt32 :=
  match s with
  | left =>
    do return (← shiftRight? reg ((3 - lane) * 8)) ||| (mem &&& (← highMask? (24 - lane * 8)))
  | right => do return (← shiftLeft? reg (lane * 8)) ||| (mem &&& (← lowMask? (lane * 8)))

theorem eight_mul_lt : ∀ p < 4, (8 * p).toUInt32 < 32 := by decide

theorem lowMask?_eq : ∀ p < 4, lowMask? (8 * p).toUInt32 = some (lowMask (8 * p).toUInt32) := by
  decide

theorem highMask?_eq : ∀ p < 4, highMask? (8 * p).toUInt32 = some (highMask (8 * p).toUInt32) := by
  decide

theorem shiftLeft?_eq (x : UInt32) {p : Nat} (hp : p < 4) :
    shiftLeft? x (8 * p).toUInt32 = some (x <<< (8 * p).toUInt32) := if_pos (eight_mul_lt p hp)

theorem shiftRight?_eq (x : UInt32) {p : Nat} (hp : p < 4) :
    shiftRight? x (8 * p).toUInt32 = some (x >>> (8 * p).toUInt32) := if_pos (eight_mul_lt p hp)

theorem Side.load?_eq (s : Side) (hl : l < 4) :
    s.load? reg mem l.toUInt32 = some (s.load reg mem l.toUInt32) := by
  obtain ⟨hright, hleft, -⟩ := amounts l hl
  cases s with
  | left =>
    rw [load?, load, loadLeft, hleft, lowMask?_eq _ (by omega), shiftLeft?_eq _ (by omega)]
    rfl
  | right =>
    rw [load?, load, loadRight, hright, highMask?_eq _ hl, shiftRight?_eq _ hl]
    rfl

theorem Side.store?_eq (s : Side) (hl : l < 4) :
    s.store? reg mem l.toUInt32 = some (s.store reg mem l.toUInt32) := by
  obtain ⟨hright, hmask, hleft⟩ := amounts l hl
  cases s with
  | left =>
    rw [store?, store, storeLeft, hmask, hleft, highMask?_eq _ (by omega),
      shiftRight?_eq _ (by omega)]
    rfl
  | right =>
    rw [store?, store, storeRight, hright, lowMask?_eq _ hl, shiftLeft?_eq _ hl]
    rfl

end Unaligned

namespace Bytes

open Unaligned

variable {data : ByteArray} {o l o' l' : Nat} (v reg : UInt32)

/-- Merge the bytes of a word on one side of a lane into the word at `o`. -/
def put (s : Side) (v : UInt32) (o l : Nat) (data : ByteArray) : ByteArray :=
  setWord data o (s.store v (wordAt data o) l.toUInt32)

theorem size_put (s : Side) (o l : Nat) (data : ByteArray) : (put s v o l data).size = data.size :=
  (local_setWord _ _).size data

theorem local_put (s : Side) (o l : Nat) : Local (put s v o l) o 4 where
  size := size_put v s o l
  byte _ _ hk := (local_setWord _ _).byte _ hk

theorem byteAt_put_left (ho : o + 4 ≤ data.size) (hl : l < 4) (j : Nat) :
    byteAt (put .left v o l data) j =
      if o ≤ j ∧ j ≤ o + l then byteOf v (j + 3 - (o + l)) else byteAt data j := by
  rw [put, byteAt_setWord _ ho]
  by_cases hj : o ≤ j ∧ j < o + 4
  · -- behind the lane the merge puts back what it found
    obtain ⟨k, rfl⟩ := Nat.exists_eq_add_of_le hj.1
    rw [if_pos hj, Nat.add_sub_cancel_left, Side.store, byteOf_storeLeft _ _ hl (by omega),
      byteOf_wordAt _ _ (by omega)]
    by_cases hk : k ≤ l
    · have hplace : k + 3 - l = o + k + 3 - (o + l) := by omega
      rw [if_pos hk, if_pos (by omega), hplace]
    · rw [if_neg hk, if_neg (by omega)]
  · rw [if_neg hj, if_neg (by omega)]

theorem byteAt_put_right (ho : o + 4 ≤ data.size) (hl : l < 4) (j : Nat) :
    byteAt (put .right v o l data) j =
      if o + l ≤ j ∧ j < o + 4 then byteOf v (j - (o + l)) else byteAt data j := by
  rw [put, byteAt_setWord _ ho]
  by_cases hj : o ≤ j ∧ j < o + 4
  · -- in front of the lane the merge puts back what it found
    obtain ⟨k, rfl⟩ := Nat.exists_eq_add_of_le hj.1
    rw [if_pos hj, Nat.add_sub_cancel_left, Side.store, byteOf_storeRight _ _ hl (by omega),
      byteOf_wordAt _ _ (by omega)]
    by_cases hk : l ≤ k
    · have hplace : k - l = o + k - (o + l) := by omega
      rw [if_pos hk, if_pos (by omega), hplace]
    · rw [if_neg hk, if_neg (by omega)]
  · rw [if_neg hj, if_neg (by omega)]

/-- Four bytes begin in lane `l` of the word at `o` and end in lane `l'` of the word at `o'`, the
same word or the next. -/
structure Spans (o l o' l' : Nat) : Prop where
  first : l < 4
  last : l' < 4
  length : o' + l' = o + l + 3
  next : o' = o ∨ o' = o + 4

/-- Both merges of a word store it, the bytes up to the last one last. -/
theorem put_left_put_right (h : Spans o l o' l') (ho : o + 4 ≤ data.size)
    (ho' : o' + 4 ≤ data.size) :
    put .left v o' l' (put .right v o l data) = setWord data (o + l) v := by
  obtain ⟨hfirst, hlast, hlength, hnext⟩ := h
  have hsize := size_put v .right o l data
  refine ext_of_byteAt (by rw [size_put, hsize, (local_setWord _ _).size]) fun j => ?_
  -- where both write they write the same byte, and together they write the four
  rw [byteAt_put_left _ (by omega) hlast, byteAt_put_right _ ho hfirst,
    byteAt_setWord _ (by omega)]
  grind

/-- Both merges of a word store it, the bytes from the first one on last. -/
theorem put_right_put_left (h : Spans o l o' l') (ho : o + 4 ≤ data.size)
    (ho' : o' + 4 ≤ data.size) :
    put .right v o l (put .left v o' l' data) = setWord data (o + l) v := by
  obtain ⟨hfirst, hlast, hlength, hnext⟩ := h
  have hsize := size_put v .left o' l' data
  refine ext_of_byteAt (by rw [size_put, hsize, (local_setWord _ _).size]) fun j => ?_
  rw [byteAt_put_right _ (by omega) hfirst, byteAt_put_left _ ho' hlast,
    byteAt_setWord _ (by omega)]
  grind

theorem loadRight_loadLeft (h : Spans o l o' l') :
    loadRight (loadLeft reg (wordAt data o') l'.toUInt32) (wordAt data o) l.toUInt32 =
      wordAt data (o + l) := by
  obtain ⟨hfirst, hlast, hlength, hnext⟩ := h
  refine word_ext fun k hk => ?_
  rw [byteOf_loadRight _ _ hfirst hk, byteOf_loadLeft _ _ hlast hk, byteOf_wordAt _ _ hk]
  by_cases hright : k + l < 4
  · have hplace : o + (k + l) = o + l + k := by omega
    rw [if_pos hright, byteOf_wordAt _ _ hright, hplace]
  · have hplace : o' + (k + l' - 3) = o + l + k := by omega
    rw [if_neg hright, if_pos (by omega), byteOf_wordAt _ _ (by omega), hplace]

theorem loadLeft_loadRight (h : Spans o l o' l') :
    loadLeft (loadRight reg (wordAt data o) l.toUInt32) (wordAt data o') l'.toUInt32 =
      wordAt data (o + l) := by
  obtain ⟨hfirst, hlast, hlength, hnext⟩ := h
  refine word_ext fun k hk => ?_
  rw [byteOf_loadLeft _ _ hlast hk, byteOf_loadRight _ _ hfirst hk, byteOf_wordAt _ _ hk]
  by_cases hleft : 3 ≤ k + l'
  · have hplace : o' + (k + l' - 3) = o + l + k := by omega
    rw [if_pos hleft, byteOf_wordAt _ _ (by omega), hplace]
  · have hplace : o + (k + l) = o + l + k := by omega
    rw [if_neg hleft, if_pos (by omega), byteOf_wordAt _ _ (by omega), hplace]

end Bytes

/-! ## Words in guest memory -/

theorem lane_eq (addr : UInt32) : lane addr = (addr.toNat % 4).toUInt32 := by
  apply UInt32.toNat_inj.mp
  rw [lane, toNat_and_three, UInt32.toNat_ofNat_of_lt' (by rw [UInt32.size]; omega)]

theorem lane_eq_zero_iff (addr : UInt32) : lane addr = 0 ↔ addr.toNat % 4 = 0 := by
  rw [← UInt32.toNat_inj, lane, toNat_and_three]
  rfl

/-- Bytes are counted from the word around an address as well as from the address. -/
theorem aligned_add (addr : UInt32) (k : Nat) :
    aligned addr + (addr.toNat % 4 + k).toUInt32 = addr + k.toUInt32 := by
  apply UInt32.toNat_inj.mp
  rw [UInt32.toNat_add, UInt32.toNat_add, aligned, toNat_and_aligned]
  simp only [Nat.toUInt32_eq, UInt32.toNat_ofNat']
  omega

namespace Memory

variable {δ : Type} {m : Memory δ} {a base : UInt32} {region offset : Nat}

/-- The word at `base` lies in writable memory: its bytes are those of `region` from `offset` on. -/
structure HoldsWord (m : Memory δ) (base : UInt32) (region offset : Nat) : Prop where
  direct : ∀ k < 4, m.layout.direct? (base + k.toUInt32) = some (region, offset + k)
  writable : m.layout.isReadOnly region = false
  fits : ∃ data, m.bytes? region = some data ∧ offset + 4 ≤ data.size

/-- The words around the four bytes from `a` on lie in writable memory: one word, or one behind the
other. -/
structure HoldsAround (m : Memory δ) (a : UInt32) (region offset : Nat) : Prop where
  first : m.HoldsWord (aligned a) region offset
  last : m.HoldsWord (aligned (a + 3)) region (if lane a = 0 then offset else offset + 4)

variable {data : ByteArray}

theorem HoldsWord.fits_of (h : m.HoldsWord base region offset)
    (hdata : m.bytes? region = some data) : offset + 4 ≤ data.size := by
  obtain ⟨data', hdata', hfits⟩ := h.fits
  rwa [Option.some.inj (hdata.symm.trans hdata')]

theorem HoldsWord.sameExcept {W : Nat → Nat → Prop} {m' : Memory δ}
    (h : m.HoldsWord base region offset) (hsame : m.SameExcept W m') :
    m'.HoldsWord base region offset := by
  refine ⟨fun k hk => ?_, ?_, ?_⟩
  · rw [hsame.layout]
    exact h.direct k hk
  · rw [hsame.layout]
    exact h.writable
  · obtain ⟨data, hdata, hsize⟩ := h.fits
    have hsizes := hsame.size region
    rw [size?_eq_map, size?_eq_map, hdata] at hsizes
    obtain ⟨data', hdata', heq⟩ := Option.map_eq_some_iff.mp hsizes
    exact ⟨data', hdata', by rw [heq]; exact hsize⟩

theorem HoldsAround.sameExcept {W : Nat → Nat → Prop} {m' : Memory δ}
    (h : m.HoldsAround a region offset) (hsame : m.SameExcept W m') :
    m'.HoldsAround a region offset :=
  ⟨h.first.sameExcept hsame, h.last.sameExcept hsame⟩

/-- An address is where its word is, moved by its lane. -/
theorem HoldsWord.direct_self {addr : UInt32} (h : m.HoldsWord (aligned addr) region offset) :
    m.layout.direct? addr = some (region, offset + addr.toNat % 4) := by
  have hself := aligned_add addr 0
  rw [Nat.add_zero, show Nat.toUInt32 0 = 0 from rfl, UInt32.add_zero] at hself
  rw [← h.direct (addr.toNat % 4) (by omega), hself]

theorem spans_lanes (a : UInt32) (offset : Nat) :
    Bytes.Spans offset (a.toNat % 4) (if lane a = 0 then offset else offset + 4)
      ((a + 3).toNat % 4) := by
  have hsum : (a + 3).toNat = (a.toNat + 3) % 4294967296 := UInt32.toNat_add a 3
  constructor
  · omega
  · omega
  · split
    · rename_i hzero
      rw [lane_eq_zero_iff] at hzero
      omega
    · rename_i hpos
      rw [lane_eq_zero_iff] at hpos
      omega
  · split
    · exact .inl rfl
    · exact .inr rfl

/-- The four bytes from an address on stand one behind the other. -/
theorem HoldsAround.direct (h : m.HoldsAround a region offset) {k : Nat} (hk : k < 4) :
    m.layout.direct? (a + k.toUInt32) = some (region, offset + a.toNat % 4 + k) := by
  by_cases hlane : a.toNat % 4 + k < 4
  · rw [← aligned_add, h.first.direct _ hlane, Nat.add_assoc]
  · -- the byte stands in the second word, which is counted from the last byte
    have hne : ¬ lane a = 0 := by
      rw [lane_eq_zero_iff]
      omega
    have hlast := h.last.direct (a.toNat % 4 + k - 4) (by omega)
    have haddr : aligned (a + 3) + (a.toNat % 4 + k - 4).toUInt32 = a + k.toUInt32 := by
      apply UInt32.toNat_inj.mp
      rw [UInt32.toNat_add, UInt32.toNat_add, aligned, toNat_and_aligned, UInt32.toNat_add]
      simp only [Nat.toUInt32_eq, UInt32.toNat_ofNat', UInt32.reduceToNat]
      omega
    have hplace : offset + 4 + (a.toNat % 4 + k - 4) = offset + a.toNat % 4 + k := by omega
    rw [haddr, if_neg hne, hplace] at hlast
    exact hlast

/-- The byte of memory behind an address. -/
def byte? (m : Memory δ) (addr : UInt32) : Option UInt8 :=
  (m.layout.direct? addr).bind fun place =>
    (m.bytes? place.1).map fun data => Bytes.byteAt data place.2

/-- The four bytes from `a` on are those of `w`, the lowest first. -/
def HasWord (m : Memory δ) (a w : UInt32) : Prop :=
  ∀ k < 4, m.byte? (a + k.toUInt32) = some (Bytes.byteOf w k)

theorem HasWord.eq {v w : UInt32} (hv : m.HasWord a v) (hw : m.HasWord a w) : v = w :=
  Bytes.word_ext fun k hk => Option.some.inj ((hv k hk).symm.trans (hw k hk))

/-- The four bytes fit. -/
theorem HoldsAround.fits (h : m.HoldsAround a region offset) :
    ∃ data, m.bytes? region = some data ∧ offset + a.toNat % 4 + 4 ≤ data.size := by
  obtain ⟨data, hdata, hfits⟩ := h.last.fits
  obtain ⟨-, hlast, hlength, -⟩ := spans_lanes a offset
  exact ⟨data, hdata, by omega⟩

theorem HoldsAround.hasWord (h : m.HoldsAround a region offset)
    (hdata : m.bytes? region = some data) :
    m.HasWord a (Bytes.wordAt data (offset + a.toNat % 4)) := by
  intro k hk
  rw [byte?, h.direct hk, Bytes.byteOf_wordAt _ _ hk]
  show (m.bytes? region).map _ = _
  rw [hdata]
  rfl

theorem modifyBytes_congr {f g : ByteArray → ByteArray} (hdata : m.bytes? region = some data)
    (h : f data = g data) :
    m.modifyBytes region f = m.modifyBytes region g := by
  unfold modifyBytes
  congr 1
  apply Array.ext_getElem?
  intro i
  simp only [Array.getElem?_modify]
  split
  · rename_i hi
    subst hi
    unfold bytes? at hdata
    split at hdata
    · rename_i hcontents
      cases hdata
      rw [hcontents]
      exact congrArg (fun data => some (Contents.bytes data)) h
    · cases hdata
  · rfl

theorem device?_modifyBytes (m : Memory δ) (region i : Nat) (f : ByteArray → ByteArray) :
    (m.modifyBytes region f).device? i = m.device? i := by
  unfold device? modifyBytes
  dsimp only
  rw [Array.getElem?_modify]
  by_cases hi : region = i
  · rw [if_pos hi]
    cases m.contents[i]? with
    | none => rfl
    | some content => cases content <;> rfl
  · rw [if_neg hi]

end Memory

/-- The places of the four bytes from `a` on. -/
def Layout.Covers (l : Layout) (a : UInt32) (i k : Nat) : Prop :=
  ∃ j < 4, l.direct? (a + j.toUInt32) = some (i, k)

/-! ## Merging accesses -/

/-- A memory instruction and the value of its base register. -/
structure MemoryOp where
  instr : Instruction
  base : UInt32

/-- The instruction makes an access of this kind to `addr`. -/
def MemoryOp.Reaches (op : MemoryOp) (kind : MemoryAccess) (addr : UInt32) : Prop :=
  op.instr.memoryAccess? = some kind ∧ op.base + op.instr.simm = addr

instance (op : MemoryOp) (kind : MemoryAccess) (addr : UInt32) : Decidable (op.Reaches kind addr) :=
  inferInstanceAs (Decidable (_ ∧ _))

namespace Machine

variable {δ κ : Type} {m m' m'' : Machine δ κ} {memory memory' : Memory δ}

/-- `m'` is `m` with other memory, apart from the entries of code and the log. -/
structure Wrote (m : Machine δ κ) (memory : Memory δ) (m' : Machine δ κ) : Prop where
  memory : m'.memory = memory
  rest : { m' with memory := m.memory, entries := m.entries, log := m.log } = m

theorem Wrote.trans (h : m.Wrote memory m') (h' : m'.Wrote memory' m'') : m.Wrote memory' m'' := by
  refine ⟨h'.memory, ?_⟩
  rw [← h'.rest] at h
  exact h.rest

theorem wrote_invalidateByGuest (m : Machine δ κ) (memory : Memory δ) (addr length : UInt32) :
    m.Wrote memory ({ m with memory }.invalidateByGuest addr length) := by
  unfold invalidateByGuest
  split <;> exact ⟨rfl, rfl⟩

variable [Device δ] {region offset : Nat} {addr : UInt32} {data : ByteArray}

theorem loadAligned_of_holdsWord (h : m.memory.HoldsWord (aligned addr) region offset)
    (hdata : m.memory.bytes? region = some data) (word : UInt32) :
    ∃ r, m.loadAligned word addr = (.ok (r, Bytes.wordAt data offset), m) ∧ r.kind = .direct ∧
      r.index = region ∧ r.offset.toNat = offset := by
  have hdirect := h.direct 0 (by omega)
  rw [show Nat.toUInt32 0 = 0 from rfl, UInt32.add_zero, Nat.add_zero] at hdirect
  obtain ⟨r, hr, hkind, hindex, hoffset⟩ := Layout.resolve_of_direct? hdirect
  have hfits := h.fits_of hdata
  refine ⟨r, ?_, hkind, hindex, hoffset⟩
  have hload : m.load r word (aligned addr) .word = (.ok (Bytes.wordAt data offset), m) := by
    unfold load
    rw [hkind, hindex, hdata, hoffset]
    exact if_pos hfits
  unfold loadAligned
  rw [hr]
  dsimp only
  rw [hload]

theorem mergedLoad_of_holdsWord (h : m.memory.HoldsWord (aligned addr) region offset)
    (hdata : m.memory.bytes? region = some data) (kind : RegionKind) (word value : UInt32)
    (merge : UInt32 → UInt32 → UInt32 → UInt32) :
    m.mergedLoad kind word addr value merge =
      (.ok (merge value (Bytes.wordAt data offset) (lane addr), kind), m) := by
  obtain ⟨r, hload, -⟩ := loadAligned_of_holdsWord h hdata word
  unfold mergedLoad
  rw [hload]

theorem mergedStore_of_holdsWord (h : m.memory.HoldsWord (aligned addr) region offset)
    (hdata : m.memory.bytes? region = some data) (kind : RegionKind) (word value : UInt32)
    (merge : UInt32 → UInt32 → UInt32 → UInt32) :
    ∃ m', m.mergedStore kind word addr value merge = (.ok (0, kind), m') ∧
      m.Wrote (m.memory.modifyBytes region fun data =>
        Bytes.setWord data offset (merge value (Bytes.wordAt data offset) (lane addr))) m' := by
  obtain ⟨r, hload, hkind, hindex, hoffset⟩ := loadAligned_of_holdsWord h hdata word
  have hfits := h.fits_of hdata
  have hsize : m.memory.size? region = some data.size := by
    rw [Memory.size?_eq_map, hdata]
    rfl
  have hstore (value : UInt32) : m.store r word (aligned addr) .word value =
      (none, { m with
        memory := m.memory.modifyBytes region (Bytes.setWord · offset value)
      }.invalidateByGuest r.paddr 4) := by
    unfold store
    rw [hkind, hindex, h.writable, hsize, hoffset]
    exact if_pos hfits
  -- the merged word is that of the bytes the write meets
  have hmemory : m.memory.modifyBytes region
        (Bytes.setWord · offset (merge value (Bytes.wordAt data offset) (lane addr))) =
      m.memory.modifyBytes region fun data =>
        Bytes.setWord data offset (merge value (Bytes.wordAt data offset) (lane addr)) :=
    Memory.modifyBytes_congr hdata rfl
  unfold mergedStore
  rw [hload]
  dsimp only
  rw [hstore, hmemory]
  exact ⟨_, rfl, wrote_invalidateByGuest m _ r.paddr 4⟩

variable [Coprocessor κ] {op : MemoryOp}

theorem transfer_load (s : Unaligned.Side) (hop : op.Reaches s.loadAccess addr)
    (h : m.memory.HoldsWord (aligned addr) region offset)
    (hdata : m.memory.bytes? region = some data) (reg : UInt32) :
    m.transfer op.instr op.base reg =
      { value := s.load reg (Bytes.wordAt data offset) (addr.toNat % 4).toUInt32
        kind := some .direct, machine := m } := by
  obtain ⟨hkind, rfl⟩ := hop
  -- the address is looked up before its word is, only for the kind of memory
  obtain ⟨r, hr, hdirect, -⟩ := Layout.resolve_of_direct? h.direct_self
  have haccess : m.access s.loadAccess op.instr.word (op.base + op.instr.simm) reg =
      m.mergedLoad .direct op.instr.word (op.base + op.instr.simm) reg s.load := by
    unfold access
    rw [hr, ← hdirect]
    cases s <;> rfl
  rw [mergedLoad_of_holdsWord h hdata, lane_eq] at haccess
  rw [transfer_of_some hkind]
  cases s with
  | left => exact congrArg (deliver op.instr .lwl) haccess
  | right => exact congrArg (deliver op.instr .lwr) haccess

theorem wrote_transfer (s : Unaligned.Side) (hop : op.Reaches s.storeAccess addr)
    (h : m.memory.HoldsWord (aligned addr) region offset) (v : UInt32) :
    m.Wrote (m.memory.modifyBytes region (Bytes.put s v offset (addr.toNat % 4)))
      (m.transfer op.instr op.base v).machine := by
  obtain ⟨hkind, rfl⟩ := hop
  obtain ⟨r, hr, hdirect, -⟩ := Layout.resolve_of_direct? h.direct_self
  obtain ⟨data, hdata, -⟩ := h.fits
  have haccess : m.access s.storeAccess op.instr.word (op.base + op.instr.simm) v =
      m.mergedStore .direct op.instr.word (op.base + op.instr.simm) v s.store := by
    unfold access
    rw [hr, ← hdirect]
    cases s <;> rfl
  obtain ⟨m', hstore, hwrote⟩ := mergedStore_of_holdsWord h hdata .direct op.instr.word v s.store
  have hstored := haccess.trans hstore
  have htransfer : (m.transfer op.instr op.base v).machine = m' := by
    rw [transfer_of_some hkind]
    cases s with
    | left => exact congrArg (fun answer => (deliver op.instr .swl answer).machine) hstored
    | right => exact congrArg (fun answer => (deliver op.instr .swr answer).machine) hstored
  rw [htransfer]
  rw [lane_eq] at hwrote
  exact hwrote

/-! ## Pairs -/

/-- Two stores of one register. -/
def storeBoth (m : Machine δ κ) (first second : MemoryOp) (v : UInt32) : Machine δ κ :=
  ((m.transfer first.instr first.base v).machine.transfer second.instr second.base v).machine

/-- Two loads into one register, which holds `reg` at first. -/
def loadBoth (m : Machine δ κ) (first second : MemoryOp) (reg : UInt32) : Transfer δ κ :=
  (m.transfer first.instr first.base reg).machine.transfer second.instr second.base
    (m.transfer first.instr first.base reg).value

/-- The four bytes from `a` on are those of `v`, and nothing else is changed: no other byte of
memory, no device and, entries of code and the log apart, no other part of the machine. -/
structure Stored (m : Machine δ κ) (a v : UInt32) (m' : Machine δ κ) : Prop where
  word : m'.memory.HasWord a v
  bytes : m.memory.SameExcept (m.memory.layout.Covers a) m'.memory
  devices : ∀ i, m'.memory.device? i = m.memory.device? i
  rest : { m' with memory := m.memory, entries := m.entries, log := m.log } = m

variable {a : UInt32} {first second : MemoryOp}

omit [Device δ] [Coprocessor κ] in
/-- A write that puts a word where the four bytes are stores it. -/
theorem Wrote.stored (h : m.memory.HoldsAround a region offset) {v : UInt32}
    {f : ByteArray → ByteArray} (hwrote : m.Wrote (m.memory.modifyBytes region f) m')
    (hf : ∀ data : ByteArray, offset + 4 ≤ data.size →
      (if lane a = 0 then offset else offset + 4) + 4 ≤ data.size →
      f data = Bytes.setWord data (offset + a.toNat % 4) v) : m.Stored a v m' := by
  obtain ⟨data, hdata, hfits⟩ := h.fits
  obtain ⟨hmemory, hrest⟩ := hwrote
  -- from here on it is a write of one word
  have hput : m.memory.modifyBytes region f =
      m.memory.modifyBytes region (Bytes.setWord · (offset + a.toNat % 4) v) :=
    Memory.modifyBytes_congr hdata (hf data (h.first.fits_of hdata) (h.last.fits_of hdata))
  rw [hput] at hmemory
  have hsame := m.memory.sameExcept_modifyBytes region
    (Bytes.local_setWord (offset + a.toNat % 4) v)
  have hdata' := m.memory.bytes?_modifyBytes region region
    (Bytes.setWord · (offset + a.toNat % 4) v)
  rw [if_pos rfl, hdata] at hdata'
  have hword := (h.sameExcept hsame).hasWord hdata'
  rw [Bytes.wordAt_setWord data hfits] at hword
  refine ⟨?_, ?_, ?_, hrest⟩
  · rw [hmemory]
    exact hword
  · rw [hmemory]
    refine hsame.mono fun {i k} hplace => ?_
    obtain ⟨rfl, hfirst, hlast⟩ := hplace
    refine ⟨k - (offset + a.toNat % 4), by omega, ?_⟩
    rw [h.direct (by omega), Nat.add_sub_cancel' hfirst]
  · intro i
    rw [hmemory, Memory.device?_modifyBytes]

/-- Two merges into memory, one behind the other. -/
theorem wrote_storeBoth {s t : Unaligned.Side} {addr' : UInt32} {offset' : Nat}
    (hfirst : first.Reaches s.storeAccess addr) (hsecond : second.Reaches t.storeAccess addr')
    (h : m.memory.HoldsWord (aligned addr) region offset)
    (h' : m.memory.HoldsWord (aligned addr') region offset') (v : UInt32) :
    m.Wrote (m.memory.modifyBytes region fun data =>
      Bytes.put t v offset' (addr'.toNat % 4) (Bytes.put s v offset (addr.toNat % 4) data))
      (m.storeBoth first second v) := by
  have hwrote := wrote_transfer s hfirst h v
  -- the first store changes no size, so the word of the second is where it was
  have hsame := m.memory.sameExcept_modifyBytes region (Bytes.local_put v s offset (addr.toNat % 4))
  rw [← hwrote.memory] at hsame
  have hwrote' := wrote_transfer t hsecond (h'.sameExcept hsame) v
  rw [hwrote.memory, Memory.modifyBytes_modifyBytes] at hwrote'
  exact hwrote.trans hwrote'

section Pairs

variable {left right : MemoryOp} (h : m.memory.HoldsAround a region offset)
include h

theorem stored_storeBoth (hleft : left.Reaches .swl (a + 3)) (hright : right.Reaches .swr a)
    (v : UInt32) :
    m.Stored a v (m.storeBoth left right v) ∧ m.Stored a v (m.storeBoth right left v) := by
  have hspans := Memory.spans_lanes a offset
  constructor
  · have hwrote := wrote_storeBoth (s := .left) (t := .right) hleft hright h.last h.first v
    exact hwrote.stored h fun data hfits hfits' => Bytes.put_right_put_left v hspans hfits hfits'
  · have hwrote := wrote_storeBoth (s := .right) (t := .left) hright hleft h.first h.last v
    exact hwrote.stored h fun data hfits hfits' => Bytes.put_left_put_right v hspans hfits hfits'

theorem loadBoth_eq (hleft : left.Reaches .lwl (a + 3)) (hright : right.Reaches .lwr a) {w : UInt32}
    (hw : m.memory.HasWord a w) (reg : UInt32) :
    m.loadBoth left right reg = { value := w, kind := some .direct, machine := m } ∧
    m.loadBoth right left reg = { value := w, kind := some .direct, machine := m } := by
  obtain ⟨data, hdata, -⟩ := h.fits
  obtain rfl := hw.eq (h.hasWord hdata)
  have hspans := Memory.spans_lanes a offset
  have hloads (reg : UInt32) := transfer_load .left hleft h.last hdata reg
  have hloads' (reg : UInt32) := transfer_load .right hright h.first hdata reg
  unfold loadBoth
  constructor
  · rw [hloads, hloads']
    exact congrArg (Transfer.mk · _ _) (Bytes.loadRight_loadLeft reg hspans)
  · rw [hloads', hloads]
    exact congrArg (Transfer.mk · _ _) (Bytes.loadLeft_loadRight reg hspans)

end Pairs

/-- A word at any address is stored by the two merges of a pair and loaded by the two of another,
whichever comes first and whatever memory and register held. A pair of stores changes the four bytes
only, a pair of loads nothing, and what was stored is loaded again. No shift of a merge reaches the
width of a word. -/
theorem unaligned_pairs_access_word (m : Machine δ κ) {a : UInt32} {region offset : Nat}
    (h : m.memory.HoldsAround a region offset) {swl swr lwl lwr : MemoryOp}
    (hswl : swl.Reaches .swl (a + 3)) (hswr : swr.Reaches .swr a) (hlwl : lwl.Reaches .lwl (a + 3))
    (hlwr : lwr.Reaches .lwr a) :
    (∀ v, m.Stored a v (m.storeBoth swl swr v) ∧ m.Stored a v (m.storeBoth swr swl v)) ∧
    (∃ w, m.memory.HasWord a w ∧ ∀ reg,
      m.loadBoth lwl lwr reg = { value := w, kind := some .direct, machine := m } ∧
      m.loadBoth lwr lwl reg = { value := w, kind := some .direct, machine := m }) ∧
    (∀ v m' reg, m.Stored a v m' →
      (m'.loadBoth lwl lwr reg).value = v ∧ (m'.loadBoth lwr lwl reg).value = v) ∧
    ∀ (s : Unaligned.Side) (addr reg mem : UInt32),
      s.load? reg mem (lane addr) = some (s.load reg mem (lane addr)) ∧
      s.store? reg mem (lane addr) = some (s.store reg mem (lane addr)) := by
  refine ⟨fun v => stored_storeBoth h hswl hswr v, ?_, ?_, ?_⟩
  · obtain ⟨data, hdata, -⟩ := h.fits
    have hword := h.hasWord hdata
    exact ⟨_, hword, fun reg => loadBoth_eq h hlwl hlwr hword reg⟩
  · intro v m' reg hstored
    obtain ⟨hleft, hright⟩ := loadBoth_eq (h.sameExcept hstored.bytes) hlwl hlwr hstored.word reg
    rw [hleft, hright]
    exact ⟨rfl, rfl⟩
  · intro s addr reg mem
    rw [lane_eq]
    exact ⟨s.load?_eq reg mem (by omega), s.store?_eq reg mem (by omega)⟩

/-- An instruction whose base register holds an unaligned address. -/
def unalignedOp (word : UInt32) : MemoryOp := { instr := { word }, base := 0x80000005 }

/-- Three bytes stand in one word of memory and the last one in the next. -/
theorem unaligned_pairs_access_word_dirty : dirty.memory.HoldsAround 0x80000005 0 4 ∧
    dirty.Stored 0x80000005 0x12345678
      (dirty.storeBoth (unalignedOp 0xa8880003) (unalignedOp 0xb8880000) 0x12345678) ∧
    ∀ reg, ((dirty.storeBoth (unalignedOp 0xa8880003) (unalignedOp 0xb8880000) 0x12345678).loadBoth
      (unalignedOp 0x98880000) (unalignedOp 0x88880003) reg).value = 0x12345678 := by
  have hholds : dirty.memory.HoldsAround 0x80000005 0 4 :=
    ⟨⟨by decide +kernel, by decide, _, rfl, by decide⟩,
      ⟨by decide +kernel, by decide, _, rfl, by decide⟩⟩
  have hswl : (unalignedOp 0xa8880003).Reaches .swl (0x80000005 + 3) := by decide
  have hswr : (unalignedOp 0xb8880000).Reaches .swr 0x80000005 := by decide
  have hlwl : (unalignedOp 0x88880003).Reaches .lwl (0x80000005 + 3) := by decide
  have hlwr : (unalignedOp 0x98880000).Reaches .lwr 0x80000005 := by decide
  obtain ⟨hstores, -, hloads, -⟩ :=
    unaligned_pairs_access_word dirty hholds hswl hswr hlwl hlwr
  have hstored := (hstores 0x12345678).1
  exact ⟨hholds, hstored, fun reg => (hloads _ _ reg hstored).2⟩

end Machine

end Dynarec
