/-
  Dynarec.Proofs.MulDiv

  Products, quotients and remainders.

  The two words of a product are all of it. For quotients one law holds without
  exception: quotient times divisor plus remainder is the dividend, as words.
  A zero divisor leaves the dividend as remainder, and the one quotient that is
  no signed word is right modulo the size of a word. Both of these are cases of
  their own, so arithmetic that gives up on them is never asked for either.
-/
import Dynarec.Instruction.Arithmetic

namespace Dynarec

/-- HI and LO as one word, HI on top. -/
def HiLo.joined (r : HiLo) : UInt64 := (r.hi.toUInt64 <<< 32) ||| r.lo.toUInt64

namespace MulDivOp

/-! ## Arithmetic that gives up -/

/-- The signed word with a value, if there is one. -/
def int32? (n : Int) : Option Int32 :=
  if (Int32.ofInt n).toInt = n then some (Int32.ofInt n) else none

/-- The signed double word with a value, if there is one. -/
def int64? (n : Int) : Option Int64 :=
  if (Int64.ofInt n).toInt = n then some (Int64.ofInt n) else none

/-- The double word with a value, if there is one. -/
def uint64? (n : Nat) : Option UInt64 :=
  if (UInt64.ofNat n).toNat = n then some (UInt64.ofNat n) else none

/-- The quotient rounded to zero, if the divisor allows one and it is a signed word. -/
def quotient? (n d : Int32) : Option Int32 :=
  if d = 0 then none else int32? (n.toInt.tdiv d.toInt)

/-- The remainder, where there is a quotient. -/
def remainder? (n d : Int32) : Option Int32 := do
  let _ ← quotient? n d
  int32? (n.toInt.tmod d.toInt)

/-- The quotient of unsigned words, if the divisor allows one. -/
def unsignedQuotient? (a b : UInt32) : Option UInt32 := if b = 0 then none else some (a / b)

/-- The remainder of unsigned words, if the divisor allows one. -/
def unsignedRemainder? (a b : UInt32) : Option UInt32 := if b = 0 then none else some (a % b)

/-- The result of the operation, if no step of it gives up. -/
def evaluate? (op : MulDivOp) (a b : UInt32) : Option HiLo :=
  let n := a.toInt32
  let d := b.toInt32
  match op with
  | .mult => do return split (← int64? (n.toInt * d.toInt)).toUInt64
  | .multu => do return split (← uint64? (a.toNat * b.toNat))
  | .div =>
    if d = 0 then some { lo := if 0 ≤ n then 0xffffffff else 1, hi := a }
    else if n = Int32.minValue ∧ d = -1 then some { lo := Int32.minValue.toUInt32, hi := 0 }
    else do return { lo := (← quotient? n d).toUInt32, hi := (← remainder? n d).toUInt32 }
  | .divu =>
    if b = 0 then some { lo := 0xffffffff, hi := a }
    else do return { lo := ← unsignedQuotient? a b, hi := ← unsignedRemainder? a b }

theorem int32?_toInt (x : Int32) : int32? x.toInt = some x := by
  rw [int32?, Int32.ofInt_toInt, if_pos rfl]

theorem int64?_toInt (x : Int64) : int64? x.toInt = some x := by
  rw [int64?, Int64.ofInt_toInt, if_pos rfl]

theorem uint64?_toNat (x : UInt64) : uint64? x.toNat = some x := by
  rw [uint64?, UInt64.ofNat_toNat, if_pos rfl]

/-! ## Products -/

/-- The two words of a double word are all of it. -/
theorem joined_split (product : UInt64) : (split product).joined = product := by
  apply UInt64.toNat_inj.mp
  have hproduct := product.toNat_lt
  have hhi : (split product).hi.toNat = product.toNat / 4294967296 := by
    rw [split, UInt64.toNat_toUInt32, UInt64.toNat_shiftRight]
    show product.toNat >>> 32 % 4294967296 = product.toNat / 4294967296
    rw [Nat.shiftRight_eq_div_pow]
    omega
  have hlo : (split product).lo.toNat = product.toNat % 4294967296 := UInt64.toNat_toUInt32 product
  have hshift : ((split product).hi.toUInt64 <<< 32).toNat = (split product).hi.toNat <<< 32 := by
    rw [UInt64.toNat_shiftLeft, UInt32.toNat_toUInt64]
    show (split product).hi.toNat <<< 32 % 18446744073709551616 = _
    rw [Nat.shiftLeft_eq]
    omega
  rw [HiLo.joined, UInt64.toNat_or, UInt32.toNat_toUInt64, hshift,
    ← Nat.shiftLeft_add_eq_or_of_lt (split product).lo.toNat_lt, Nat.shiftLeft_eq, hhi, hlo]
  omega

theorem natAbs_toInt_le (x : Int32) : x.toInt.natAbs ≤ 2147483648 := by
  have hle := x.le_toInt
  have hlt := x.toInt_lt
  omega

/-- A double word has room for the product of two signed words. -/
theorem toInt_mul_toInt64 (x y : Int32) : (x.toInt64 * y.toInt64).toInt = x.toInt * y.toInt := by
  -- at most 2 ^ 62 in size, from the least word times itself
  have hbound := Nat.mul_le_mul (natAbs_toInt_le x) (natAbs_toInt_le y)
  rw [← Int.natAbs_mul] at hbound
  rw [Int64.toInt_mul, Int32.toInt_toInt64, Int32.toInt_toInt64]
  apply Int.bmod_eq_of_le <;> omega

variable (a b : UInt32)

theorem toNat_mul_toUInt64 : (a.toUInt64 * b.toUInt64).toNat = a.toNat * b.toNat := by
  have hbound := Nat.mul_lt_mul'' a.toNat_lt b.toNat_lt
  rw [UInt64.toNat_mul, UInt32.toNat_toUInt64, UInt32.toNat_toUInt64]
  exact Nat.mod_eq_of_lt hbound

theorem toInt_joined_mult :
    (mult.apply a b).joined.toInt64.toInt = a.toInt32.toInt * b.toInt32.toInt := by
  rw [apply, joined_split]
  exact toInt_mul_toInt64 a.toInt32 b.toInt32

theorem toNat_joined_multu : (multu.apply a b).joined.toNat = a.toNat * b.toNat := by
  rw [apply, joined_split]
  exact toNat_mul_toUInt64 a b

/-! ## Quotients and remainders -/

theorem toInt32_ne_zero {b : UInt32} (hb : b ≠ 0) : b.toInt32 ≠ 0 := by
  intro h
  apply hb
  rw [← UInt32.toUInt32_toInt32 b, h]
  rfl

theorem toInt_ne_zero {b : UInt32} (hb : b ≠ 0) : b.toInt32.toInt ≠ 0 :=
  fun h => toInt32_ne_zero hb (Int32.toInt_inj.mp h)

/-- The law of division holds modulo the size of a word even if the quotient is no word. -/
theorem div_mul_add_mod (n d : Int32) : n / d * d + n % d = n := by
  apply Int32.toInt_inj.mp
  rw [Int32.toInt_add, Int32.toInt_mul, Int32.toInt_div, Int32.toInt_mod, Int.bmod_mul_bmod,
    Int.bmod_add_bmod, Int.tdiv_mul_add_tmod]
  exact n.toInt_bmod

theorem div_law : (div.apply a b).lo * b + (div.apply a b).hi = a := by
  rw [apply, signedDivide]
  split
  · rename_i hzero
    have hb : b = 0 := Decidable.byContradiction fun hb => toInt32_ne_zero hb hzero
    rw [hb, UInt32.mul_zero, UInt32.zero_add]
  · -- the same words read as unsigned
    have hlaw := congrArg Int32.toUInt32 (div_mul_add_mod a.toInt32 b.toInt32)
    rwa [Int32.toUInt32_add, Int32.toUInt32_mul, UInt32.toUInt32_toInt32,
      UInt32.toUInt32_toInt32] at hlaw

theorem divu_law : (divu.apply a b).lo * b + (divu.apply a b).hi = a := by
  rw [apply, unsignedDivide]
  split
  · rename_i hb
    rw [hb, UInt32.mul_zero, UInt32.zero_add]
  · apply UInt32.toNat_inj.mp
    rw [UInt32.toNat_add, UInt32.toNat_mul, UInt32.toNat_div, UInt32.toNat_mod, Nat.mod_add_mod,
      Nat.mul_comm, Nat.div_add_mod]
    exact Nat.mod_eq_of_lt a.toNat_lt

theorem hi_divu_lt (a : UInt32) {b : UInt32} (hb : b ≠ 0) : (divu.apply a b).hi < b := by
  rw [apply, unsignedDivide, if_neg hb]
  exact UInt32.mod_lt a (UInt32.pos_iff_ne_zero.mpr hb)

theorem toInt_hi_div (a : UInt32) {b : UInt32} (hb : b ≠ 0) :
    (div.apply a b).hi.toInt32.toInt = a.toInt32.toInt.tmod b.toInt32.toInt := by
  rw [apply, signedDivide, if_neg (toInt32_ne_zero hb)]
  exact Int32.toInt_mod a.toInt32 b.toInt32

/-- The remainder is nearer to zero than the divisor. -/
theorem natAbs_hi_div_lt (a : UInt32) {b : UInt32} (hb : b ≠ 0) :
    (div.apply a b).hi.toInt32.toInt.natAbs < b.toInt32.toInt.natAbs := by
  rw [toInt_hi_div a hb, Int.natAbs_tmod]
  exact Nat.mod_lt _ (Int.natAbs_pos.mpr (toInt_ne_zero hb))

/-- The remainder of a division with a rest has the sign of the dividend. -/
theorem sign_hi_div {a b : UInt32} (h : (div.apply a b).hi ≠ 0) :
    (div.apply a b).hi.toInt32.toInt.sign = a.toInt32.toInt.sign := by
  by_cases hb : b = 0
  · rw [hb]
    rfl
  · have hne := toInt_ne_zero h
    rw [toInt_hi_div a hb] at hne ⊢
    rw [Int.sign_tmod, if_neg]
    exact fun hdvd => hne (Int.tmod_eq_zero_of_dvd hdvd)

/-! ## No step gives up -/

theorem tdiv_fits {n d : Int32} (h : ¬ (n = Int32.minValue ∧ d = -1)) :
    (n / d).toInt = n.toInt.tdiv d.toInt := by
  by_cases hn : n = Int32.minValue
  · exact Int32.toInt_div_of_ne_right n d fun hd => h ⟨hn, hd⟩
  · exact Int32.toInt_div_of_ne_left n d hn

theorem quotient?_eq {n d : Int32} (hd : d ≠ 0) (h : ¬ (n = Int32.minValue ∧ d = -1)) :
    quotient? n d = some (n / d) := by
  rw [quotient?, if_neg hd, ← tdiv_fits h, int32?_toInt]

theorem remainder?_eq {n d : Int32} (hd : d ≠ 0) (h : ¬ (n = Int32.minValue ∧ d = -1)) :
    remainder? n d = some (n % d) := by
  rw [remainder?, quotient?_eq hd h, ← Int32.toInt_mod, int32?_toInt]
  rfl

theorem evaluate?_eq (op : MulDivOp) (a b : UInt32) : op.evaluate? a b = some (op.apply a b) := by
  cases op with
  | mult =>
    rw [evaluate?, apply, ← toInt_mul_toInt64, int64?_toInt]
    rfl
  | multu =>
    rw [evaluate?, apply, ← toNat_mul_toUInt64, uint64?_toNat]
    rfl
  | div =>
    rw [evaluate?, apply, signedDivide]
    split
    · rfl
    · rename_i hd
      split
      · -- the wrapped quotient and remainder are what the case of its own gives
        rename_i hmin
        rw [hmin.1, hmin.2]
        rfl
      · rename_i hmin
        rw [quotient?_eq hd hmin, remainder?_eq hd hmin]
        rfl
  | divu =>
    rw [evaluate?, apply, unsignedDivide]
    split
    · rfl
    · rename_i hb
      rw [unsignedQuotient?, unsignedRemainder?, if_neg hb, if_neg hb]
      rfl

/-- The words of a product are the product of the integers, signed or unsigned. Quotient and
remainder obey the law of division for every divisor; the remainder is less than a divisor that is
not zero, and a signed one has the sign of the dividend. Arithmetic without results for a zero
divisor and for what does not fit gives the same. -/
theorem results_obey_division_law (a b : UInt32) :
    (mult.apply a b).joined.toInt64.toInt = a.toInt32.toInt * b.toInt32.toInt ∧
    (multu.apply a b).joined.toNat = a.toNat * b.toNat ∧
    (div.apply a b).lo * b + (div.apply a b).hi = a ∧
    (divu.apply a b).lo * b + (divu.apply a b).hi = a ∧
    (b ≠ 0 → (divu.apply a b).hi < b ∧
      (div.apply a b).hi.toInt32.toInt.natAbs < b.toInt32.toInt.natAbs) ∧
    ((div.apply a b).hi = 0 ∨
      (div.apply a b).hi.toInt32.toInt.sign = a.toInt32.toInt.sign) ∧
    ∀ op : MulDivOp, op.evaluate? a b = some (op.apply a b) := by
  refine ⟨toInt_joined_mult a b, toNat_joined_multu a b, div_law a b, divu_law a b, ?_, ?_,
    fun op => op.evaluate?_eq a b⟩
  · intro hb
    exact ⟨hi_divu_lt a hb, natAbs_hi_div_lt a hb⟩
  · exact Decidable.or_iff_not_imp_left.mpr sign_hi_div

/-- The quotient that is no signed word. -/
theorem results_obey_division_law_unfitting :
    (0xffffffff : UInt32) ≠ 0 ∧ div.apply 0x80000000 0xffffffff = { lo := 0x80000000, hi := 0 } ∧
    (div.apply 0x80000000 0xffffffff).hi.toInt32.toInt.natAbs <
      (0xffffffff : UInt32).toInt32.toInt.natAbs :=
  ⟨by decide, by decide,
    ((results_obey_division_law 0x80000000 0xffffffff).2.2.2.2.1 (by decide)).2⟩

end MulDivOp

end Dynarec
