/-
  Dynarec.Instruction.Arithmetic

  Integer semantics of the guest: two-operand operations, multiply and divide,
  branch conditions, and the merges of unaligned word accesses. Interpreted and
  generated code share these functions.
-/

namespace Dynarec

/-- Two-operand integer operation. Shifts use the low five bits of the second operand. -/
inductive AluOp where
  | add | sub | and | or | xor | nor | slt | sltu | sll | srl | sra
deriving DecidableEq, Inhabited

namespace AluOp

/-- All operations. -/
def all : List AluOp := [.add, .sub, .and, .or, .xor, .nor, .slt, .sltu, .sll, .srl, .sra]

/-- One when `b` holds and zero otherwise. -/
def ofBool (b : Bool) : UInt32 := if b then 1 else 0

/-- The result of the operation on two words. -/
def apply (op : AluOp) (a b : UInt32) : UInt32 :=
  match op with
  | .add => a + b
  | .sub => a - b
  | .and => a &&& b
  | .or => a ||| b
  | .xor => a ^^^ b
  | .nor => ~~~(a ||| b)
  | .slt => ofBool (a.toInt32 < b.toInt32)
  | .sltu => ofBool (a < b)
  | .sll => a <<< (b &&& 31)
  | .srl => a >>> (b &&& 31)
  | .sra => (a.toInt32 >>> (b &&& 31).toInt32).toUInt32

end AluOp

/-- Multiplication or division into the LO and HI registers. -/
inductive MulDivOp where
  | mult | multu | div | divu
deriving DecidableEq, Inhabited

/-- The words LO and HI receive. -/
structure HiLo where
  lo : UInt32
  hi : UInt32
deriving DecidableEq, Inhabited

namespace MulDivOp

/-- The two words of a 64-bit product. -/
def split (product : UInt64) : HiLo :=
  { lo := product.toUInt32, hi := (product >>> 32).toUInt32 }

/-- Signed quotient and remainder. A zero divisor leaves the dividend as remainder
and all ones, or one for a negative dividend, as quotient. -/
def signedDivide (a b : UInt32) : HiLo :=
  let n := a.toInt32
  let d := b.toInt32
  if d = 0 then
    { lo := if 0 ≤ n then 0xffffffff else 1, hi := a }
  else
    { lo := (n / d).toUInt32, hi := (n % d).toUInt32 }

/-- Unsigned quotient and remainder. A zero divisor leaves the dividend as remainder
and all ones as quotient. -/
def unsignedDivide (a b : UInt32) : HiLo :=
  if b = 0 then { lo := 0xffffffff, hi := a } else { lo := a / b, hi := a % b }

/-- The result of the operation on two words. -/
def apply (op : MulDivOp) (a b : UInt32) : HiLo :=
  match op with
  | .mult => split (a.toInt32.toInt64 * b.toInt32.toInt64).toUInt64
  | .multu => split (a.toUInt64 * b.toUInt64)
  | .div => signedDivide a b
  | .divu => unsignedDivide a b

end MulDivOp

/-- Condition of a branch on one or two registers. -/
inductive Condition where
  | eq | ne | lez | gtz | ltz | gez
deriving DecidableEq, Inhabited

/-- All conditions. -/
def Condition.all : List Condition := [.eq, .ne, .lez, .gtz, .ltz, .gez]

/-- Whether the condition holds; only `eq` and `ne` look at the second word. -/
def Condition.holds (c : Condition) (a b : UInt32) : Bool :=
  match c with
  | .eq => a == b
  | .ne => a != b
  | .lez => a.toInt32 ≤ 0
  | .gtz => 0 < a.toInt32
  | .ltz => a.toInt32 < 0
  | .gez => 0 ≤ a.toInt32

/-! ## Unaligned word accesses

The aligned word around an address is merged with a register. `lane` is the
position (0 to 3) of the address inside that word. -/

namespace Unaligned

/-- The low `bits` bits set, for `bits` below 32. -/
def lowMask (bits : UInt32) : UInt32 := (1 <<< bits) - 1

/-- The high `bits` bits set. -/
def highMask (bits : UInt32) : UInt32 :=
  if bits = 0 then 0 else 0xffffffff <<< (32 - bits)

/-- Register after a load of the bytes up to the lane. -/
def loadLeft (reg mem lane : UInt32) : UInt32 :=
  (reg &&& lowMask (24 - lane * 8)) ||| (mem <<< (24 - lane * 8))

/-- Register after a load of the bytes from the lane on. -/
def loadRight (reg mem lane : UInt32) : UInt32 :=
  (reg &&& highMask (lane * 8)) ||| (mem >>> (lane * 8))

/-- Memory word after a store of the bytes up to the lane. -/
def storeLeft (reg mem lane : UInt32) : UInt32 :=
  (reg >>> ((3 - lane) * 8)) ||| (mem &&& highMask (24 - lane * 8))

/-- Memory word after a store of the bytes from the lane on. -/
def storeRight (reg mem lane : UInt32) : UInt32 :=
  (reg <<< (lane * 8)) ||| (mem &&& lowMask (lane * 8))

end Unaligned

end Dynarec
