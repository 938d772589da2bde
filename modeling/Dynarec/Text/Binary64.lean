/-
  Dynarec.Text.Binary64

  Floating point numbers with 53 significant bits, without sign and infinity,
  in exact arithmetic. A number is a natural number of units of 2 ^ -1074, the
  gap between the least ones; every result is the number nearest to the exact
  one, and of two the one whose last bit is zero. The text of a number has the
  fewest digits that only this number is nearest to.
-/
import Dynarec.Text.Hex

namespace Dynarec.Text

/-- The natural number nearest to `a / b`, the even one of two. -/
def roundDiv (a b : Nat) : Nat :=
  let q := a / b
  let twice := 2 * (a % b)
  if twice < b then q
  else if b < twice then q + 1
  else q + q % 2

/-- A number of units of `2 ^ -1074` that has 53 significant bits. -/
structure Binary64 where
  units : Nat
deriving DecidableEq, Inhabited

namespace Binary64

/-- How many units make up one. -/
def one : Nat := 1 <<< 1074

/-- Numbers lie below this many units. -/
def limit : Nat := one <<< 1024

/-- How many of the last bits of a number of units are beyond the 53 significant ones. -/
def excess (units : Nat) : Nat := units.log2 - 52

/-- The number nearest to `a / b` units. -/
def nearest (a b : Nat) : Binary64 :=
  let unit := 1 <<< excess (a / b)
  ⟨roundDiv a (b * unit) * unit⟩

/-- The quotient of two natural numbers. -/
def quotient (a b : Nat) : Binary64 := nearest (a * one) b

def ofNat (n : Nat) : Binary64 := quotient n 1

def mul (x y : Binary64) : Binary64 := nearest (x.units * y.units) one

def div (x y : Binary64) : Binary64 := nearest (x.units * one) y.units

/-! ## Reading -/

/-- The largest power of ten is ten to this. -/
def maxPower : Nat := 308

/-- Divide by `10 ^ e`, in steps by powers of ten that are numbers. -/
def shrink (x : Binary64) (e : Nat) : Binary64 :=
  if e ≤ maxPower then x.div (ofNat (Nat.pow 10 e))
  else if x.units = 0 then x
  else shrink (x.div (ofNat (Nat.pow 10 maxPower))) (e - maxPower)
termination_by e
decreasing_by
  simp only [maxPower] at *
  omega

/-- The number `n * 10 ^ e`, which rounds `n` before it scales it, if it is not too large. -/
def ofDecimal? (n : Nat) (e : Int) : Option Binary64 :=
  let x := ofNat n
  if e < 0 then some (x.shrink e.natAbs)
  else if maxPower < e.natAbs then
    if x.units = 0 then some x else none
  else
    let y := x.mul (ofNat (Nat.pow 10 e.natAbs))
    if y.units < limit then some y else none

/-! ## Writing -/

/-- Whether `n * 10 ^ e` is a number to which `x` is nearest. -/
def isNearestTo (x : Binary64) (n : Nat) (e : Int) : Bool :=
  let gap := 1 <<< excess x.units
  let below := if x.units = gap <<< 52 ∧ 1 < gap then gap else 2 * gap
  -- all in quarters of a unit, times a power of ten
  let scale := Nat.pow 10 (-e).toNat
  let value := n * Nat.pow 10 e.toNat * (4 * one)
  let low := (4 * x.units - below) * scale
  let high := (4 * x.units + 2 * gap) * scale
  if x.units / gap % 2 = 0 then low ≤ value && value ≤ high else low < value && value < high

/-- Of the two multiples of `10 ^ e` around `x` the one nearer to it, if `x` is nearest to it. -/
def onGrid? (x : Binary64) (e : Int) : Option (Nat × Int) :=
  let a := x.units * Nat.pow 10 (-e).toNat
  let b := one * Nat.pow 10 e.toNat
  let n := roundDiv a b
  let other := if n * b ≤ a then n + 1 else n - 1
  if x.isNearestTo n e then some (n, e)
  else if x.isNearestTo other e then some (other, e)
  else none

/-- The decimal `n * 10 ^ e` with the fewest digits to which a number that is not zero is
nearest: the first on grids from coarse to fine. -/
def shortest (x : Binary64) : Nat × Int :=
  ((List.range 634).findSome? fun i : Nat => x.onGrid? (309 - i)).getD (0, 0)

/-- The text of `n * 10 ^ e`: with a point inside of or beside the digits if it stands at most
sixteen places behind the first one or four in front of it, with an exponent otherwise. -/
def layout (n : Nat) (e : Int) : String :=
  let digits := (toString n).toList
  let zeros := fun (k : Int) => List.replicate k.toNat '0'
  let whole := digits.length + e
  if 0 ≤ e ∧ whole ≤ 16 then String.ofList (digits ++ zeros e) ++ ".0"
  else if 0 < whole ∧ whole ≤ 16 then
    String.ofList (digits.take whole.toNat) ++ "." ++ String.ofList (digits.drop whole.toNat)
  else if -5 < whole ∧ whole ≤ 0 then "0." ++ String.ofList (zeros (-whole) ++ digits)
  else
    String.ofList (digits.take 1) ++
      (if digits.length = 1 then "" else "." ++ String.ofList (digits.drop 1)) ++
      (if 0 < whole then "e+" else "e") ++ toString (whole - 1)

def text (x : Binary64) : String :=
  if x.units = 0 then "0.0"
  else
    let (n, e) := x.shortest
    layout n e

end Binary64

end Dynarec.Text
