/-
  Dynarec.Text.Decimal

  Quotients of natural numbers as decimals with two places. The quotient is
  first rounded to 53 significant bits, as a floating point division does it;
  ties go to even, here and in the last place.
-/
import Dynarec.Text.Binary64

namespace Dynarec.Text

/-- The quotient `a / b` with two decimal places. -/
def twoPlaces (a b : Nat) : String :=
  let hundredths := roundDiv ((Binary64.quotient a b).units * 100) Binary64.one
  toString (hundredths / 100) ++ "." ++ padLeft '0' 2 (toString (hundredths % 100))

end Dynarec.Text
