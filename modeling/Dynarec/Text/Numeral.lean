/-
  Dynarec.Text.Numeral

  Reading numbers that are written with digits of some base.
-/
import Dynarec.Text.Hex

namespace Dynarec.Text

/-- The number written by digits of a base, at most sixteen; there is at least one digit. -/
def digits? (base : Nat) (cs : List Char) : Option Nat :=
  if cs.isEmpty then none
  else cs.foldlM (fun n c => do
    let d ← hexValue? c
    if d < base then some (n * base + d) else none) 0

/-- A number that may have a plus sign in front. -/
def natural? (base : Nat) : List Char → Option Nat
  | '+' :: cs => digits? base cs
  | cs => digits? base cs

/-- An integer with an optional sign that is not negative: a minus sign stands only
in front of zero. -/
def nonNegative? (base : Nat) : List Char → Option Nat
  | '-' :: cs => (digits? base cs).filter (· == 0)
  | cs => natural? base cs

/-- A number in base sixteen after `0x` or `0X`, in base ten otherwise. -/
def marked? : List Char → Option Nat
  | '0' :: 'x' :: cs => natural? 16 cs
  | '0' :: 'X' :: cs => natural? 16 cs
  | cs => natural? 10 cs

/-- The number, if it is below a bound. -/
def below (bound : Nat) (n : Option Nat) : Option Nat := n.filter (· < bound)

end Dynarec.Text
