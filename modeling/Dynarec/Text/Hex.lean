/-
  Dynarec.Text.Hex

  Hexadecimal digits, and padded rendering of numbers as used in listings,
  notices and reports.
-/

namespace Dynarec.Text

/-- Text with `fill` in front until it has at least `width` characters. -/
def padLeft (fill : Char) (width : Nat) (s : String) : String :=
  String.ofList (List.replicate (width - s.length) fill) ++ s

/-- Lower-case hexadecimal digits of `n`, at least `width` of them. -/
def hexDigits (width n : Nat) : String :=
  padLeft '0' width (String.ofList (Nat.toDigits 16 n))

/-- Hexadecimal digits with the marker `0x` in front. -/
def hex (width n : Nat) : String :=
  "0x" ++ hexDigits width n

/-- A 32-bit word as `0x` and eight digits. -/
def hexWord (w : UInt32) : String :=
  hex 8 w.toNat

/-- Value of a hexadecimal digit. -/
def hexValue? (c : Char) : Option Nat :=
  if '0' ≤ c ∧ c ≤ '9' then some (c.toNat - '0'.toNat)
  else if 'a' ≤ c ∧ c ≤ 'f' then some (c.toNat - 'a'.toNat + 10)
  else if 'A' ≤ c ∧ c ≤ 'F' then some (c.toNat - 'A'.toNat + 10)
  else none

/-- Decimal digits of `n`, right-aligned in a column of `width` characters. -/
def column (width n : Nat) : String :=
  padLeft ' ' width (toString n)

end Dynarec.Text
