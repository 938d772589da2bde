/-
  Dynarec.CompilerHealth

  Failures of the code generator. Too many of them, in a row or in total,
  disable it until the host enables it again.
-/
import Dynarec.Notice

namespace Dynarec

/-- Counts of failures and successes, and whether the generator is disabled. Failures are counted
in 32 bits, so that the counts start over after `2 ^ 32` of them. -/
structure CompilerHealth where
  consecutiveFailures : UInt32 := 0
  totalFailures : UInt32 := 0
  isDisabled : Bool := false
  /-- Why the generator is disabled, while it is. -/
  disabledReason : Option String := none
  successes : Nat := 0
deriving DecidableEq, Inhabited

namespace CompilerHealth

/-- A block was compiled. -/
def recordSuccess (h : CompilerHealth) : CompilerHealth :=
  { h with consecutiveFailures := 0, successes := h.successes + 1 }

/-- Why the counts are too high, if they are. -/
def reason? (h : CompilerHealth) (pc maxConsecutive maxTotal : UInt32) : Option String :=
  if maxConsecutive ≤ h.consecutiveFailures then
    some (toString h.consecutiveFailures.toNat ++ " consecutive failures (last at " ++
      Text.hexWord pc ++ ")")
  else if maxTotal ≤ h.totalFailures then some (toString h.totalFailures.toNat ++ " total failures")
  else none

/-- A block could not be compiled; says whether that disabled the generator. -/
def recordFailure (h : CompilerHealth) (pc maxConsecutive maxTotal : UInt32) :
    Bool × CompilerHealth :=
  let h := { h with
    consecutiveFailures := h.consecutiveFailures + 1
    totalFailures := h.totalFailures + 1 }
  if h.isDisabled then (false, h)
  else
    match h.reason? pc maxConsecutive maxTotal with
    | some reason => (true, { h with isDisabled := true, disabledReason := some reason })
    | none => (false, h)

/-- The notice about a failure, if it disabled the generator. -/
def disabledNotice? (h : CompilerHealth) (disabled : Bool) : List Notice :=
  match disabled, h.disabledReason with
  | true, some reason => [.compilerDisabled reason]
  | _, _ => []

/-- Enable the generator again; the total stays. -/
def reenable (h : CompilerHealth) : CompilerHealth :=
  { h with isDisabled := false, disabledReason := none, consecutiveFailures := 0 }

end CompilerHealth

end Dynarec
