/-
  Dynarec.Proofs.CompilerHealth

  The health of the code generator, told by what happened to it.

  The two counts are the length of the run of failures at the end of the history
  and the number of failures in all of it, both in 32 bits. Each event extends
  both by at most one failure, so whether the generator is disabled follows from
  whether it was and from the history up to that failure. Only enabling it again
  takes back what an earlier failure did.

  A run of failures trips the generator on its way past the limit, long before
  its count starts over, and enabling the generator ends the run. The count of
  all failures goes on, and is too low once it has started over.
-/
import Dynarec.CompilerHealth
import Mathlib.Algebra.GroupWithZero.Nat
import Mathlib.Data.List.DropRight

namespace Dynarec.CompilerHealth

/-! ## Histories -/

/-- What happens to the generator. -/
inductive Event where
  | failure (pc : UInt32)
  | success
  | reenable
deriving DecidableEq

def Event.isFailure : Event → Bool
  | .failure _ => true
  | .success | .reenable => false

variable (maxConsecutive maxTotal : UInt32)

def perform (h : CompilerHealth) : Event → CompilerHealth
  | .failure pc => (h.recordFailure pc maxConsecutive maxTotal).2
  | .success => h.recordSuccess
  | .reenable => h.reenable

/-- The health of a generator with a history. -/
def after (history : List Event) : CompilerHealth :=
  history.foldl (perform maxConsecutive maxTotal) {}

/-- Number of failures since the last success or since the generator was last enabled again. -/
def failuresInRow (history : List Event) : Nat := (history.rtakeWhile Event.isFailure).length

/-- Number of failures ever. -/
def failures (history : List Event) : Nat := history.countP Event.isFailure

/-- There are too many failures, in a row or in total. -/
def Exceeds (history : List Event) : Prop :=
  maxConsecutive.toNat ≤ failuresInRow history ∨ maxTotal.toNat ≤ failures history

/-- The counts show too many failures. -/
def CountsExceed (history : List Event) : Prop :=
  maxConsecutive ≤ (failuresInRow history).toUInt32 ∨ maxTotal ≤ (failures history).toUInt32

/-- Some failure since the generator was last enabled again was one too many, which `tooMany` says of
the history up to it. -/
def Trips (tooMany : List Event → Prop) (history : List Event) : Prop :=
  ∃ earlier pc later, history = earlier ++ .failure pc :: later ∧ .reenable ∉ later ∧
    tooMany (earlier ++ [.failure pc])

variable {maxConsecutive maxTotal} {tooMany : List Event → Prop} {history : List Event}

theorem after_concat (history : List Event) (e : Event) :
    after maxConsecutive maxTotal (history ++ [e]) =
      (after maxConsecutive maxTotal history).perform maxConsecutive maxTotal e :=
  List.foldl_concat ..

theorem failuresInRow_concat_failure (history : List Event) (pc : UInt32) :
    failuresInRow (history ++ [.failure pc]) = failuresInRow history + 1 := by
  rw [failuresInRow, List.rtakeWhile_concat_pos _ _ _ rfl, List.length_append]
  rfl

theorem failuresInRow_concat_other (history : List Event) {e : Event} (he : e.isFailure = false) :
    failuresInRow (history ++ [e]) = 0 := by
  rw [failuresInRow, List.rtakeWhile_concat_neg _ _ _ (by rw [he]; decide)]
  rfl

theorem failures_concat (history : List Event) (e : Event) :
    failures (history ++ [e]) = failures history + if e.isFailure then 1 else 0 := by
  rw [failures, List.countP_append, List.countP_singleton]
  rfl

/-- The last event trips the generator, or an earlier one did and the last does not enable it. -/
theorem trips_concat_iff (e : Event) : Trips tooMany (history ++ [e]) ↔
    e ≠ .reenable ∧ Trips tooMany history ∨ e.isFailure = true ∧ tooMany (history ++ [e]) := by
  constructor
  · rintro ⟨earlier, pc, later, heq, hlater, hexceeds⟩
    -- the failure is the last event, or the last event comes after it
    rcases List.eq_nil_or_concat later with rfl | ⟨later, e', hconcat⟩
    · obtain ⟨rfl, he⟩ := List.append_inj' heq rfl
      cases he
      exact .inr ⟨rfl, hexceeds⟩
    · rw [List.concat_eq_append] at hconcat
      subst hconcat
      rw [← List.cons_append, ← List.append_assoc] at heq
      obtain ⟨rfl, he⟩ := List.append_inj' heq rfl
      cases he
      rw [List.mem_append, List.mem_singleton, not_or] at hlater
      exact .inl ⟨Ne.symm hlater.2, earlier, pc, later, rfl, hlater.1, hexceeds⟩
  · rintro (⟨he, earlier, pc, later, rfl, hlater, hexceeds⟩ | ⟨he, hexceeds⟩)
    · refine ⟨earlier, pc, later ++ [e], by simp, ?_, hexceeds⟩
      rw [List.mem_append, List.mem_singleton, not_or]
      exact ⟨hlater, he.symm⟩
    · cases e with
      | failure pc => exact ⟨history, pc, [], rfl, List.not_mem_nil, hexceeds⟩
      | success | reenable => cases he

/-- Nothing but enabling it takes back that the generator was tripped. -/
theorem Trips.append (h : Trips tooMany history) {later : List Event}
    (hlater : .reenable ∉ later) : Trips tooMany (history ++ later) := by
  obtain ⟨earlier, pc, between, rfl, hbetween, hexceeds⟩ := h
  refine ⟨earlier, pc, between ++ later, by simp, ?_, hexceeds⟩
  rw [List.mem_append, not_or]
  exact ⟨hbetween, hlater⟩

theorem trips_of_last {pc : UInt32} (h : tooMany (history ++ [.failure pc])) :
    Trips tooMany (history ++ [.failure pc]) :=
  ⟨history, pc, [], rfl, List.not_mem_nil, h⟩

/-- Whether the counts are too high decides whether there is a reason. -/
theorem isSome_reason?_iff (h : CompilerHealth) (pc : UInt32) :
    (h.reason? pc maxConsecutive maxTotal).isSome = true ↔
      maxConsecutive ≤ h.consecutiveFailures ∨ maxTotal ≤ h.totalFailures := by
  unfold reason?
  split
  · rename_i hrow
    exact iff_of_true rfl (.inl hrow)
  · rename_i hrow
    split
    · rename_i htotal
      exact iff_of_true rfl (.inr htotal)
    · rename_i htotal
      exact iff_of_false Bool.false_ne_true (not_or.mpr ⟨hrow, htotal⟩)

/-- The health with one more failure in both counts. -/
def countFailure (h : CompilerHealth) : CompilerHealth :=
  { h with consecutiveFailures := h.consecutiveFailures + 1, totalFailures := h.totalFailures + 1 }

section Step

variable {h : CompilerHealth} {pc : UInt32}

theorem recordFailure_of_none
    (hnone : h.isDisabled = true ∨ h.countFailure.reason? pc maxConsecutive maxTotal = none) :
    h.recordFailure pc maxConsecutive maxTotal = (false, h.countFailure) := by
  unfold recordFailure
  dsimp only
  split
  · rfl
  · rename_i hdisabled
    have hreason := hnone.resolve_left hdisabled
    unfold countFailure at hreason
    rw [hreason]
    rfl

theorem recordFailure_of_some {reason : String} (hdisabled : h.isDisabled = false)
    (hreason : h.countFailure.reason? pc maxConsecutive maxTotal = some reason) :
    h.recordFailure pc maxConsecutive maxTotal =
      (true, { h.countFailure with isDisabled := true, disabledReason := some reason }) := by
  unfold recordFailure
  dsimp only
  split
  · rename_i hdisabled'
    cases hdisabled.symm.trans hdisabled'
  · unfold countFailure at hreason
    rw [hreason]
    rfl

/-- A failure is counted, and disables an enabled generator with counts that are too high then. -/
theorem recordFailure_cases (h : CompilerHealth) (pc maxConsecutive maxTotal : UInt32) :
    (h.isDisabled = true ∨ ¬ (maxConsecutive ≤ h.consecutiveFailures + 1 ∨
        maxTotal ≤ h.totalFailures + 1)) ∧
      h.recordFailure pc maxConsecutive maxTotal = (false, h.countFailure) ∨
    h.isDisabled = false ∧
      (maxConsecutive ≤ h.consecutiveFailures + 1 ∨ maxTotal ≤ h.totalFailures + 1) ∧
      ∃ reason, h.recordFailure pc maxConsecutive maxTotal =
        (true, { h.countFailure with isDisabled := true, disabledReason := some reason }) := by
  have hreason : (h.countFailure.reason? pc maxConsecutive maxTotal).isSome = true ↔
      maxConsecutive ≤ h.consecutiveFailures + 1 ∨ maxTotal ≤ h.totalFailures + 1 :=
    h.countFailure.isSome_reason?_iff pc
  cases hdisabled : h.isDisabled with
  | true => exact .inl ⟨.inl rfl, recordFailure_of_none (.inl hdisabled)⟩
  | false =>
    cases hr : h.countFailure.reason? pc maxConsecutive maxTotal with
    | none =>
      rw [hr] at hreason
      exact .inl ⟨.inr fun hexceeds => Bool.false_ne_true (hreason.mpr hexceeds),
        recordFailure_of_none (.inr hr)⟩
    | some reason =>
      rw [hr] at hreason
      exact .inr ⟨rfl, hreason.mp rfl, reason, recordFailure_of_some hdisabled hr⟩

end Step

/-! ## What a history makes of the health -/

/-- The health is what the history says. -/
structure Tracks (maxConsecutive maxTotal : UInt32) (history : List Event) (h : CompilerHealth) :
    Prop where
  consecutiveFailures : h.consecutiveFailures = (failuresInRow history).toUInt32
  totalFailures : h.totalFailures = (failures history).toUInt32
  isDisabled : h.isDisabled = true ↔ Trips (CountsExceed maxConsecutive maxTotal) history
  disabledReason : h.disabledReason.isSome = h.isDisabled

namespace Tracks

variable {h : CompilerHealth}

variable (ht : Tracks maxConsecutive maxTotal history h)
include ht

theorem failure (pc : UInt32) : Tracks maxConsecutive maxTotal (history ++ [.failure pc])
      (h.recordFailure pc maxConsecutive maxTotal).2 := by
  have hrow : h.consecutiveFailures + 1 = (failuresInRow (history ++ [.failure pc])).toUInt32 := by
    rw [failuresInRow_concat_failure, ht.consecutiveFailures]
    exact (UInt32.ofNat_add _ 1).symm
  have htotal : h.totalFailures + 1 = (failures (history ++ [.failure pc])).toUInt32 := by
    rw [failures_concat, ht.totalFailures]
    exact (UInt32.ofNat_add _ 1).symm
  have htrips : Trips (CountsExceed maxConsecutive maxTotal) (history ++ [.failure pc]) ↔
      h.isDisabled = true ∨
        (maxConsecutive ≤ h.consecutiveFailures + 1 ∨ maxTotal ≤ h.totalFailures + 1) := by
    rw [trips_concat_iff, CountsExceed, ← hrow, ← htotal, ht.isDisabled]
    simp [Event.isFailure]
  rcases h.recordFailure_cases pc maxConsecutive maxTotal with
    ⟨hstays, heq⟩ | ⟨-, hexceeds, reason, heq⟩
  · rw [heq]
    refine ⟨hrow, htotal, ?_, ht.disabledReason⟩
    show h.isDisabled = true ↔ _
    rw [htrips]
    -- counts that are too high find the generator disabled already
    refine ⟨.inl, fun hor => hor.elim id fun hexceeds => ?_⟩
    exact hstays.resolve_right fun hnot => hnot hexceeds
  · rw [heq]
    exact ⟨hrow, htotal, iff_of_true rfl (htrips.mpr (.inr hexceeds)), rfl⟩

theorem success : Tracks maxConsecutive maxTotal (history ++ [.success]) h.recordSuccess where
  consecutiveFailures := congrArg Nat.toUInt32 (failuresInRow_concat_other history rfl).symm
  totalFailures := ht.totalFailures.trans (congrArg Nat.toUInt32 (failures_concat history .success).symm)
  isDisabled := by
    show h.isDisabled = true ↔ _
    rw [trips_concat_iff, ht.isDisabled]
    simp [Event.isFailure]
  disabledReason := ht.disabledReason

theorem reenable : Tracks maxConsecutive maxTotal (history ++ [.reenable]) h.reenable where
  consecutiveFailures := congrArg Nat.toUInt32 (failuresInRow_concat_other history rfl).symm
  totalFailures := ht.totalFailures.trans (congrArg Nat.toUInt32 (failures_concat history .reenable).symm)
  isDisabled := by
    rw [trips_concat_iff]
    simp [Event.isFailure, CompilerHealth.reenable]
  disabledReason := rfl

theorem perform (e : Event) :
    Tracks maxConsecutive maxTotal (history ++ [e]) (h.perform maxConsecutive maxTotal e) := by
  cases e with
  | failure pc => exact ht.failure pc
  | success => exact ht.success
  | reenable => exact ht.reenable

end Tracks

theorem tracks_after (maxConsecutive maxTotal : UInt32) (history : List Event) :
    Tracks maxConsecutive maxTotal history (after maxConsecutive maxTotal history) := by
  induction history using List.reverseRecOn with
  | nil =>
    refine ⟨rfl, rfl, iff_of_false Bool.false_ne_true ?_, rfl⟩
    rintro ⟨earlier, pc, later, heq, -⟩
    simp at heq
  | append_singleton history e ih =>
    rw [after_concat]
    exact ih.perform e

/-! ## Counts that start over -/

/-- With the count of all failures about to start over, a generator that is enabled again is
disabled by its next failure only if a limit is one at most, and yet there are too many failures. -/
theorem isDisabled_of_count_starts_over (hall : failures history = 2 ^ 32) (pc : UInt32) :
    Trips (Exceeds maxConsecutive maxTotal) (history ++ [.reenable] ++ [.failure pc]) ∧
    ((after maxConsecutive maxTotal (history ++ [.reenable] ++ [.failure pc])).isDisabled = true ↔
      maxConsecutive ≤ 1 ∨ maxTotal ≤ 1) := by
  have htotal : failures (history ++ [.reenable] ++ [.failure pc]) = 2 ^ 32 + 1 := by
    rw [failures_concat, failures_concat, hall]
    rfl
  have hrow : failuresInRow (history ++ [.reenable] ++ [.failure pc]) = 1 := by
    rw [failuresInRow_concat_failure, failuresInRow_concat_other history rfl]
  refine ⟨trips_of_last (.inr ?_), ?_⟩
  · have := maxTotal.toNat_lt
    omega
  · have hcounts : CountsExceed maxConsecutive maxTotal
        (history ++ [.reenable] ++ [.failure pc]) ↔ maxConsecutive ≤ 1 ∨ maxTotal ≤ 1 := by
      rw [CountsExceed, hrow, htotal]
      rfl
    rw [(tracks_after ..).isDisabled, trips_concat_iff, trips_concat_iff, hcounts]
    simp [Event.isFailure]

end Dynarec.CompilerHealth
