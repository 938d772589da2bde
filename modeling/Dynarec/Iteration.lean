/-
  Dynarec.Iteration

  Loops as repeated steps. A step either goes on with a new state or finishes
  with a result; `iterate` repeats it at most a given number of times and says
  which of the two happened, so a loop that has not ended yet is told apart
  from one that has.
-/

namespace Dynarec

/-- What one step of a loop leads to. -/
inductive Progress (σ ρ : Type) where
  /-- The loop goes on from this state. -/
  | running (state : σ)
  /-- The loop is over. -/
  | finished (result : ρ)

variable {σ ρ : Type}

/-- At most `fuel` steps from `state`. -/
@[specialize]
def iterate (step : σ → Progress σ ρ) : Nat → σ → Progress σ ρ
  | 0, state => .running state
  | fuel + 1, state =>
    match step state with
    | .running next => iterate step fuel next
    | .finished result => .finished result

@[simp]
theorem iterate_zero (step : σ → Progress σ ρ) (s : σ) : iterate step 0 s = .running s := rfl

theorem iterate_succ (step : σ → Progress σ ρ) (n : Nat) (s : σ) :
    iterate step (n + 1) s =
      match step s with
      | .running next => iterate step n next
      | .finished result => .finished result := rfl

/-- Steps compose: `m + n` of them are `m` and then, if the loop still runs, `n`. -/
theorem iterate_add (step : σ → Progress σ ρ) (m n : Nat) (s : σ) :
    iterate step (m + n) s =
      match iterate step m s with
      | .running next => iterate step n next
      | .finished result => .finished result := by
  induction m generalizing s with
  | zero => simp
  | succ m ih =>
    rw [Nat.add_right_comm, iterate_succ, iterate_succ]
    cases step s with
    | running next => exact ih next
    | finished result => rfl

/-- More fuel keeps a finished answer. -/
theorem iterate_finished_mono {step : σ → Progress σ ρ} {m n : Nat} {s : σ} {r : ρ}
    (h : iterate step m s = .finished r) (hmn : m ≤ n) : iterate step n s = .finished r := by
  obtain ⟨k, rfl⟩ := Nat.exists_eq_add_of_le hmn
  rw [iterate_add, h]

/-- What every step keeps, a run keeps. -/
theorem iterate_keeps {step : σ → Progress σ ρ} {P : σ → Prop}
    (hstep : ∀ {s s' : σ}, P s → step s = .running s' → P s') {n : Nat} {s s' : σ} (hs : P s)
    (h : iterate step n s = .running s') : P s' := by
  induction n generalizing s with
  | zero =>
    cases h
    exact hs
  | succ n ih =>
    rw [iterate_succ] at h
    split at h
    · rename_i next hnext
      exact ih (hstep hs hnext) h
    · cases h

/-- A number of steps that no run of the library comes close to. -/
def ampleFuel : Nat := 1152921504606846976

end Dynarec
