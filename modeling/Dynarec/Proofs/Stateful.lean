/-
  Dynarec.Proofs.Stateful

  Steps that pass a state along and may fail. A sequence of steps that succeeds
  is taken apart into its steps, and put together from them.
-/

namespace Dynarec

variable {ε σ α β : Type} {s s' s'' : σ} {x : EStateM ε σ α} {k : α → EStateM ε σ β}

/-- A sequence that succeeds has a first step that does. -/
theorem bind_ok {v : β}
    (h : (x >>= k) s = .ok v s'') : ∃ u s', x s = .ok u s' ∧ k u s' = .ok v s'' := by
  change EStateM.bind x k s = .ok v s'' at h
  unfold EStateM.bind at h
  split at h
  · rename_i u s' hx
    exact ⟨u, s', hx, h⟩
  · cases h

/-- A sequence that fails does so in its first step or behind it. -/
theorem bind_error {e : ε} (h : (x >>= k) s = .error e s'') :
    x s = .error e s'' ∨ ∃ u s', x s = .ok u s' ∧ k u s' = .error e s'' := by
  change EStateM.bind x k s = .error e s'' at h
  unfold EStateM.bind at h
  split at h
  · rename_i u s' hx
    exact .inr ⟨u, s', hx, h⟩
  · rename_i e' s' hx
    cases h
    exact .inl hx

/-- What goes on behind a check has passed it. -/
theorem check_bind_ok {p : Prop} [Decidable p] {e : ε} {k' : EStateM ε σ β} {v : β}
    (h : (if p then throw e >>= k else k') s = .ok v s') : ¬p ∧ k' s = .ok v s' := by
  split at h
  · obtain ⟨_, _, hthrow, -⟩ := bind_ok h
    cases hthrow
  · rename_i hp
    exact ⟨hp, h⟩

/-- A step that is taken on a condition only. -/
theorem when_bind_ok {p : Prop} [Decidable p] {x : EStateM ε σ Unit} {k : EStateM ε σ β} {v : β}
    (h : (if p then x >>= fun _ => k else k) s = .ok v s'') :
    ∃ s', (p ∧ x s = .ok () s' ∨ ¬p ∧ s' = s) ∧ k s' = .ok v s'' := by
  split at h
  · rename_i hp
    obtain ⟨_, s', hx, hk⟩ := bind_ok h
    exact ⟨s', .inl ⟨hp, hx⟩, hk⟩
  · rename_i hp
    exact ⟨s, .inr ⟨hp, rfl⟩, h⟩

theorem bind_eq_of_ok {v : α} (h : x s = .ok v s') : (x >>= k) s = k v s' := by
  show EStateM.bind x k s = k v s'
  rw [EStateM.bind, h]

theorem map_ok {g : α → β} {v : β} (h : (g <$> x) s = .ok v s') :
    ∃ u, x s = .ok u s' ∧ g u = v := by
  change EStateM.map g x s = .ok v s' at h
  unfold EStateM.map at h
  split at h
  · rename_i u s'' hx
    cases h
    exact ⟨u, hx, rfl⟩
  · cases h

theorem modifyGet_ok {f : σ → α × σ} {v : α} (h : (modifyGet f : EStateM ε σ α) s = .ok v s') :
    f s = (v, s') := by
  have hrun : (modifyGet f : EStateM ε σ α) s = .ok (f s).1 (f s).2 := rfl
  rw [hrun] at h
  cases h
  rfl

theorem exists_of_run' {v : α} (h : x.run' s = some v) : ∃ s', x s = .ok v s' := by
  unfold EStateM.run' at h
  cases hx : x s with
  | ok u s' =>
    rw [EStateM.run, hx] at h
    cases h
    exact ⟨s', rfl⟩
  | error e s' =>
    rw [EStateM.run, hx] at h
    cases h

end Dynarec
