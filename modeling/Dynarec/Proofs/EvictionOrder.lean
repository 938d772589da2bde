/-
  Dynarec.Proofs.EvictionOrder

  What a budget holds after a history, and what it gives up for new code.

  The queue of a budget is in the order of the last uses, its sizes are those
  of the last insertions and the bytes in use are the sizes in the queue. All
  of that holds after every history, by what one event does to the queue.
-/
import Dynarec.Proofs.CodeBudget
import Mathlib.Data.List.Induction

namespace Dynarec.CodeBudget

/-! ## Histories -/

/-- What happens to a budget. -/
inductive Event where
  | insert (id : CodeId) (size : Nat)
  | remove (id : CodeId)
  | touch (id : CodeId)
  | clear

/-- Whether a piece of code is used. -/
def Event.uses (id : CodeId) : Event → Bool
  | .insert used _ | .touch used => used == id
  | .remove _ | .clear => false

/-- The size that a piece of code is given. -/
def Event.sizes (id : CodeId) : Event → Option Nat
  | .insert sized size => if sized == id then some size else none
  | .remove _ | .touch _ | .clear => none

variable {M : Type} [RecencyMap M CodeId Nat] {b : CodeBudget M} {limit : Nat}

def perform (b : CodeBudget M) : Event → CodeBudget M
  | .insert id size => (b.insert id size).2
  | .remove id => (b.remove id).2
  | .touch id => b.touch id
  | .clear => b.clear

/-- A budget with a history. -/
def after (limit : Nat) (history : List Event) : CodeBudget M := history.foldl perform (empty limit)

/-- Number of events since a piece of code was last used. -/
def idle (history : List Event) (id : CodeId) : Nat := history.reverse.findIdx (Event.uses id)

/-- Size that a piece of code was last given. -/
def lastSize? (history : List Event) (id : CodeId) : Option Nat :=
  history.reverse.findSome? (Event.sizes id)

theorem lastSize?_concat (history : List Event) (e : Event) (id : CodeId) :
    lastSize? (history ++ [e]) id = (e.sizes id).or (lastSize? history id) := by
  rw [lastSize?, List.reverse_concat, List.findSome?_cons]
  cases e.sizes id <;> rfl

theorem idle_concat (history : List Event) (e : Event) (id : CodeId) :
    idle (history ++ [e]) id = if e.uses id then 0 else idle history id + 1 := by
  rw [idle, List.reverse_concat, List.findIdx_cons, cond_eq_ite]
  rfl

/-- The queue is in the order of the last uses, the oldest first. -/
def InOrder (history : List Event) (q : List (CodeId × Nat)) : Prop :=
  q.Pairwise fun x y => idle history y.1 < idle history x.1

namespace InOrder

variable {history : List Event} {e : Event} {q : List (CodeId × Nat)}

/-- What is not used stays in order. -/
theorem concat (h : InOrder history q) (hunused : ∀ x ∈ q, e.uses x.1 = false) :
    InOrder (history ++ [e]) q := by
  refine h.imp_of_mem fun {x y} hx hy hlt => ?_
  rw [idle_concat, idle_concat, hunused x hx, hunused y hy]
  simpa using hlt

/-- What is used comes last. -/
theorem concat_used {used : List (CodeId × Nat)} {id : CodeId} (h : InOrder history q)
    (hunused : ∀ x ∈ q, e.uses x.1 = false) (hused : InOrder history used)
    (hkey : ∀ x ∈ used, x.1 = id) (huses : e.uses id = true) :
    InOrder (history ++ [e]) (q ++ used) := by
  refine List.pairwise_append.mpr ⟨h.concat hunused, ?_, fun x hx y hy => ?_⟩
  · -- there is one piece of code at most
    refine hused.imp_of_mem fun {x y} hx hy hlt => ?_
    rw [hkey x hx, hkey y hy] at hlt
    exact absurd hlt (Nat.lt_irrefl _)
  · rw [idle_concat, idle_concat, hunused x hx, hkey y hy, huses]
    exact Nat.succ_pos _

end InOrder

variable [LawfulRecencyMap M CodeId Nat]

/-- What a history makes of a budget. -/
structure Tracks (limit : Nat) (history : List Event) (b : CodeBudget M) : Prop where
  balanced : b.Balanced
  limit_eq : b.limit = limit
  inOrder : InOrder history b.queue
  sizes : ∀ x ∈ b.queue, lastSize? history x.1 = some x.2

theorem Tracks.perform {history : List Event} (hb : Tracks limit history b) (e : Event) :
    Tracks limit (history ++ [e]) (b.perform e) := by
  -- what keeps its place keeps its size
  have hsizes {x : CodeId × Nat} (hx : x ∈ b.queue) (hkept : e.sizes x.1 = none) :
      lastSize? (history ++ [e]) x.1 = some x.2 := by
    rw [lastSize?_concat, hkept]
    exact hb.sizes x hx
  cases e with
  | insert id size =>
    obtain ⟨n, hins⟩ := b.exists_insert id size
    have hother {x : CodeId × Nat} (hx : x ∈ (b.queue.filter (·.1 != id)).drop n) :
        x ∈ b.queue ∧ (id == x.1) = false := by
      obtain ⟨hx, hne⟩ := List.mem_filter.mp (List.mem_of_mem_drop hx)
      exact ⟨hx, beq_eq_false_iff_ne.mpr (bne_iff_ne.mp hne).symm⟩
    refine ⟨hins.balanced hb.balanced, hins.limit.trans hb.limit_eq, ?_, ?_⟩
    · show InOrder _ (b.insert id size).2.queue
      rw [hins.queue]
      -- the oldest are dropped, and the new one comes last
      refine InOrder.concat_used (hb.inOrder.filter _).drop (fun x hx => (hother hx).2)
        (List.pairwise_singleton _ _) ?_ (beq_self_eq_true id)
      intro x hx
      rw [List.mem_singleton.mp hx]
    · show ∀ x ∈ (b.insert id size).2.queue, _
      rw [hins.queue]
      intro x hx
      rcases List.mem_append.mp hx with hx | hx
      · refine hsizes (hother hx).1 ?_
        simp [Event.sizes, (hother hx).2]
      · rw [List.mem_singleton.mp hx, lastSize?_concat]
        simp [Event.sizes]
  | remove id =>
    refine ⟨hb.balanced.remove id, ?_, ?_, ?_⟩
    · show (b.remove id).2.limit = limit
      rw [remove_eq]
      exact hb.limit_eq
    · show InOrder _ (b.remove id).2.queue
      rw [queue_remove]
      -- nothing is used by this
      exact InOrder.concat (hb.inOrder.filter _) fun _ _ => rfl
    · show ∀ x ∈ (b.remove id).2.queue, _
      rw [queue_remove]
      exact fun x hx => hsizes (List.mem_filter.mp hx).1 rfl
  | touch id =>
    refine ⟨hb.balanced.touch id, hb.limit_eq, ?_, ?_⟩
    · show InOrder _ (b.touch id).queue
      rw [queue_touch]
      refine InOrder.concat_used (hb.inOrder.filter _) ?_ (hb.inOrder.filter _) ?_
        (beq_self_eq_true id)
      · intro x hx
        exact beq_eq_false_iff_ne.mpr (bne_iff_ne.mp (List.mem_filter.mp hx).2).symm
      · intro x hx
        exact beq_iff_eq.mp (List.mem_filter.mp hx).2
    · show ∀ x ∈ (b.touch id).queue, _
      rw [queue_touch]
      intro x hx
      rcases List.mem_append.mp hx with hx | hx
      · exact hsizes (List.mem_filter.mp hx).1 rfl
      · exact hsizes (List.mem_filter.mp hx).1 rfl
  | clear =>
    have hqueue : (b.perform .clear).queue = [] := b.queue_clear
    refine ⟨b.balanced_clear, hb.limit_eq, ?_, ?_⟩
    · rw [hqueue]
      exact .nil
    · rw [hqueue]
      exact fun x hx => by cases hx

theorem tracks_after (limit : Nat) (history : List Event) :
    Tracks limit history (after limit history : CodeBudget M) := by
  induction history using List.reverseRecOn with
  | nil =>
    have hqueue : (after limit [] : CodeBudget M).queue = [] := queue_empty limit
    refine ⟨balanced_empty limit, rfl, ?_, ?_⟩
    · rw [hqueue]
      exact .nil
    · rw [hqueue]
      exact fun x hx => by cases hx
  | append_singleton history e ih =>
    rw [after, List.foldl_append]
    exact ih.perform e

/-- After every history a budget is a queue of code in the order of the last uses, with the sizes of
the last insertions, and the bytes in use are those of the queue. New code takes the place of old code
with the same name, and the fewest others make room for it that can, the longest unused first. Code
never makes room for itself, and then the limit is kept unless the code is alone. That is so for every
lawful map that the budget can keep its sizes in. -/
theorem insert_evicts_least_recently_used (limit : Nat) (history : List Event) (id : CodeId)
    (size : Nat) :
    let b : CodeBudget M := after limit history
    let others := b.queue.filter fun x => x.1 != id
    let evicted := (b.insert id size).1
    let b' := (b.insert id size).2
    (∀ k, b.contains k = true ↔ ∃ s, (k, s) ∈ b.queue) ∧
    (∀ k s, (k, s) ∈ b.queue → lastSize? history k = some s) ∧
    b.queue.Pairwise (fun x y => idle history y.1 < idle history x.1) ∧
    b.usage = total b.queue ∧
    (∃ n, MakesRoom limit size others n ∧ evicted = (others.take n).map Prod.fst ∧
      b'.queue = others.drop n ++ [(id, size)]) ∧
    id ∉ evicted ∧ (limit ≠ 0 ∨ evicted = []) ∧
    (limit = 0 ∨ b'.queue = [(id, size)] ∨ b'.usage ≤ limit) ∧
    (b.remove id).2.queue = others ∧
    (b.touch id).queue = others ++ b.queue.filter (fun x => x.1 == id) ∧ b.clear.queue = [] := by
  intro b others evicted b'
  have hb : Tracks limit history b := tracks_after limit history
  obtain ⟨n, hins⟩ := b.exists_insert id size
  have hroom := hins.makesRoom hb.balanced
  rw [hb.limit_eq] at hroom
  refine ⟨fun k => ?_, fun k s hmem => hb.sizes (k, s) hmem, hb.inOrder, hb.balanced,
    ⟨n, hroom, hins.evicted, hins.queue⟩, ?_, ?_, ?_, b.queue_remove id, b.queue_touch id,
    b.queue_clear⟩
  · simp [contains_eq, List.any_eq_true]
  · show id ∉ (b.insert id size).1
    rw [hins.evicted, List.mem_map]
    rintro ⟨x, hx, hkey⟩
    have hother := (List.mem_filter.mp (List.mem_of_mem_take hx)).2
    exact bne_iff_ne.mp hother hkey
  · by_cases hlimit : limit = 0
    · -- a single one that goes would need a limit
      have hzero : n = 0 := Nat.eq_zero_of_not_pos fun hpos => (hroom.least 0 hpos).1 hlimit
      right
      show (b.insert id size).1 = []
      rw [hins.evicted, hzero]
      rfl
    · exact .inl hlimit
  · have husage : b'.usage = total (others.drop n) + size := by
      rw [hins.balanced hb.balanced, hins.queue, total_append]
      rfl
    refine hroom.enough.imp_right (Or.symm ∘ .imp (fun hfits => husage ▸ hfits) fun hall => ?_)
    show (b.insert id size).2.queue = [(id, size)]
    rw [hins.queue, hall, List.drop_length]
    rfl

theorem queue_after_insert {history : List Event} {q : List (CodeId × Nat)} {n : Nat}
    (hq : (after limit history : CodeBudget M).queue = q) (id : CodeId) (size : Nat)
    (hroom : MakesRoom limit size (q.filter (·.1 != id)) n) :
    (after limit (history ++ [.insert id size]) : CodeBudget M).queue =
      (q.filter (·.1 != id)).drop n ++ [(id, size)] := by
  have hb : Tracks limit history (after limit history : CodeBudget M) := tracks_after limit history
  subst hq
  rw [after, List.foldl_append]
  refine (insert_of_makesRoom hb.balanced ?_).queue
  rw [hb.limit_eq]
  exact hroom

/-- The code that was inserted first and used again is at the end. -/
theorem queue_after_touched :
    (after 100 [.insert 1 40, .insert 2 40, .touch 1] : CodeBudget M).queue = [(2, 40), (1, 40)] := by
  have h0 : (after 100 [] : CodeBudget M).queue = [] := queue_empty 100
  have h1 := queue_after_insert (n := 0) h0 1 40 (by decide)
  have h2 := queue_after_insert (n := 0) h1 2 40 (by decide)
  refine (queue_touch (after 100 [.insert 1 40, .insert 2 40]) 1).trans ?_
  rw [show (after 100 [.insert 1 40, .insert 2 40] : CodeBudget M).queue = _ from h2]
  decide

/-- Of two pieces of code that fill the budget the one that was inserted first is used again, so the
other one goes. -/
theorem insert_evicts_least_recently_used_touched :
    let b : CodeBudget (RecencyList CodeId Nat) := after 100 [.insert 1 40, .insert 2 40, .touch 1]
    b.queue = [(2, 40), (1, 40)] ∧ (b.insert 3 40).1 = [2] ∧
      (b.insert 3 40).2.queue = [(1, 40), (3, 40)] := by
  intro b
  have hb : b.queue = [(2, 40), (1, 40)] := queue_after_touched
  obtain ⟨-, -, -, -, ⟨n, hroom, hevicted, hqueue⟩, -⟩ :=
    insert_evicts_least_recently_used (M := RecencyList CodeId Nat) 100
      [.insert 1 40, .insert 2 40, .touch 1] 3 40
  rw [queue_after_touched] at hroom hevicted hqueue
  obtain rfl : n = 1 := hroom.unique (by decide)
  exact ⟨hb, hevicted, hqueue⟩

end Dynarec.CodeBudget
