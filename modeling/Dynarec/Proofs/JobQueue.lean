/-
  Dynarec.Proofs.JobQueue

  The waiting blocks over a whole history.

  A step of the history either puts one block behind all that wait, or leaves
  some of those that wait in the order they had. So the waiting blocks stand in
  the order of the steps at which they last entered, which makes them distinct
  and the first of them the one that entered first.
-/
import Dynarec.JobQueue

namespace Dynarec.JobQueue

/-! ## Histories -/

/-- A use of the queue. -/
inductive Event where
  | submit (id : BlockId)
  | cancel (id : BlockId)
  | clear
  | next
deriving DecidableEq

def perform (q : JobQueue) : Event → JobQueue
  | .submit id => (q.submit id).2
  | .cancel id => (q.cancel id).2
  | .clear => q.clear
  | .next => q.next.2

/-- A queue with a history. -/
def after (capacity : Nat) (history : List Event) : JobQueue :=
  history.foldl perform (empty capacity)

/-- The queue before event number `k`. -/
def stage (capacity : Nat) (history : List Event) (k : Nat) : JobQueue :=
  after capacity (history.take k)

/-- A block waits whenever one is handed out. -/
def Fed (capacity : Nat) (history : List Event) : Prop :=
  ∀ k < history.length, history[k]? = some .next → (stage capacity history k).jobs ≠ []

instance (capacity : Nat) (history : List Event) : Decidable (Fed capacity history) :=
  inferInstanceAs (Decidable (∀ k < _, _))

/-- Whether the event is a request that the queue turns down. -/
def refuses (q : JobQueue) : Event → Bool
  | .submit id => !(q.submit id).1
  | .cancel _ | .clear | .next => false

/-- Number of requests that were turned down. -/
def refusals (capacity : Nat) (history : List Event) : Nat :=
  (List.range history.length).countP fun k => history[k]?.any (stage capacity history k).refuses

/-- Event number `k` lets a block wait that did not wait before. -/
def Enqueues (capacity : Nat) (history : List Event) (k : Nat) (id : BlockId) : Prop :=
  history[k]? = some (.submit id) ∧ id ∉ (stage capacity history k).jobs ∧
    ((stage capacity history k).submit id).1 = true

/-- Event number `k` hands out a block. -/
def HandsOut (capacity : Nat) (history : List Event) (k : Nat) (id : BlockId) : Prop :=
  history[k]? = some .next ∧ (stage capacity history k).next.1 = some id

/-- Of the events before number `k`, number `i` is the last that let the block wait. -/
structure EnteredBy (capacity : Nat) (history : List Event) (i k : Nat) (id : BlockId) : Prop where
  lt : i < k
  enqueues : Enqueues capacity history i id
  last : ∀ j, i < j → j < k → ¬ Enqueues capacity history j id

/-! ## One step -/

section Step

variable (q : JobQueue) (id : BlockId) (e : Event)

theorem submit_cases : id ∈ q.jobs ∧ q.submit id = (true, q) ∨
    id ∉ q.jobs ∧ q.capacity ≤ q.jobs.length ∧
      q.submit id = (false, { q with dropped := q.dropped + 1 }) ∨
    id ∉ q.jobs ∧ q.jobs.length < q.capacity ∧
      q.submit id = (true, { q with jobs := q.jobs ++ [id] }) := by
  unfold submit
  by_cases hwaits : id ∈ q.jobs
  · exact .inl ⟨hwaits, if_pos (List.contains_iff_mem.mpr hwaits)⟩
  · right
    rw [if_neg fun h => hwaits (List.contains_iff_mem.mp h)]
    by_cases hfull : q.capacity ≤ q.jobs.length
    · exact .inl ⟨hwaits, hfull, if_pos hfull⟩
    · exact .inr ⟨hwaits, by omega, if_neg hfull⟩

theorem next_cases : q.jobs = [] ∧ q.next = (none, { q with current := none }) ∨
    ∃ id rest, q.jobs = id :: rest ∧
      q.next = (some id, { q with jobs := rest, current := some id }) := by
  unfold next
  split
  · rename_i hjobs
    exact .inl ⟨hjobs, rfl⟩
  · rename_i id rest hjobs
    exact .inr ⟨id, rest, hjobs, rfl⟩

/-- A request says whether the block waits now. -/
theorem submit_iff_mem : (q.submit id).1 = true ↔ id ∈ (q.submit id).2.jobs := by
  rcases q.submit_cases id with ⟨hwaits, h⟩ | ⟨hwaits, -, h⟩ | ⟨-, -, h⟩
  · rw [h]
    exact iff_of_true rfl hwaits
  · rw [h]
    exact iff_of_false Bool.false_ne_true hwaits
  · rw [h]
    exact iff_of_true rfl List.mem_concat_self

/-- A step lets one block wait behind all others, or none that did not wait. -/
theorem jobs_perform_cases :
    (∃ id, e = .submit id ∧ id ∉ q.jobs ∧ (q.submit id).1 = true ∧ q.jobs.length < q.capacity ∧
      (q.perform e).jobs = q.jobs ++ [id]) ∨ (q.perform e).jobs.Sublist q.jobs := by
  cases e with
  | submit id =>
    rcases q.submit_cases id with ⟨-, h⟩ | ⟨-, -, h⟩ | ⟨hwaits, hroom, h⟩
    · have hjobs : (q.perform (.submit id)).jobs = q.jobs := by rw [perform, h]
      exact .inr (hjobs ▸ .refl _)
    · have hjobs : (q.perform (.submit id)).jobs = q.jobs := by rw [perform, h]
      exact .inr (hjobs ▸ .refl _)
    · exact .inl ⟨id, rfl, hwaits, by rw [h], hroom, by rw [perform, h]⟩
  | cancel id => exact .inr List.filter_sublist
  | clear => exact .inr (List.nil_sublist _)
  | next =>
    right
    rcases q.next_cases with ⟨-, h⟩ | ⟨id, rest, hjobs, h⟩
    · have hjobs : (q.perform .next).jobs = q.jobs := by rw [perform, h]
      exact hjobs ▸ .refl _
    · rw [perform, h, hjobs]
      exact List.sublist_cons_self id rest

theorem capacity_perform : (q.perform e).capacity = q.capacity := by
  cases e with
  | submit id =>
    rcases q.submit_cases id with ⟨-, h⟩ | ⟨-, -, h⟩ | ⟨-, -, h⟩ <;> rw [perform, h]
  | cancel id | clear => rfl
  | next =>
    rcases q.next_cases with ⟨-, h⟩ | ⟨id, rest, -, h⟩ <;> rw [perform, h]

theorem dropped_perform : (q.perform e).dropped = q.dropped + if q.refuses e then 1 else 0 := by
  cases e with
  | submit id =>
    rcases q.submit_cases id with ⟨-, h⟩ | ⟨-, -, h⟩ | ⟨-, -, h⟩ <;> rw [perform, refuses, h] <;> simp
  | cancel id | clear => exact (UInt64.add_zero _).symm
  | next =>
    rcases q.next_cases with ⟨-, h⟩ | ⟨id, rest, -, h⟩ <;> rw [perform, h] <;>
      exact (UInt64.add_zero _).symm

/-- Only a block that is handed out becomes the current one. -/
theorem current_perform (he : e ≠ .next) : (q.perform e).current = q.current := by
  cases e with
  | submit id =>
    rcases q.submit_cases id with ⟨-, h⟩ | ⟨-, -, h⟩ | ⟨-, -, h⟩ <;> rw [perform, h]
  | cancel id | clear => rfl
  | next => exact absurd rfl he

end Step

/-- A request for a block that waits, or without room for it, changes the count at most. -/
theorem submit_of_mem_or_full {q : JobQueue} {id : BlockId}
    (h : id ∈ q.jobs ∨ q.capacity ≤ q.jobs.length) :
    (q.submit id).2 = { q with dropped := (q.submit id).2.dropped } := by
  rcases q.submit_cases id with ⟨-, hsubmit⟩ | ⟨-, -, hsubmit⟩ | ⟨hwaits, hroom, -⟩
  · rw [hsubmit]
  · rw [hsubmit]
  · rcases h with hmem | hfull
    · exact absurd hmem hwaits
    · omega

theorem submit_of_room {q : JobQueue} {id : BlockId} (hwaits : id ∉ q.jobs)
    (hroom : q.jobs.length < q.capacity) :
    (q.submit id).2 = { q with jobs := q.jobs ++ [id] } := by
  rcases q.submit_cases id with ⟨hmem, -⟩ | ⟨-, hfull, -⟩ | ⟨-, -, hsubmit⟩
  · exact absurd hmem hwaits
  · omega
  · rw [hsubmit]

/-! ## The steps of a history -/

section History

variable {capacity : Nat} {history : List Event} {i j k : Nat} {id : BlockId} {e : Event}

theorem stage_succ (h : history[k]? = some e) :
    stage capacity history (k + 1) = (stage capacity history k).perform e := by
  rw [stage, after, List.take_add_one, h, List.foldl_append]
  rfl

theorem stage_length : stage capacity history history.length = after capacity history := by
  rw [stage, List.take_length]

/-- Every number before the end is that of an event. -/
theorem exists_event (hk : k < history.length) : ∃ e, history[k]? = some e :=
  ⟨_, List.getElem?_eq_getElem hk⟩

/-- What holds at first and is kept by every step holds at every stage. -/
theorem stage_induction {P : Nat → Prop} (hstart : P 0)
    (hstep : ∀ k e, history[k]? = some e → P k → P (k + 1)) :
    ∀ k ≤ history.length, P k := by
  intro k
  induction k with
  | zero => exact fun _ => hstart
  | succ k ih =>
    intro hk
    obtain ⟨e, he⟩ := exists_event (show k < history.length by omega)
    exact hstep k e he (ih (by omega))

theorem capacity_stage (hk : k ≤ history.length) :
    (stage capacity history k).capacity = max capacity 1 := by
  refine stage_induction (P := fun k => (stage capacity history k).capacity = max capacity 1)
    rfl (fun k e he ih => ?_) k hk
  rw [stage_succ he, capacity_perform, ih]

theorem length_jobs_le (hk : k ≤ history.length) :
    (stage capacity history k).jobs.length ≤ max capacity 1 := by
  refine stage_induction (P := fun k => (stage capacity history k).jobs.length ≤ max capacity 1)
    (Nat.zero_le _) (fun k e he ih => ?_) k hk
  have hk := (List.getElem?_eq_some_iff.mp he).1
  rw [stage_succ he]
  rcases (stage capacity history k).jobs_perform_cases e with ⟨id, -, -, -, hroom, hjobs⟩ | hsub
  · rw [capacity_stage (Nat.le_of_lt hk)] at hroom
    rw [hjobs, List.length_append]
    exact hroom
  · exact Nat.le_trans hsub.length_le ih

theorem dropped_stage (hk : k ≤ history.length) : (stage capacity history k).dropped =
    ((List.range k).countP fun k => history[k]?.any (stage capacity history k).refuses).toUInt64 := by
  refine stage_induction (P := fun k => (stage capacity history k).dropped = ((List.range k).countP
    fun k => history[k]?.any (stage capacity history k).refuses).toUInt64) rfl
    (fun k e he ih => ?_) k hk
  rw [stage_succ he, dropped_perform, ih, List.range_succ, List.countP_append,
    List.countP_singleton, he, Option.any_some]
  cases (stage capacity history k).refuses e with
  | true => exact (UInt64.ofNat_add _ 1).symm
  | false => exact UInt64.add_zero _

/-! ## When a block entered -/

namespace EnteredBy

theorem of_enqueues (h : Enqueues capacity history k id) :
    EnteredBy capacity history k (k + 1) id :=
  ⟨Nat.lt_succ_self k, h, fun _ hlt hle => absurd hlt (by omega)⟩

theorem succ (h : EnteredBy capacity history i k id) (hk : ¬ Enqueues capacity history k id) :
    EnteredBy capacity history i (k + 1) id := by
  refine ⟨Nat.lt_succ_of_lt h.lt, h.enqueues, fun j hij hjk => ?_⟩
  by_cases hj : j = k
  · exact hj ▸ hk
  · exact h.last j hij (by omega)

theorem eq_of_enqueues (h : EnteredBy capacity history i (k + 1) id)
    (hk : Enqueues capacity history k id) : i = k := by
  apply Decidable.byContradiction
  intro hne
  have hlt := h.lt
  exact h.last k (by omega) (by omega) hk

/-- The last entrance is the last one before an earlier number that comes after it. -/
theorem restrict (h : EnteredBy capacity history i k id) (hij : i < j) (hjk : j ≤ k) :
    EnteredBy capacity history i j id :=
  ⟨hij, h.enqueues, fun l hil hlj => h.last l hil (by omega)⟩

/-- A block that waits does not enter. -/
theorem of_succ (h : EnteredBy capacity history i (k + 1) id)
    (hwaits : id ∈ (stage capacity history k).jobs) : EnteredBy capacity history i k id := by
  have hne : i ≠ k := fun hik => (hik ▸ h.enqueues).2.1 hwaits
  have hlt := h.lt
  exact h.restrict (by omega) (Nat.le_succ k)

end EnteredBy

/-- A block that waits entered just now or waited before. -/
theorem mem_stage_succ (he : history[k]? = some e)
    (h : id ∈ (stage capacity history (k + 1)).jobs) :
    Enqueues capacity history k id ∨ id ∈ (stage capacity history k).jobs := by
  rw [stage_succ he] at h
  rcases (stage capacity history k).jobs_perform_cases e with
    ⟨id', rfl, hwaits, haccepted, -, hjobs⟩ | hsub
  · rw [hjobs, List.mem_append, List.mem_singleton] at h
    rcases h with h | rfl
    · exact .inr h
    · exact .inl ⟨he, hwaits, haccepted⟩
  · exact .inr (hsub.subset h)

/-- A block that waits has entered. -/
theorem exists_enteredBy (hk : k ≤ history.length) (h : id ∈ (stage capacity history k).jobs) :
    ∃ i, EnteredBy capacity history i k id := by
  refine stage_induction (P := fun k => ∀ id ∈ (stage capacity history k).jobs,
    ∃ i, EnteredBy capacity history i k id) (fun _ h => absurd h List.not_mem_nil)
    (fun k e he ih id h => ?_) k hk id h
  rcases mem_stage_succ he h with hnow | hwaits
  · exact ⟨k, .of_enqueues hnow⟩
  · obtain ⟨i, hi⟩ := ih id hwaits
    exact ⟨i, hi.succ fun hnow => hnow.2.1 hwaits⟩

/-- A block that waits and did not enter since waited all the time. -/
theorem mem_of_mem_stage (hjk : j ≤ k) (hk : k ≤ history.length)
    (h : id ∈ (stage capacity history k).jobs)
    (hno : ∀ l, j ≤ l → l < k → ¬ Enqueues capacity history l id) :
    id ∈ (stage capacity history j).jobs := by
  induction k with
  | zero => exact Nat.le_zero.mp hjk ▸ h
  | succ k ih =>
    by_cases hj : j = k + 1
    · exact hj ▸ h
    · obtain ⟨e, he⟩ := exists_event (show k < history.length by omega)
      have hwaits := (mem_stage_succ he h).resolve_left (hno k (by omega) (Nat.lt_succ_self k))
      exact ih (by omega) (by omega) hwaits fun l hjl hlk => hno l hjl (by omega)

/-- One block entered before another. -/
def EntersBefore (capacity : Nat) (history : List Event) (k : Nat) (x y : BlockId) : Prop :=
  ∀ i j, EnteredBy capacity history i k x → EnteredBy capacity history j k y → i < j

/-- Blocks wait in the order in which they entered. -/
theorem pairwise_entersBefore (hk : k ≤ history.length) :
    (stage capacity history k).jobs.Pairwise (EntersBefore capacity history k) := by
  refine stage_induction (P := fun k => (stage capacity history k).jobs.Pairwise
    (EntersBefore capacity history k)) .nil (fun k e he ih => ?_) k hk
  -- a block that waited does not enter at this step, so the old order says it all
  have hold : ∀ {jobs : List BlockId}, jobs.Sublist (stage capacity history k).jobs →
      jobs.Pairwise (EntersBefore capacity history (k + 1)) := by
    intro jobs hsub
    refine (ih.sublist hsub).imp_of_mem fun {x y} hx hy hxy i j hi hj => ?_
    exact hxy i j (hi.of_succ (hsub.subset hx)) (hj.of_succ (hsub.subset hy))
  rw [stage_succ he]
  rcases (stage capacity history k).jobs_perform_cases e with
    ⟨id, rfl, hwaits, haccepted, -, hjobs⟩ | hsub
  · rw [hjobs]
    refine List.pairwise_append.mpr ⟨hold (.refl _), List.pairwise_singleton _ _, ?_⟩
    intro x hx y hy i j hi hj
    rw [List.mem_singleton.mp hy] at hj
    rw [hj.eq_of_enqueues ⟨he, hwaits, haccepted⟩]
    exact (hi.of_succ hx).lt
  · exact hold hsub

theorem nodup_jobs (hk : k ≤ history.length) : (stage capacity history k).jobs.Nodup := by
  refine (pairwise_entersBefore hk).imp_of_mem fun {x y} hx _ hxy heq => ?_
  -- a block in two places would have entered before itself
  obtain ⟨i, hi⟩ := exists_enteredBy hk hx
  exact Nat.lt_irrefl i (hxy i i hi (heq ▸ hi))

/-! ## Blocks that are handed out -/

section

variable (h : HandsOut capacity history k id)
include h

/-- The block that is handed out is the first one, and the others go on waiting. -/
theorem HandsOut.jobs_eq :
    (stage capacity history k).jobs = id :: (stage capacity history (k + 1)).jobs ∧
      (stage capacity history (k + 1)).current = some id := by
  obtain ⟨he, hid⟩ := h
  rw [stage_succ he, perform]
  rcases (stage capacity history k).next_cases with ⟨-, hnext⟩ | ⟨id', rest, hjobs, hnext⟩
  · rw [hnext] at hid
    cases hid
  · rw [hnext] at hid ⊢
    cases hid
    exact ⟨hjobs, rfl⟩

theorem HandsOut.lt_length : k < history.length :=
  (List.getElem?_eq_some_iff.mp h.1).1

theorem HandsOut.mem : id ∈ (stage capacity history k).jobs := by
  rw [h.jobs_eq.1]
  exact List.mem_cons_self

/-- Blocks are handed out in the order in which they entered. -/
theorem HandsOut.lt_of_lt {i' k' : Nat} {id' : BlockId} (h' : HandsOut capacity history k' id')
    (hi : EnteredBy capacity history i k id) (hi' : EnteredBy capacity history i' k' id')
    (hlt : k < k') : i < i' := by
  by_cases hlate : k ≤ i'
  · exact Nat.lt_of_lt_of_le hi.lt hlate
  · -- the second block waited behind the first one already
    have hwaits : id' ∈ (stage capacity history (k + 1)).jobs :=
      mem_of_mem_stage hlt (Nat.le_of_lt h'.lt_length) h'.mem
        fun l hkl hlk => hi'.last l (by omega) hlk
    have horder : (stage capacity history k).jobs.Pairwise (EntersBefore capacity history k) :=
      pairwise_entersBefore (Nat.le_of_lt h.lt_length)
    rw [h.jobs_eq.1] at horder
    exact List.rel_of_pairwise_cons horder hwaits i i' hi
      (hi'.restrict (by omega) (Nat.le_of_lt hlt))

end

theorem exists_handsOut (hfed : Fed capacity history) (he : history[k]? = some .next) :
    ∃ id, HandsOut capacity history k id := by
  have hk := (List.getElem?_eq_some_iff.mp he).1
  rcases (stage capacity history k).next_cases with ⟨hempty, -⟩ | ⟨id, rest, -, hnext⟩
  · exact absurd hempty (hfed k hk he)
  · exact ⟨id, he, by rw [hnext]⟩

/-- The current block is the one handed out last. -/
theorem current_stage_iff (hfed : Fed capacity history) (hk : k ≤ history.length) :
    (stage capacity history k).current = some id ↔
      ∃ j < k, HandsOut capacity history j id ∧
        ∀ l, j < l → l < k → history[l]? ≠ some .next := by
  refine stage_induction (P := fun k => (stage capacity history k).current = some id ↔
      ∃ j < k, HandsOut capacity history j id ∧ ∀ l, j < l → l < k → history[l]? ≠ some .next)
    ?_ (fun k e he ih => ?_) k hk
  · constructor
    · intro h
      cases h
    · rintro ⟨j, hj, -⟩
      cases hj
  · by_cases hnext : e = .next
    · -- a block waits, so this event is the last that hands one out
      subst hnext
      obtain ⟨id', h'⟩ := exists_handsOut hfed he
      rw [h'.jobs_eq.2]
      constructor
      · intro h
        cases h
        exact ⟨k, Nat.lt_succ_self k, h', fun l hkl hlk => absurd hkl (by omega)⟩
      · rintro ⟨j, hj, hout, hlast⟩
        have hjk : j = k := by
          apply Decidable.byContradiction
          intro hne
          exact hlast k (by omega) (Nat.lt_succ_self k) he
        subst hjk
        exact h'.2.symm.trans hout.2
    · rw [stage_succ he, current_perform _ _ hnext, ih]
      constructor
      · rintro ⟨j, hj, hout, hlast⟩
        refine ⟨j, Nat.lt_succ_of_lt hj, hout, fun l hjl hlk hl => ?_⟩
        by_cases hlast' : l = k
        · subst hlast'
          exact hnext (Option.some.inj (he.symm.trans hl))
        · exact hlast l hjl (by omega) hl
      · rintro ⟨j, hj, hout, hlast⟩
        have hjk : j ≠ k := by
          rintro rfl
          exact hnext (Option.some.inj (he.symm.trans hout.1))
        exact ⟨j, by omega, hout, fun l hjl hlk => hlast l hjl (by omega)⟩

end History

/-- After every history in which a block waits whenever one is handed out, the waiting blocks are
distinct and no more than there is room for. A request says whether its block waits now, changes no
more than the count of dropped requests if the block waited before or the queue was full, and else
lets the block wait behind all others. The requests that were turned down are counted as dropped, in
64 bits. Cancelling takes away the one block. Every block that is handed out entered by a request of
its own, and the requests have the order in which their blocks are handed out. The current block is
the one handed out last. -/
theorem bounded_distinct_fifo (capacity : Nat) (history : List Event)
    (hfed : Fed capacity history) :
    let q := after capacity history
    q.jobs.Nodup ∧ q.jobs.length ≤ max capacity 1 ∧
    (∀ id, ((q.submit id).1 = true ↔ id ∈ (q.submit id).2.jobs) ∧
      (id ∈ q.jobs ∨ q.jobs.length = max capacity 1 →
        (q.submit id).2 = { q with dropped := (q.submit id).2.dropped }) ∧
      (id ∉ q.jobs → q.jobs.length < max capacity 1 →
        (q.submit id).2 = { q with jobs := q.jobs ++ [id] })) ∧
    q.dropped = (refusals capacity history).toUInt64 ∧
    (∀ id, (q.cancel id).2 = { q with jobs := q.jobs.erase id }) ∧
    (∀ k, history[k]? = some .next →
      ∃ i id, HandsOut capacity history k id ∧ EnteredBy capacity history i k id) ∧
    (∀ i k id i' k' id', HandsOut capacity history k id → EnteredBy capacity history i k id →
      HandsOut capacity history k' id' → EnteredBy capacity history i' k' id' → k < k' → i < i') ∧
    ∀ id, q.isCurrent id = true ↔
      ∃ k, HandsOut capacity history k id ∧ ∀ l, k < l → history[l]? ≠ some .next := by
  intro q
  have hq : q = stage capacity history history.length := stage_length.symm
  have hcapacity : q.capacity = max capacity 1 := hq ▸ capacity_stage (Nat.le_refl _)
  have hnodup : q.jobs.Nodup := hq ▸ nodup_jobs (Nat.le_refl _)
  refine ⟨hnodup, hq ▸ length_jobs_le (Nat.le_refl _), fun id => ⟨q.submit_iff_mem id, ?_, ?_⟩,
    hq ▸ dropped_stage (Nat.le_refl _), fun id => ?_, fun k he => ?_, ?_, fun id => ?_⟩
  · intro h
    exact submit_of_mem_or_full (h.imp_right fun hfull => Nat.le_of_eq (hcapacity.trans hfull.symm))
  · intro hwaits hroom
    exact submit_of_room hwaits (hcapacity ▸ hroom)
  · rw [cancel, hnodup.erase_eq_filter]
  · obtain ⟨id, hout⟩ := exists_handsOut hfed he
    obtain ⟨i, hi⟩ := exists_enteredBy (Nat.le_of_lt hout.lt_length) hout.mem
    exact ⟨i, id, hout, hi⟩
  · intro i k id i' k' id' hout hi hout' hi'
    exact hout.lt_of_lt hout' hi hi'
  · rw [isCurrent, beq_iff_eq, hq, current_stage_iff hfed (Nat.le_refl _)]
    constructor
    · rintro ⟨k, -, hout, hlast⟩
      refine ⟨k, hout, fun l hkl hl => ?_⟩
      exact hlast l hkl (List.getElem?_eq_some_iff.mp hl).1 hl
    · rintro ⟨k, hout, hlast⟩
      exact ⟨k, hout.lt_length, hout, fun l hkl _ => hlast l hkl⟩

/-- Room for two blocks: the third is turned down, and the first is cancelled and comes again behind
the second. -/
theorem bounded_distinct_fifo_requeued : let history : List Event :=
      [.submit 1, .submit 2, .submit 3, .cancel 1, .submit 1, .submit 2, .next, .next]
    Fed 2 history ∧ (after 2 history).dropped = (refusals 2 history).toUInt64 ∧
      refusals 2 history = 1 ∧
      ∃ k, HandsOut 2 history k 1 ∧ ∀ l, k < l → history[l]? ≠ some .next := by
  intro history
  have hfed : Fed 2 history := by decide
  obtain ⟨-, -, -, hdropped, -, -, -, hcurrent⟩ := bounded_distinct_fifo 2 history hfed
  exact ⟨hfed, hdropped, by decide, (hcurrent 1).mp (by decide)⟩

end Dynarec.JobQueue
