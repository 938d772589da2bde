/-
  Dynarec.Proofs.CodeBudget

  A budget seen as a queue of code with sizes.

  The queue is in the order of the last uses: a use takes code to the end, and
  room is made at the front. Every operation has an equation on the queue,
  whatever lawful map the budget keeps the sizes in.
-/
import Dynarec.CodeBudget
import Dynarec.Proofs.RecencyMap
import Mathlib.Algebra.BigOperators.Group.List.Basic
import Mathlib.Algebra.GroupWithZero.Nat

namespace Dynarec.CodeBudget

variable {M : Type} [RecencyMap M CodeId Nat] {b : CodeBudget M} {limit size n : Nat}

/-- All code held with its size, the oldest use first. -/
def queue (b : CodeBudget M) : List (CodeId × Nat) := RecencyMap.toList b.sizes

/-- The bytes that code takes. -/
def total (q : List (CodeId × Nat)) : Nat := (q.map Prod.snd).sum

/-- The bytes in use are those of the queue. -/
def Balanced (b : CodeBudget M) : Prop := b.usage = total b.queue

theorem total_cons (x : CodeId × Nat) (q : List (CodeId × Nat)) :
    total (x :: q) = x.2 + total q := by
  simp [total]

theorem total_append (p q : List (CodeId × Nat)) : total (p ++ q) = total p + total q := by
  simp [total]

/-- A list takes what one piece of code and the others take. -/
theorem total_filter (q : List (CodeId × Nat)) (id : CodeId) :
    total q = total (q.filter (·.1 != id)) + total (q.filter (·.1 == id)) := by
  rw [Nat.add_comm, ← total_append]
  exact ((List.filter_append_perm (fun x => x.1 == id) q).symm.map Prod.snd).sum_eq

variable [LawfulRecencyMap M CodeId Nat]

open LawfulRecencyMap

theorem contains_eq (b : CodeBudget M) (k : CodeId) : b.contains k = b.queue.any (·.1 == k) :=
  LawfulRecencyMap.contains_eq b.sizes k

theorem nodup_queue (b : CodeBudget M) : (b.queue.map Prod.fst).Nodup := nodup_keys b.sizes

theorem queue_empty (limit : Nat) : (empty limit : CodeBudget M).queue = [] := toList_empty

theorem queue_clear (b : CodeBudget M) : b.clear.queue = [] := toList_clear b.sizes

theorem queue_touch (b : CodeBudget M) (id : CodeId) :
    (b.touch id).queue = b.queue.filter (·.1 != id) ++ b.queue.filter (·.1 == id) :=
  toList_promote b.sizes id

/-! ## Removal -/

omit [LawfulRecencyMap M CodeId Nat] in
theorem remove_eq (b : CodeBudget M) (id : CodeId) :
    b.remove id = ((RecencyMap.pop b.sizes id).1.isSome, { b with
      sizes := (RecencyMap.pop b.sizes id).2
      usage := b.usage - (RecencyMap.pop b.sizes id).1.getD 0 }) := rfl

theorem queue_remove (b : CodeBudget M) (id : CodeId) :
    (b.remove id).2.queue = b.queue.filter (·.1 != id) := by
  rw [remove_eq]
  exact toList_pop b.sizes id

theorem contains_remove (b : CodeBudget M) (id k : CodeId) :
    (b.remove id).2.contains k = (b.contains k && !(id == k)) := by
  rw [contains_eq, contains_eq, queue_remove, List.any_filter, Bool.eq_iff_iff]
  simp only [List.any_eq_true, Bool.and_eq_true, bne_iff_ne, beq_iff_eq, Bool.not_eq_true',
    beq_eq_false_iff_ne]
  grind

theorem contains_touch (b : CodeBudget M) (id k : CodeId) :
    (b.touch id).contains k = b.contains k := by
  rw [contains_eq, contains_eq, queue_touch, List.any_append, List.any_filter, List.any_filter,
    Bool.eq_iff_iff]
  simp only [Bool.or_eq_true, List.any_eq_true, Bool.and_eq_true, bne_iff_ne, beq_iff_eq]
  grind

/-- The size that is taken off is that of the code. -/
theorem Balanced.remove (hb : b.Balanced) (id : CodeId) : (b.remove id).2.Balanced := by
  have hentry : total (b.queue.filter (·.1 == id)) = (b.queue.lookup id).getD 0 := by
    rw [filter_key_eq b.nodup_queue]
    cases b.queue.lookup id with
    | none => rfl
    | some bytes => exact Nat.add_zero _
  rw [Balanced, queue_remove, remove_eq]
  show b.usage - (RecencyMap.pop b.sizes id).1.getD 0 = _
  rw [fst_pop, hb, total_filter b.queue id, hentry]
  exact Nat.add_sub_cancel ..

theorem Balanced.touch (hb : b.Balanced) (id : CodeId) : (b.touch id).Balanced := by
  rw [Balanced, queue_touch, total_append, ← total_filter]
  exact hb

theorem balanced_clear (b : CodeBudget M) : b.clear.Balanced := by
  rw [Balanced, queue_clear]
  rfl

theorem balanced_empty (limit : Nat) : (empty limit : CodeBudget M).Balanced := by
  rw [Balanced, queue_empty]
  rfl

/-! ## Room for new code -/

/-- The `n` pieces of code at the front are the fewest that must go before `size` more bytes fit; if
nothing is enough, all of them go. -/
structure MakesRoom (limit size : Nat) (q : List (CodeId × Nat)) (n : Nat) : Prop where
  le_length : n ≤ q.length
  enough : limit = 0 ∨ total (q.drop n) + size ≤ limit ∨ n = q.length
  least : ∀ m < n, limit ≠ 0 ∧ limit < total (q.drop m) + size

instance (limit size : Nat) (q : List (CodeId × Nat)) (n : Nat) :
    Decidable (MakesRoom limit size q n) :=
  decidable_of_iff
    (n ≤ q.length ∧ (limit = 0 ∨ total (q.drop n) + size ≤ limit ∨ n = q.length) ∧
      ∀ m < n, limit ≠ 0 ∧ limit < total (q.drop m) + size)
    ⟨fun h => ⟨h.1, h.2.1, h.2.2⟩, fun h => ⟨h.le_length, h.enough, h.least⟩⟩

variable {q : List (CodeId × Nat)}

theorem MakesRoom.le {m : Nat} (h : MakesRoom limit size q n)
    (h' : MakesRoom limit size q m) : m ≤ n := by
  by_contra hlt
  obtain ⟨hlimit, hshort⟩ := h'.least n (Nat.lt_of_not_le hlt)
  have hlength := h'.le_length
  rcases h.enough with hzero | hfits | hall
  · exact hlimit hzero
  · omega
  · omega

/-- There is one such number. -/
theorem MakesRoom.unique {m : Nat} (h : MakesRoom limit size q n)
    (h' : MakesRoom limit size q m) : n = m :=
  Nat.le_antisymm (h'.le h) (h.le h')

theorem MakesRoom.none
    (h : limit = 0 ∨ total q + size ≤ limit ∨ q = []) : MakesRoom limit size q 0 where
  le_length := Nat.zero_le _
  enough := h.imp_right (.imp_right fun hnil => by rw [hnil, List.length_nil])
  least m hm := by cases hm

/-- One more goes where it has to. -/
theorem MakesRoom.cons {x : CodeId × Nat} (h : MakesRoom limit size q n) (hlimit : limit ≠ 0)
    (hshort : limit < total (x :: q) + size) :
    MakesRoom limit size (x :: q) (n + 1) where
  le_length := Nat.succ_le_succ h.le_length
  enough := h.enough.imp_right (.imp_right fun hall => congrArg Nat.succ hall)
  least m hm := by
    cases m with
    | zero => exact ⟨hlimit, hshort⟩
    | succ m => exact h.least m (Nat.lt_of_succ_lt_succ hm)

/-- From `b` to `b'` the first `n` pieces of code were given up. -/
structure Dropped (b : CodeBudget M) (n : Nat) (evicted : List CodeId) (b' : CodeBudget M) : Prop where
  evicted : evicted = (b.queue.take n).map Prod.fst
  queue : b'.queue = b.queue.drop n
  balanced : b.Balanced → b'.Balanced
  limit : b'.limit = b.limit

omit [LawfulRecencyMap M CodeId Nat] in
theorem dropped_none (b : CodeBudget M) : b.Dropped 0 [] b := ⟨rfl, rfl, id, rfl⟩

/-- The loop gives up code until the rest leaves room, if it has a turn for every piece. -/
theorem exists_makeRoom (b : CodeBudget M) (size fuel : Nat) :
    ∃ n, b.Dropped n (makeRoom size fuel b).1 (makeRoom size fuel b).2 ∧
      (b.Balanced → b.limit ≠ 0 → b.queue.length ≤ fuel →
        MakesRoom b.limit size b.queue n) := by
  induction fuel generalizing b with
  | zero =>
    refine ⟨0, b.dropped_none, fun _ _ hfuel => .none (.inr (.inr ?_))⟩
    exact List.length_eq_zero_iff.mp (Nat.le_zero.mp hfuel)
  | succ fuel ih =>
    have hhead := fst_popOldest b.sizes
    have htail := toList_popOldest b.sizes
    unfold makeRoom
    split
    · rename_i hshort
      split
      · -- nothing is left to give up
        rename_i sizes hpop
        rw [hpop] at hhead htail
        have hnil : b.queue = [] := List.head?_eq_none_iff.mp hhead.symm
        have hsizes : RecencyMap.toList sizes = b.queue := by
          rw [hnil]
          exact htail.trans (congrArg List.tail hnil)
        exact ⟨0, ⟨rfl, hsizes, fun hb => hb.trans (congrArg total hsizes.symm), rfl⟩,
          fun _ _ _ => .none (.inr (.inr hnil))⟩
      · -- the oldest goes, and the loop goes on with the others
        rename_i victim bytes sizes hpop
        rw [hpop] at hhead htail
        have hqueue : b.queue = (victim, bytes) :: RecencyMap.toList sizes := by
          obtain ⟨rest, hrest⟩ := List.head?_eq_some_iff.mp hhead.symm
          rw [show RecencyMap.toList sizes = rest from htail.trans (congrArg List.tail hrest)]
          exact hrest
        have hless (hb : b.Balanced) : b.usage - bytes = total (RecencyMap.toList sizes) := by
          rw [hb, hqueue, total_cons]
          exact Nat.add_sub_cancel_left ..
        obtain ⟨n, hdropped, hroom⟩ := ih { b with
          sizes, usage := b.usage - bytes
          stats := { b.stats with evictions := b.stats.evictions + 1 } }
        refine ⟨n + 1, ⟨?_, ?_, fun hb => hdropped.balanced (hless hb), hdropped.limit⟩, ?_⟩
        · rw [hqueue]
          exact congrArg (victim :: ·) hdropped.evicted
        · rw [hqueue]
          exact hdropped.queue
        · intro hb hlimit hfuel
          rw [hb] at hshort
          rw [hqueue] at hfuel hshort ⊢
          exact (hroom (hless hb) hlimit (Nat.le_of_succ_le_succ hfuel)).cons hlimit hshort
    · rename_i hfits
      refine ⟨0, b.dropped_none, fun hb _ _ => .none (.inr (.inl ?_))⟩
      rw [← hb]
      exact Nat.le_of_not_lt hfits

/-! ## Insertion -/

/-- What is given up for new code. -/
def evict (b : CodeBudget M) (size : Nat) : List CodeId × CodeBudget M :=
  if b.limit = 0 then ([], b) else makeRoom size (RecencyMap.size b.sizes) b

theorem exists_evict (b : CodeBudget M) (size : Nat) :
    ∃ n, b.Dropped n (b.evict size).1 (b.evict size).2 ∧
      (b.Balanced → MakesRoom b.limit size b.queue n) := by
  unfold evict
  split
  · rename_i hlimit
    exact ⟨0, b.dropped_none, fun _ => .none (.inl hlimit)⟩
  · rename_i hlimit
    obtain ⟨n, hdropped, hroom⟩ := b.exists_makeRoom size (RecencyMap.size b.sizes)
    exact ⟨n, hdropped, fun hb => hroom hb hlimit (Nat.le_of_eq (size_eq b.sizes).symm)⟩

/-- New code comes last, behind the others that are left. -/
structure Inserted (b : CodeBudget M) (id : CodeId) (size n : Nat) (evicted : List CodeId)
    (b' : CodeBudget M) : Prop where
  makesRoom : b.Balanced → MakesRoom b.limit size (b.queue.filter (·.1 != id)) n
  evicted : evicted = ((b.queue.filter (·.1 != id)).take n).map Prod.fst
  queue : b'.queue = (b.queue.filter (·.1 != id)).drop n ++ [(id, size)]
  balanced : b.Balanced → b'.Balanced
  limit : b'.limit = b.limit

theorem exists_insert (b : CodeBudget M) (id : CodeId) (size : Nat) :
    ∃ n, b.Inserted id size n (b.insert id size).1 (b.insert id size).2 := by
  obtain ⟨n, hdropped, hroom⟩ := (b.remove id).2.exists_evict size
  have hlimit : (b.remove id).2.limit = b.limit := by rw [remove_eq]
  have hleft := hdropped.queue
  have hevicted := hdropped.evicted
  rw [queue_remove] at hleft hevicted
  rw [queue_remove, hlimit] at hroom
  have hqueue : (b.insert id size).2.queue =
      (b.queue.filter (·.1 != id)).drop n ++ [(id, size)] := by
    refine (toList_put ((b.remove id).2.evict size).2.sizes id size).trans ?_
    rw [show RecencyMap.toList _ = _ from hleft, List.filter_eq_self.mpr fun x hx =>
      (List.mem_filter.mp (List.mem_of_mem_drop hx)).2]
  refine ⟨n, fun hb => hroom (hb.remove id), hevicted, hqueue, fun hb => ?_,
    hdropped.limit.trans hlimit⟩
  show ((b.remove id).2.evict size).2.usage + size = total (b.insert id size).2.queue
  rw [hqueue, total_append, hdropped.balanced (hb.remove id), hleft]
  rfl

theorem insert_of_makesRoom {id : CodeId} (hb : b.Balanced)
    (hroom : MakesRoom b.limit size (b.queue.filter (·.1 != id)) n) :
    b.Inserted id size n (b.insert id size).1 (b.insert id size).2 := by
  obtain ⟨m, hins⟩ := b.exists_insert id size
  exact hroom.unique (hins.makesRoom hb) ▸ hins

/-- After an insertion a budget holds the new code and otherwise only what it held before. -/
theorem contains_insert {id k : CodeId} (h : (b.insert id size).2.contains k = true) :
    k = id ∨ b.contains k = true := by
  obtain ⟨n, hins⟩ := b.exists_insert id size
  rw [contains_eq, hins.queue, List.any_append, Bool.or_eq_true] at h
  rcases h with h | h
  · obtain ⟨x, hx, hkey⟩ := List.any_eq_true.mp h
    rw [contains_eq]
    exact .inr (List.any_eq_true.mpr ⟨x, (List.mem_filter.mp (List.mem_of_mem_drop hx)).1, hkey⟩)
  · have hkey : (id == k) = true := by simpa using h
    exact .inl (beq_iff_eq.mp hkey).symm

end Dynarec.CodeBudget
