/-
  Dynarec.Proofs.Registry

  What has which number after a change to a registry.
-/
import Dynarec.Registry
import Mathlib.Data.List.Basic
import Mathlib.Logic.Function.Basic

namespace Dynarec.Registry

variable {α : Type} (r : Registry α)

theorem get?_eq (n : Nat) : r.get? n = (r.items[n]?).getD none :=
  Array.getD_eq_getD_getElem? ..

@[simp] theorem get?_empty (n : Nat) : ({} : Registry α).get? n = none := by
  simp [get?_eq]

theorem get?_insert (n k : Nat) (a : α) :
    (r.insert n a).get? k = if k = n then some a else r.get? k := by
  rw [get?_eq, get?_eq, insert]
  by_cases hn : n < r.items.size
  · rw [if_pos hn, Array.getElem?_setIfInBounds]
    by_cases hk : n = k
    · subst hk
      simp [hn]
    · rw [if_neg hk, if_neg (Ne.symm hk)]
  · rw [if_neg hn, Array.getElem?_push, Array.size_append, Array.size_replicate]
    have hsize : r.items.size + (n - r.items.size) = n := by omega
    rw [hsize]
    by_cases hk : k = n
    · rw [if_pos hk, if_pos hk]
      rfl
    · rw [if_neg hk, if_neg hk, Array.getElem?_append]
      split
      · rfl
      · -- the places in between are empty
        rename_i hlt
        rw [Array.getElem?_eq_none (Nat.le_of_not_lt hlt), Array.getElem?_replicate]
        split <;> rfl

theorem get?_insert_self (n : Nat) (a : α) : (r.insert n a).get? n = some a := by
  rw [get?_insert, if_pos rfl]

theorem get?_insert_of_ne {n k : Nat} (h : k ≠ n) (a : α) : (r.insert n a).get? k = r.get? k := by
  rw [get?_insert, if_neg h]

theorem get?_modify (n k : Nat) (f : α → α) :
    (r.modify n f).get? k = if k = n then (r.get? k).map f else r.get? k := by
  rw [get?_eq, get?_eq, modify, Array.getElem?_modify]
  by_cases hk : n = k
  · rw [if_pos hk, if_pos hk.symm]
    cases r.items[k]? with
    | none => rfl
    | some item => rfl
  · rw [if_neg hk, if_neg (Ne.symm hk)]

theorem get?_erase (n k : Nat) : (r.erase n).get? k = if k = n then none else r.get? k := by
  rw [get?_eq, get?_eq, erase, Array.getElem?_setIfInBounds]
  by_cases hk : n = k
  · subst hk
    rw [if_pos rfl, if_pos rfl]
    split <;> rfl
  · rw [if_neg hk, if_neg (Ne.symm hk)]

variable {n : Nat} {a : α}

/-- Changing a thing is giving its number to the changed one. -/
theorem get?_modify_eq_insert {r : Registry α} (h : r.get? n = some a) (f : α → α)
    (k : Nat) : (r.modify n f).get? k = (r.insert n (f a)).get? k := by
  rw [get?_modify, get?_insert]
  split
  · rename_i hk
    rw [hk, h]
    rfl
  · rfl

/-! ## As functions -/

theorem get?_insert_eq_update (n : Nat) (a : α) :
    (r.insert n a).get? = Function.update r.get? n (some a) := by
  funext k
  rw [get?_insert, Function.update_apply]

theorem get?_modify_eq_update {r : Registry α} (h : r.get? n = some a)
    (f : α → α) : (r.modify n f).get? = Function.update r.get? n (some (f a)) := by
  funext k
  rw [get?_modify_eq_insert h, get?_insert, Function.update_apply]

theorem get?_erase_eq_update (n : Nat) : (r.erase n).get? = Function.update r.get? n none := by
  funext k
  rw [get?_erase, Function.update_apply]

theorem getD_eq_of_get? {r : Registry α} (h : r.get? n = some a) (d : α) : r.getD n d = a := by
  rw [getD, h]
  rfl

/-! ## As lists -/

theorem mem_toList {r : Registry α} : a ∈ r.toList ↔ ∃ n, r.get? n = some a := by
  simp only [toList, List.mem_filterMap, id_eq, exists_eq_right, get?_eq, Array.mem_toList_iff,
    Array.mem_iff_getElem?]
  constructor
  · rintro ⟨n, hn⟩
    exact ⟨n, by rw [hn]; rfl⟩
  · rintro ⟨n, hn⟩
    refine ⟨n, ?_⟩
    cases hitem : r.items[n]? with
    | none =>
      rw [hitem] at hn
      cases hn
    | some item =>
      rw [hitem] at hn
      exact congrArg some hn

/-- What is at a place of a list stands first, up to order. -/
theorem filterMap_set_perm (items : List (Option α)) (hn : n < items.length) (a : α) :
    ((items.set n (some a)).filterMap id).Perm (a :: (items.set n none).filterMap id) := by
  rw [List.set_eq_take_append_cons_drop, List.set_eq_take_append_cons_drop, if_pos hn, if_pos hn,
    List.filterMap_append, List.filterMap_append, List.filterMap_cons, List.filterMap_cons]
  exact List.perm_middle

theorem toList_erase_perm {r : Registry α} (h : r.get? n = some a) :
    r.toList.Perm (a :: (r.erase n).toList) := by
  rw [get?_eq] at h
  cases hitem : r.items[n]? with
  | none =>
    rw [hitem] at h
    cases h
  | some item =>
    rw [hitem] at h
    cases (show item = some a from h)
    obtain ⟨hlt, hget⟩ := Array.getElem?_eq_some_iff.mp hitem
    have hperm := filterMap_set_perm r.items.toList (by simpa using hlt) a
    have hself : r.items.toList.set n (some a) = r.items.toList := by
      rw [← hget, ← Array.getElem_toList]
      exact List.set_getElem_self _
    rw [hself] at hperm
    unfold toList erase
    rw [Array.toList_setIfInBounds]
    exact hperm

theorem toList_insert_perm {r : Registry α} (h : r.get? n = none) (a : α) :
    (r.insert n a).toList.Perm (a :: r.toList) := by
  unfold toList insert
  dsimp only
  split
  · rename_i hlt
    have hperm := filterMap_set_perm r.items.toList (by simpa using hlt) a
    have hself : r.items.toList.set n none = r.items.toList := by
      have hget : r.items[n] = none := by
        rw [get?_eq, Array.getElem?_eq_getElem hlt] at h
        exact h
      rw [← hget, ← Array.getElem_toList]
      exact List.set_getElem_self _
    rw [hself] at hperm
    rw [Array.toList_setIfInBounds]
    exact hperm
  · -- the places in between are empty
    rw [Array.toList_push, Array.toList_append, Array.toList_replicate, List.filterMap_append,
      List.filterMap_append, List.filterMap_replicate]
    simp

end Dynarec.Registry
