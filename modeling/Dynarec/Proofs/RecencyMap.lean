/-
  Dynarec.Proofs.RecencyMap

  The laws of maps that know in which order their keys were last used.

  Seen from outside such a map is the list of its keys and values, the oldest
  use first: a use takes a key to the end of the list, and the key whose last
  use lies furthest back is at the front. The laws say so of every operation.

  The list of this library that notes uses first is lawful.
-/
import Dynarec.RecencyMap

namespace Dynarec

open RecencyMap in
/-- Every operation does to the list of keys and values what its name says. -/
class LawfulRecencyMap (M : Type) (α β : outParam Type) [BEq α] [RecencyMap M α β] : Prop where
  nodup_keys (m : M) : ((toList m).map Prod.fst).Nodup
  toList_empty : toList (empty : M) = []
  toList_clear (m : M) : toList (clear m) = []
  fst_pop (m : M) (key : α) : (pop m key).1 = (toList m).lookup key
  toList_pop (m : M) (key : α) : toList (pop m key).2 = (toList m).filter (·.1 != key)
  toList_put (m : M) (key : α) (value : β) :
    toList (put m key value) = (toList m).filter (·.1 != key) ++ [(key, value)]
  toList_promote (m : M) (key : α) :
    toList (promote m key) = (toList m).filter (·.1 != key) ++ (toList m).filter (·.1 == key)
  fst_popOldest (m : M) : (popOldest m).1 = (toList m).head?
  toList_popOldest (m : M) : toList (popOldest m).2 = (toList m).tail
  contains_eq (m : M) (key : α) : contains m key = (toList m).any (·.1 == key)
  size_eq (m : M) : size m = (toList m).length

/-- A key that the list has once has one entry. -/
theorem filter_key_eq {α β : Type} [BEq α] [LawfulBEq α] {L : List (α × β)}
    (hkeys : (L.map Prod.fst).Nodup) (key : α) :
    L.filter (·.1 == key) = (L.lookup key).toList.map (key, ·) := by
  induction L with
  | nil => rfl
  | cons x rest ih =>
    rw [List.map_cons, List.nodup_cons] at hkeys
    rw [List.lookup_cons, List.filter_cons, BEq.comm (a := key)]
    cases hx : x.1 == key with
    | false => exact ih hkeys.2
    | true =>
      obtain rfl := beq_iff_eq.mp hx
      have hrest : rest.filter (·.1 == x.1) = [] :=
        List.filter_eq_nil_iff.mpr fun y hy heq =>
          hkeys.1 (List.mem_map.mpr ⟨y, hy, beq_iff_eq.mp heq⟩)
      rw [if_pos rfl, hrest]
      rfl

instance {α β : Type} [BEq α] [LawfulBEq α] : LawfulRecencyMap (RecencyList α β) α β where
  nodup_keys l := l.settle.nodup
  toList_empty := rfl
  toList_clear _ := rfl
  fst_pop _ _ := rfl
  toList_pop _ _ := rfl
  toList_put _ _ _ := rfl
  toList_promote _ _ := rfl
  fst_popOldest _ := rfl
  toList_popOldest _ := rfl
  contains_eq l _ := l.ordered_perm.symm.any_eq
  size_eq l := l.ordered_perm.length_eq.symm

end Dynarec
