/-
  Dynarec.RecencyMap

  Maps that know in which order their keys were last used. A key is used when
  it gets a value and when it is promoted.

  The map of this library is a list. Uses are only noted at first; the list is
  put in order when something else is asked of it.
-/

namespace Dynarec

/-- A map from keys `α` to values `β` that knows the order in which its keys were last used. -/
class RecencyMap (M : Type) (α β : outParam Type) where
  empty : M
  /-- Take out a key; the result is its value. -/
  pop : M → α → Option β × M
  /-- Give a key a value, in place of the one it has. The key is used by that. -/
  put : M → α → β → M
  /-- A key was used, if it is there. -/
  promote : M → α → M
  /-- Take out the key whose last use lies furthest back. -/
  popOldest : M → Option (α × β) × M
  clear : M → M
  contains : M → α → Bool
  size : M → Nat
  /-- Keys with their values, the one whose last use lies furthest back first. -/
  toList : M → List (α × β)

/-- Keys with their values, and the keys that were used since they were put in order. -/
structure RecencyList (α β : Type) where
  entries : List (α × β)
  /-- The latest use first. -/
  used : List α := []
  nodup : (entries.map Prod.fst).Nodup

namespace RecencyList

variable {α β : Type}

instance : Inhabited (RecencyList α β) := ⟨{ entries := [], nodup := .nil }⟩

variable [BEq α]

/-- Take the entry of a key to the end. -/
def toEnd (key : α) (entries : List (α × β)) : List (α × β) :=
  entries.filter (·.1 != key) ++ entries.filter (·.1 == key)

theorem toEnd_perm (key : α) (entries : List (α × β)) : (toEnd key entries).Perm entries := by
  have h := List.filter_append_perm (·.1 != key) entries
  simpa only [toEnd, bne, Bool.not_not] using h

/-- The entries, the one whose last use lies furthest back first. -/
def ordered (l : RecencyList α β) : List (α × β) := l.used.foldr toEnd l.entries

theorem ordered_perm (l : RecencyList α β) : l.ordered.Perm l.entries := by
  unfold ordered
  induction l.used with
  | nil => exact .refl _
  | cons key used ih => exact (toEnd_perm key _).trans ih

/-- Put the entries in order. -/
def settle (l : RecencyList α β) : RecencyList α β where
  entries := l.ordered
  nodup := (l.ordered_perm.map Prod.fst).nodup_iff.mpr l.nodup

/-- Keep some of the entries. -/
def restrict (l : RecencyList α β) (entries : List (α × β)) (h : entries.Sublist l.entries) :
    RecencyList α β where
  entries
  nodup := (h.map Prod.fst).nodup l.nodup

def erase (l : RecencyList α β) (key : α) : RecencyList α β :=
  l.restrict (l.entries.filter (·.1 != key)) List.filter_sublist

/-- Put a key behind all others. -/
def insert [LawfulBEq α] (l : RecencyList α β) (key : α) (value : β) : RecencyList α β where
  entries := l.entries.filter (·.1 != key) ++ [(key, value)]
  nodup := by
    rw [List.map_append, List.nodup_append]
    refine ⟨(l.erase key).nodup, by simp, ?_⟩
    intro k hk key' hkey' heq
    obtain ⟨x, hx, rfl⟩ := List.mem_map.mp hk
    simp_all

instance [LawfulBEq α] : RecencyMap (RecencyList α β) α β where
  empty := default
  pop l key :=
    let l := l.settle
    (l.entries.lookup key, l.erase key)
  put l := l.settle.insert
  promote l key := { l with used := key :: l.used }
  popOldest l :=
    let l := l.settle
    (l.entries.head?, l.restrict l.entries.tail (List.tail_sublist _))
  clear _ := default
  contains l key := l.entries.any (·.1 == key)
  size l := l.entries.length
  toList := ordered

end RecencyList

end Dynarec
