/-
  Dynarec.Registry

  Things that go by number. Numbers are given out in order, so there is a place
  for every number up to the largest one in use.
-/

namespace Dynarec

/-- Things by number. -/
structure Registry (α : Type) where
  /-- What has the number of its position. -/
  items : Array (Option α) := #[]
deriving Inhabited

namespace Registry

variable {α : Type}

/-- What has a number. -/
@[inline]
def get? (r : Registry α) (n : Nat) : Option α := r.items.getD n none

/-- What has a number, or else `default`. -/
def getD (r : Registry α) (n : Nat) (default : α) : α := (r.get? n).getD default

/-- Give something a number; what had it is forgotten. -/
def insert (r : Registry α) (n : Nat) (a : α) : Registry α where
  items :=
    if n < r.items.size then r.items.setIfInBounds n (some a)
    else (r.items ++ Array.replicate (n - r.items.size) none).push (some a)

/-- Change what has a number. -/
def modify (r : Registry α) (n : Nat) (f : α → α) : Registry α where
  items := r.items.modify n (Option.map f)

/-- Forget what has a number. -/
def erase (r : Registry α) (n : Nat) : Registry α where
  items := r.items.setIfInBounds n none

/-- All things, in the order of their numbers. -/
def toList (r : Registry α) : List α := r.items.toList.filterMap id

end Registry

end Dynarec
