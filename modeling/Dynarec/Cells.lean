/-
  Dynarec.Cells

  A fixed number of cells with a value each, read and changed by their position.
-/
namespace Dynarec

/-- The values of `n` cells. -/
structure Cells (n : Nat) (α : Type) where
  values : Vector α n
deriving DecidableEq, Inhabited

namespace Cells

variable {n : Nat} {α β : Type}

/-- One value in every cell. -/
def replicate (n : Nat) (a : α) : Cells n α := { values := Vector.replicate n a }

/-- A value for each position. -/
def ofFn (f : Fin n → α) : Cells n α := { values := Vector.ofFn f }

-- Every position has a cell, so reading asks for no proof.
instance : GetElem (Cells n α) (Fin n) α fun _ _ => True where
  getElem x i _ := x.values.get i

/-- Change one cell. -/
@[inline]
def set (x : Cells n α) (i : Fin n) (a : α) : Cells n α := { values := x.values.set i a }

/-- Change every cell. -/
def map (f : α → β) (x : Cells n α) : Cells n β := { values := x.values.map f }

/-- The values in order of position. -/
def toArray (x : Cells n α) : Array α := x.values.toArray

/-- The values in order of position. -/
def toList (x : Cells n α) : List α := x.values.toList

@[ext] theorem ext_getElem {x y : Cells n α} (h : ∀ i : Fin n, x[i] = y[i]) : x = y := by
  cases x with
  | mk v =>
    cases y with
    | mk w =>
      have hvw : v = w := Vector.ext fun i hi => h ⟨i, hi⟩
      rw [hvw]

@[simp] theorem getElem_set_self (x : Cells n α) (i : Fin n) (a : α) : (x.set i a)[i] = a :=
  Vector.getElem_set_self i.isLt

theorem getElem_set_of_ne (x : Cells n α) {i j : Fin n} (h : j ≠ i) (a : α) :
    (x.set i a)[j] = x[j] :=
  Vector.getElem_set_ne i.isLt j.isLt fun e => h (Fin.ext e.symm)

@[simp] theorem getElem_map (f : α → β) (x : Cells n α) (i : Fin n) : (x.map f)[i] = f x[i] :=
  Vector.getElem_map f i.isLt

@[simp] theorem getElem_replicate (a : α) (i : Fin n) : (replicate n a)[i] = a :=
  Vector.getElem_replicate i.isLt

@[simp] theorem set_set_self (x : Cells n α) (i : Fin n) (a b : α) :
    (x.set i a).set i b = x.set i b := by
  ext j
  by_cases h : j = i
  · subst h
    simp only [getElem_set_self]
  · simp only [getElem_set_of_ne _ h]

theorem set_comm (x : Cells n α) {i j : Fin n} (h : i ≠ j) (a b : α) :
    (x.set i a).set j b = (x.set j b).set i a := by
  ext k
  by_cases hi : k = i
  · subst hi
    rw [getElem_set_of_ne _ h, getElem_set_self, getElem_set_self]
  · rw [getElem_set_of_ne _ hi]
    by_cases hj : k = j
    · subst hj
      rw [getElem_set_self, getElem_set_self]
    · rw [getElem_set_of_ne _ hj, getElem_set_of_ne _ hj, getElem_set_of_ne _ hi]

end Cells

end Dynarec
