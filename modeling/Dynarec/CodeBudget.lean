/-
  Dynarec.CodeBudget

  The size of all published code, kept below a limit by giving up the code
  whose last use lies furthest back.
-/
import Dynarec.EntryTable
import Dynarec.RecencyMap

namespace Dynarec

/-- Counts over the life of a budget. -/
structure BudgetStats where
  insertions : Nat := 0
  evictions : Nat := 0
  bytesCompiled : Nat := 0
deriving DecidableEq, Inhabited

/-- Sizes of published code, in a map `M` that knows what was used last. -/
structure CodeBudget (M : Type) where
  sizes : M
  /-- Most bytes to hold, zero for no limit. -/
  limit : Nat
  /-- Bytes held. -/
  usage : Nat := 0
  stats : BudgetStats := {}
deriving Inhabited

namespace CodeBudget

variable {M : Type} [RecencyMap M CodeId Nat]

def empty (limit : Nat) : CodeBudget M := { sizes := RecencyMap.empty, limit }

def contains (b : CodeBudget M) (id : CodeId) : Bool := RecencyMap.contains b.sizes id

/-- Forget a piece of code; says whether it was there. -/
def remove (b : CodeBudget M) (id : CodeId) : Bool × CodeBudget M :=
  let (size?, sizes) := RecencyMap.pop b.sizes id
  (size?.isSome, { b with sizes, usage := b.usage - size?.getD 0 })

/-- Give up the code used longest ago until `size` more bytes fit, at most `fuel` times. -/
def makeRoom (size : Nat) : Nat → CodeBudget M → List CodeId × CodeBudget M
  | 0, b => ([], b)
  | fuel + 1, b =>
    if b.limit < b.usage + size then
      match RecencyMap.popOldest b.sizes with
      | (none, sizes) => ([], { b with sizes })
      | (some (victim, bytes), sizes) =>
        let stats := { b.stats with evictions := b.stats.evictions + 1 }
        let (evicted, b) := makeRoom size fuel { b with sizes, usage := b.usage - bytes, stats }
        (victim :: evicted, b)
    else ([], b)

/-- Account for a piece of code; the result is the code given up for it. -/
def insert (b : CodeBudget M) (id : CodeId) (size : Nat) : List CodeId × CodeBudget M :=
  let (_, b) := b.remove id
  let (evicted, b) := if b.limit = 0 then ([], b) else makeRoom size (RecencyMap.size b.sizes) b
  (evicted, { b with
    sizes := RecencyMap.put b.sizes id size
    usage := b.usage + size
    stats := { b.stats with
      insertions := b.stats.insertions + 1
      bytesCompiled := b.stats.bytesCompiled + size } })

/-- A piece of code was used. -/
def touch (b : CodeBudget M) (id : CodeId) : CodeBudget M :=
  { b with sizes := RecencyMap.promote b.sizes id }

/-- Forget all code. -/
def clear (b : CodeBudget M) : CodeBudget M :=
  { b with sizes := RecencyMap.clear b.sizes, usage := 0 }

def count (b : CodeBudget M) : Nat := RecencyMap.size b.sizes

end CodeBudget

end Dynarec
