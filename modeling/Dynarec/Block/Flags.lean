/-
  Dynarec.Block.Flags

  Properties of a block that change over its life.
-/
import Dynarec.Clock

namespace Dynarec

/-- Properties of a block. -/
structure BlockFlags where
  /-- Access tags are newer than the code. -/
  shouldRecompile : Bool := false
  /-- Always interpreted. -/
  neverCompile : Bool := false
  /-- Replaced or evicted; waiting to be reclaimed. -/
  isDead : Bool := false
  /-- Every memory access is tagged; the instructions can go once there is code. -/
  fullyTagged : Bool := false
  /-- A loop that clears memory. -/
  isMemset : Bool := false
deriving DecidableEq, Inhabited

namespace BlockFlags

/-- Flags by position, lowest bit first. -/
def toList (f : BlockFlags) : List Bool :=
  [f.shouldRecompile, f.neverCompile, f.isDead, f.fullyTagged, f.isMemset]

/-- Printed names, in the order of `toList`. -/
def names : List String :=
  ["SHOULD_RECOMPILE", "NEVER_COMPILE", "IS_DEAD", "FULLY_TAGGED", "IS_MEMSET"]

def toNat (f : BlockFlags) : Nat := bitsToNat f.toList

/-- The flags whose bits are set in a number; other bits are dropped. -/
def ofNat (n : Nat) : BlockFlags where
  shouldRecompile := n.testBit 0
  neverCompile := n.testBit 1
  isDead := n.testBit 2
  fullyTagged := n.testBit 3
  isMemset := n.testBit 4

def describe (f : BlockFlags) : String := describeFlags "BlockFlags" names f.toList

/-- The flags set in either. -/
def union (f g : BlockFlags) : BlockFlags where
  shouldRecompile := f.shouldRecompile || g.shouldRecompile
  neverCompile := f.neverCompile || g.neverCompile
  isDead := f.isDead || g.isDead
  fullyTagged := f.fullyTagged || g.fullyTagged
  isMemset := f.isMemset || g.isMemset

/-- The flags of the first that are not in the second. -/
def without (f g : BlockFlags) : BlockFlags where
  shouldRecompile := f.shouldRecompile && !g.shouldRecompile
  neverCompile := f.neverCompile && !g.neverCompile
  isDead := f.isDead && !g.isDead
  fullyTagged := f.fullyTagged && !g.fullyTagged
  isMemset := f.isMemset && !g.isMemset

/-- Whether every flag of the second is set in the first. -/
def contains (f g : BlockFlags) : Bool := f.union g == f

end BlockFlags

end Dynarec
