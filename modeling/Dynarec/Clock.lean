/-
  Dynarec.Clock

  The cycle counter with its budget and the reasons for leaving guest code.
-/

namespace Dynarec

/-- Reasons for leaving guest code before the cycle budget is used up. -/
structure ExitFlags where
  syscall : Bool := false
  breakpoint : Bool := false
  checkInterrupt : Bool := false
  segfault : Bool := false
  noMemory : Bool := false
  unknownOp : Bool := false
deriving DecidableEq, Inhabited

namespace ExitFlags

/-- Flags by position, lowest bit first. -/
def toList (f : ExitFlags) : List Bool :=
  [f.syscall, f.breakpoint, f.checkInterrupt, f.segfault, f.noMemory, f.unknownOp]

/-- Printed names, in the order of `toList`. -/
def names : List String :=
  ["SYSCALL", "BREAK", "CHECK_INTERRUPT", "SEGFAULT", "NO_MEMORY", "UNKNOWN_OP"]

/-- No reason: the cycle budget ran out. -/
@[inline]
def isNormal (f : ExitFlags) : Bool :=
  !(f.syscall || f.breakpoint || f.checkInterrupt || f.segfault || f.noMemory || f.unknownOp)

/-- All reasons of both. -/
def union (f g : ExitFlags) : ExitFlags where
  syscall := f.syscall || g.syscall
  breakpoint := f.breakpoint || g.breakpoint
  checkInterrupt := f.checkInterrupt || g.checkInterrupt
  segfault := f.segfault || g.segfault
  noMemory := f.noMemory || g.noMemory
  unknownOp := f.unknownOp || g.unknownOp

end ExitFlags

/-- Names of the flags that are set, in the form `Kind(A | B)`; `Kind(0x0)` when none is. -/
def describeFlags (kind : String) (names : List String) (flags : List Bool) : String :=
  match (flags.zip names).filterMap fun (set, name) => if set then some name else none with
  | [] => kind ++ "(0x0)"
  | shown => kind ++ "(" ++ " | ".intercalate shown ++ ")"

/-- The number whose binary digits, lowest first, are given. -/
def bitsToNat : List Bool → Nat
  | [] => 0
  | b :: rest => (if b then 1 else 0) + 2 * bitsToNat rest

namespace ExitFlags

def toNat (f : ExitFlags) : Nat := bitsToNat f.toList

/-- The flags whose bits are set in a number; other bits are dropped. -/
def ofNat (n : Nat) : ExitFlags where
  syscall := n.testBit 0
  breakpoint := n.testBit 1
  checkInterrupt := n.testBit 2
  segfault := n.testBit 3
  noMemory := n.testBit 4
  unknownOp := n.testBit 5

def describe (f : ExitFlags) : String := describeFlags "ExitFlags" names f.toList

end ExitFlags

/-- Cycle counter, cycle budget and pending exit reasons. The counter wraps. -/
structure Clock where
  current : UInt32 := 0
  target : UInt32 := 0
  exit : ExitFlags := {}
deriving DecidableEq, Inhabited

namespace Clock

/-- Record reasons to leave and end the current budget. No reason changes nothing. -/
def setExit (c : Clock) (flags : ExitFlags) : Clock :=
  if flags.isNormal then c
  else { c with exit := c.exit.union flags, target := c.current }

/-- Charge cycles. -/
@[inline]
def add (c : Clock) (cycles : UInt32) : Clock := { c with current := c.current + cycles }

/-- Whether the budget is used up. -/
@[inline]
def exhausted (c : Clock) : Bool := c.target ≤ c.current

/-- Whether to go back to the host after the current block. -/
@[inline]
def shouldStop (c : Clock) : Bool := !c.exit.isNormal || c.exhausted

/-- About to run until `target`, with no reason to leave. A target below the counter means no
limit. -/
def arm (c : Clock) (target : UInt32) : Clock :=
  { c with exit := {}, target := if target < c.current then 0xffffffff else target }

/-- Restart the counter at `cycles`; the target never falls behind it. -/
def reset (c : Clock) (cycles : UInt32) : Clock :=
  { c with current := cycles, target := if c.target < cycles then cycles else c.target }

/-- Move the target, unless an exit is pending; never behind the counter. -/
def setTarget (c : Clock) (cycles : UInt32) : Clock :=
  if c.exit.isNormal then { c with target := if cycles < c.current then c.current else cycles } else c

end Clock

end Dynarec
