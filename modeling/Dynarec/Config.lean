/-
  Dynarec.Config

  Settings of the engine.
-/

namespace Dynarec

/-- Settings of the engine. -/
structure Config where
  /-- Generate code in the background; blocks are interpreted until it is there. -/
  threaded : Bool := true
  /-- Interpret a block once before generating code, so that its accesses are tagged. -/
  firstPass : Bool := true
  /-- Clear memory on behalf of guest loops that do. -/
  replaceMemset : Bool := true
  /-- Leave branches in delay slots to the interpreter. -/
  detectImpossibleBranches : Bool := true
  /-- Turn branches inside a block into jumps inside its code. -/
  localBranches : Bool := true
  /-- Tag accesses whose address is known when a block is decoded. -/
  flagIo : Bool := true
  /-- Most instructions in a block; also bounds how far invalidation looks back. -/
  maxBlockOps : Nat := 256
  /-- Most jobs waiting for the background compiler. -/
  compileQueueCapacity : Nat := 512
  /-- Bytes of code to keep, zero for no limit. -/
  codeBudgetBytes : Nat := 8388608
  /-- Failures in a row that disable the compiler. -/
  maxConsecutiveFailures : UInt32 := 10
  /-- Failures in total that disable the compiler. -/
  maxTotalFailures : UInt32 := 100
  /-- Guest stores do not invalidate code; only the host does. -/
  invalidateFromDmaOnly : Bool := false
  /-- Keep the code of an invalidated block whose words did not change. -/
  reuseIdenticalBlocks : Bool := false
  /-- Record events. -/
  traceEnabled : Bool := false
  /-- Most events to keep. -/
  traceCapacity : Nat := 1024
  /-- Report a listing of every new block. -/
  logDisassembly : Bool := false
  /-- Cycles between reports of memory usage, zero for none. -/
  reportIntervalCycles : UInt32 := 268435456
deriving DecidableEq, Inhabited

namespace Config

/-- Default settings without the background compiler. -/
def synchronous : Config := { threaded := false }

/-- Bring settings into the range the engine can honour: instruction offsets inside a
block have 16 bits, and queue and trace hold at least one item. -/
def normalize (c : Config) : Config :=
  { c with
    maxBlockOps := min (max c.maxBlockOps 2) 65534
    compileQueueCapacity := max c.compileQueueCapacity 1
    traceCapacity := max c.traceCapacity 1 }

end Config

end Dynarec
