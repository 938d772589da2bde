/-
  Dynarec.Trace

  The event trace: what the engine did, in a buffer that keeps the latest
  events, with counts over them.
-/
import Dynarec.Clock
import Dynarec.Text.Hex

namespace Dynarec

/-- Why entries or blocks were dropped. -/
inductive DropReason where
  /-- The block's code is now part of another block's code. -/
  | covered
  /-- The host said that memory changed. -/
  | host
  /-- Everything was dropped. -/
  | all
deriving DecidableEq, Inhabited

def DropReason.name : DropReason → String
  | .covered => "covered"
  | .host => "host"
  | .all => "all"

/-- One thing the engine did. -/
inductive TraceEvent where
  | blockPrecompiled (pc : UInt32) (ops flags : Nat)
  | blockInterpreted (pc : UInt32) (cycles : Nat)
  | compileStart (pc : UInt32) (ops : Nat) (background : Bool)
  | compileEnd (pc : UInt32) (codeSize micros : Nat) (success : Bool)
  | blockOutdated (pc : UInt32) (reused : Bool)
  | blockDead (pc : UInt32) (reason : DropReason)
  | invalidate (addr : Option UInt32) (length : Nat) (reason : DropReason)
  | memset (pc : UInt32) (bytes : Nat)
  | reclaim (blocks codes : Nat)
  | exit (pc : UInt32) (flags : ExitFlags)
deriving DecidableEq, Inhabited

namespace TraceEvent

/-- The guest address an event is about. -/
def pc? : TraceEvent → Option UInt32
  | .blockPrecompiled pc _ _ | .blockInterpreted pc _ | .compileStart pc _ _ | .compileEnd pc _ _ _
  | .blockOutdated pc _ | .blockDead pc _ | .memset pc _ | .exit pc _ => some pc
  | .invalidate addr _ _ => addr
  | .reclaim _ _ => none

/-- One line about an event, numbered by its place in a dump. -/
def describe (index : Nat) (event : TraceEvent) : String :=
  let digits := fun pc : UInt32 => Text.hexDigits 8 pc.toNat
  let body := match event with
    | .blockPrecompiled pc ops flags =>
      "PRECOMPILE " ++ digits pc ++ " (" ++ toString ops ++ " ops, flags=" ++ Text.hex 1 flags ++ ")"
    | .blockInterpreted pc cycles => "INTERP " ++ digits pc ++ " (" ++ toString cycles ++ " cycles)"
    | .compileStart pc ops background =>
      "COMPILE_START " ++ digits pc ++ " (" ++ toString ops ++ " ops, " ++
        (if background then "worker" else "sync") ++ ")"
    | .compileEnd pc codeSize micros success =>
      "COMPILE_END " ++ digits pc ++ (if success then " OK (" else " FAIL (") ++ toString codeSize ++
        " bytes, " ++ toString micros ++ "μs)"
    | .blockOutdated pc reused =>
      "OUTDATED " ++ digits pc ++ (if reused then " (reused)" else " (evicted)")
    | .blockDead pc reason => "DEAD " ++ digits pc ++ " (" ++ reason.name ++ ")"
    | .invalidate (some addr) length reason =>
      "INVALIDATE " ++ digits addr ++ "+" ++ toString length ++ " (" ++ reason.name ++ ")"
    | .invalidate none _ reason => "INVALIDATE_ALL (" ++ reason.name ++ ")"
    | .memset pc bytes => "MEMSET " ++ digits pc ++ " (" ++ toString bytes ++ " bytes)"
    | .reclaim blocks codes => "REAP " ++ toString blocks ++ " blocks, " ++ toString codes ++ " codes"
    | .exit pc flags => "EXIT " ++ digits pc ++ " " ++ flags.describe
  "[" ++ Text.column 4 index ++ "] " ++ body

end TraceEvent

/-- Counts over traced events. -/
structure TraceStats where
  precompiled : Nat := 0
  interpreted : Nat := 0
  compilations : Nat := 0
  compilationFailures : Nat := 0
  totalCodeBytes : Nat := 0
  totalCompileMicros : Nat := 0
  outdated : Nat := 0
  dead : Nat := 0
  invalidations : Nat := 0
  memsets : Nat := 0
  exits : Nat := 0
deriving DecidableEq, Inhabited

namespace TraceStats

/-- Count one more event. -/
def count (s : TraceStats) : TraceEvent → TraceStats
  | .blockPrecompiled _ _ _ => { s with precompiled := s.precompiled + 1 }
  | .blockInterpreted _ _ => { s with interpreted := s.interpreted + 1 }
  | .compileEnd _ codeSize micros true =>
    { s with
      compilations := s.compilations + 1
      totalCodeBytes := s.totalCodeBytes + codeSize
      totalCompileMicros := s.totalCompileMicros + micros }
  | .compileEnd _ _ _ false => { s with compilationFailures := s.compilationFailures + 1 }
  | .blockOutdated _ _ => { s with outdated := s.outdated + 1 }
  | .blockDead _ _ => { s with dead := s.dead + 1 }
  | .invalidate _ _ _ => { s with invalidations := s.invalidations + 1 }
  | .memset _ _ => { s with memsets := s.memsets + 1 }
  | .exit _ _ => { s with exits := s.exits + 1 }
  | .compileStart _ _ _ | .reclaim _ _ => s

/-- Mean of a total over the successful compilations; zero when there are none. -/
def perCompilation (s : TraceStats) (total : Nat) : Float :=
  if s.compilations = 0 then 0 else Float.ofNat total / Float.ofNat s.compilations

/-- Mean time of a compilation in microseconds. -/
def averageMicros (s : TraceStats) : Float := s.perCompilation s.totalCompileMicros

/-- Mean code size of a compilation in bytes. -/
def averageCodeSize (s : TraceStats) : Float := s.perCompilation s.totalCodeBytes

end TraceStats

/-- The latest events, oldest first. -/
structure TraceBuffer where
  events : Array TraceEvent := #[]
  capacity : Nat
  enabled : Bool := false
  /-- Number of events recorded since the last clear. -/
  sequence : Nat := 0
deriving Inhabited

namespace TraceBuffer

/-- An empty, disabled buffer. -/
def empty (capacity : Nat) : TraceBuffer := { capacity := max capacity 1 }

/-- Record an event if recording is on; the oldest makes room. -/
def push (t : TraceBuffer) (event : TraceEvent) : TraceBuffer :=
  if t.enabled then
    let kept := if t.capacity ≤ t.events.size then t.events.eraseIdxIfInBounds 0 else t.events
    { t with events := kept.push event, sequence := t.sequence + 1 }
  else t

/-- Forget all events. -/
def clear (t : TraceBuffer) : TraceBuffer := { t with events := #[], sequence := 0 }

/-- Counts over the events held. -/
def stats (t : TraceBuffer) : TraceStats := t.events.foldl TraceStats.count {}

/-- Events about one guest address. -/
def eventsFor (t : TraceBuffer) (pc : UInt32) : Array TraceEvent :=
  t.events.filter fun e => e.pc? == some pc

/-- The latest `count` events. -/
def recent (t : TraceBuffer) (count : Nat) : Array TraceEvent :=
  t.events.extract (t.events.size - count) t.events.size

end TraceBuffer

end Dynarec
