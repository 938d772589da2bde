/-
  Dynarec.Engine.Report

  Figures about an engine, and their JSON form.
-/
import Dynarec.Engine.Basic
import Dynarec.Json.Basic

namespace Dynarec

/-- Figures about an engine. -/
structure EngineStats where
  counters : Counters
  cachedBlocks : Nat
  codeObjects : Nat
  codeBytes : Nat
  queuedJobs : Nat
  droppedJobs : UInt64
  invalidations : Nat
  /-- Things held back and programs not handed back yet. -/
  deferredReclaims : Nat
  budget : BudgetStats
deriving DecidableEq, Inhabited

/-- All there is to know about an engine. -/
structure Diagnostics where
  generator : String
  background : Bool
  health : CompilerHealth
  stats : EngineStats
  trace : TraceStats
deriving DecidableEq, Inhabited

namespace Engine

variable {δ κ γ : Type}

/-- Figures about an engine. -/
def stats (e : Engine δ κ γ) : EngineStats where
  counters := e.counters
  cachedBlocks := e.cache.count
  codeObjects := e.codes.toList.length
  codeBytes := e.codes.toList.foldl (fun total code => total + code.size) 0
  queuedJobs := e.queue.size
  droppedJobs := e.queue.dropped
  invalidations := e.machine.entries.invalidations
  deferredReclaims := e.reclaimer.deferred.length + e.reclaimer.unreleased.length
  budget := e.budget.stats

/-- All there is to know about an engine. -/
def diagnostics (e : Engine δ κ γ) : Diagnostics where
  generator := e.generatorName
  background := e.background
  health := e.health
  stats := e.stats
  trace := e.trace.stats

end Engine

/-! ## JSON -/

def BudgetStats.toJson (s : BudgetStats) : Json :=
  .obj [("insertions", .num s.insertions), ("evictions", .num s.evictions),
    ("bytesCompiled", .num s.bytesCompiled)]

def EngineStats.toJson (s : EngineStats) : Json :=
  let c := s.counters
  .obj [
    ("blocksPrecompiled", .num c.blocksPrecompiled),
    ("blocksCompiled", .num c.blocksCompiled),
    ("compileFailures", .num c.compileFailures),
    ("recompilations", .num c.recompilations),
    ("interpretedBlocks", .num c.interpretedBlocks),
    ("compiledDispatches", .num c.compiledDispatches),
    ("memsets", .num c.memsets),
    ("outdatedBlocks", .num c.outdatedBlocks),
    ("reusedBlocks", .num c.reusedBlocks),
    ("deadBlocks", .num c.deadBlocks),
    ("reapedBlocks", .num c.reclaimedBlocks),
    ("reapedCodes", .num c.reclaimedCodes),
    ("uncachedBlocks", .num c.uncachedBlocks),
    ("cachedBlocks", .num s.cachedBlocks),
    ("codeObjects", .num s.codeObjects),
    ("codeBytes", .num s.codeBytes),
    ("queuedJobs", .num s.queuedJobs),
    ("droppedJobs", .num s.droppedJobs.toNat),
    ("invalidations", .num s.invalidations),
    ("deferredReaps", .num s.deferredReclaims),
    ("budget", s.budget.toJson)]

def CompilerHealth.toJson (h : CompilerHealth) : Json :=
  .obj [
    ("enabled", .bool (!h.isDisabled)),
    ("disabledReason", match h.disabledReason with
      | some reason => .str reason
      | none => .null),
    ("consecutiveFailures", .num h.consecutiveFailures.toNat),
    ("totalFailures", .num h.totalFailures.toNat),
    ("successfulCompilations", .num h.successes)]

def TraceStats.toJson (s : TraceStats) : Json :=
  .obj [
    ("precompiled", .num s.precompiled),
    ("interpreted", .num s.interpreted),
    ("compilations", .num s.compilations),
    ("compilationFailures", .num s.compilationFailures),
    ("totalCodeBytes", .num s.totalCodeBytes),
    ("totalCompileTimeUs", .num s.totalCompileMicros),
    ("outdated", .num s.outdated),
    ("dead", .num s.dead),
    ("invalidations", .num s.invalidations),
    ("memsets", .num s.memsets),
    ("exits", .num s.exits)]

def Diagnostics.toJson (d : Diagnostics) : Json :=
  .obj [
    ("generator", .str d.generator),
    ("threaded", .bool d.background),
    ("compiler", d.health.toJson),
    ("stats", d.stats.toJson),
    ("traceStats", d.trace.toJson)]

end Dynarec
