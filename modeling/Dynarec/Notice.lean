/-
  Dynarec.Notice

  What the library reports while it works. A notice says what happened; its
  severity, the component that reports it and its wording are functions of it.
  A log keeps the notices that are severe enough.
-/
import Dynarec.Block.Flags
import Dynarec.Fault
import Dynarec.Instruction.Listing
import Dynarec.Trace

namespace Dynarec

/-- Severity of a notice, most severe first. -/
inductive Level where
  | error | warn | info | debug | trace
deriving DecidableEq, Inhabited

namespace Level

def rank : Level → Nat
  | .error => 0
  | .warn => 1
  | .info => 2
  | .debug => 3
  | .trace => 4

def name : Level → String
  | .error => "ERROR"
  | .warn => "WARN"
  | .info => "INFO"
  | .debug => "DEBUG"
  | .trace => "TRACE"

end Level

/-- Part of the library that reports. -/
inductive Component where
  | commandLine | image | engine | dispatch | compiler | worker | reclaim | trace | cache | entries
  | block | annotate | listing | interpreter | hostCode | access | devices | coprocessor
deriving DecidableEq, Inhabited

/-- Name of a component in the program's log lines. -/
def Component.target : Component → String
  | .commandLine => "mips_rec"
  | .image => "mips_rec::loader"
  | .engine => "mips_rec::engine"
  | .dispatch => "mips_rec::engine::driver"
  | .compiler => "mips_rec::engine::compiler"
  | .worker => "mips_rec::engine::recompiler"
  | .reclaim => "mips_rec::engine::reaper"
  | .trace => "mips_rec::engine::trace"
  | .cache => "mips_rec::engine::blockcache"
  | .entries => "mips_rec::engine::lut"
  | .block => "mips_rec::engine::block"
  | .annotate => "mips_rec::engine::optimizer"
  | .listing => "mips_rec::engine::disasm"
  | .interpreter => "mips_rec::engine::interpreter"
  | .hostCode => "mips_rec::backend::threaded"
  | .access => "mips_rec::memory::access"
  | .devices => "mips_rec::memory::layout"
  | .coprocessor => "mips_rec::cpu::cop"

/-- Figures of a memory usage report. -/
structure MemoryUsage where
  instructionBytes : Nat
  codeBytes : Nat
  guestBytes : Nat
deriving DecidableEq, Inhabited

/-- Something worth reporting. -/
inductive Notice where
  | entryTableReady (slots regions : Nat)
  | invalidated (count : Nat) (addr length : UInt32)
  | newAccessTags (pc : UInt32)
  | notInCache (pc : UInt32)
  | ignoredCopOperation (word : UInt32)
  | readOnlyStore (addr : UInt32)
  | notMemoryInstruction (word : UInt32)
  | segmentationFault (store : Bool) (fault : Fault)
  | hostMemset (length addr : UInt32)
  | bankLoad (bank mnemonic : String) (addr : UInt32)
  | bankStore (bank mnemonic : String) (addr : UInt32) (digits : Nat) (value : UInt32)
  | outsideBank (bank verb : String) (addr : UInt32)
  | cannotDecodeAgain (pc : UInt32) (fault : Fault)
  | cannotFetchDelaySlot (pc : UInt32) (fault : Fault)
  | unknownOpcode (reporter : Component) (word pc : UInt32)
  | noEntryPoint (entry : Nat) (pc : UInt32)
  | lowered (pc : UInt32) (ops hostOps spills : Nat)
  | impossibleBranch (offset : Nat)
  | blockListing (pc : UInt32) (ops : Array Op)
  | compilerDisabled (reason : String)
  | compiledWithoutEntry (pc : UInt32)
  | diedWhileCompiling (pc : UInt32)
  | invalidatedWhileCompiling (pc : UInt32)
  | budgetExceeded (code : UInt32)
  | published (size : Nat) (pc : UInt32) (entryPoints : Nat)
  | compileFailed (pc : UInt32) (error : CodegenError)
  | blockOutdated (pc : UInt32)
  | cannotFetchBlock (pc : UInt32) (fault : Fault)
  | precompiled (pc : UInt32) (ops : Nat) (flags : BlockFlags)
  | reusingBlock (pc : UInt32)
  | reclaimed (blocks codes : Nat)
  | generatorBusy (held : Nat)
  | queueFull (pc : UInt32)
  | workerStarted
  | pickedUp (pc : UInt32)
  | engineReady (slots : Nat) (generator : String) (background : Bool)
  | leaving (pc : UInt32) (exit : ExitFlags)
  | invalidatingAll
  | compilerReenabled
  | memoryUsage (usage : MemoryUsage) (ratio : String)
  | recentEvents (count : Nat)
  | recentEvent (index : Nat) (event : TraceEvent)
  | loadedRaw (length : Nat) (addr : UInt32)
  | loadedSegment (addr length : UInt32)
  | loadedContainer (segments : Nat) (entry : UInt32)
  | loadedImage (path format : String) (bytes : Nat)
  | ranToEnd (cycles : Nat) (pc : UInt32)
  | stoppedEarly (cycles : Nat) (pc : UInt32) (exit : ExitFlags)
deriving DecidableEq, Inhabited

namespace Notice

/-- How severe a notice is. -/
def level : Notice → Level
  | .notInCache _ | .notMemoryInstruction _ | .segmentationFault _ _ | .cannotDecodeAgain _ _
  | .cannotFetchDelaySlot _ _ | .noEntryPoint _ _ | .compiledWithoutEntry _ | .compileFailed _ _
  | .cannotFetchBlock _ _ => .error
  | .outsideBank _ _ _ | .unknownOpcode _ _ _ | .compilerDisabled _ | .stoppedEarly _ _ _ => .warn
  | .engineReady _ _ _ | .compilerReenabled | .memoryUsage _ _ | .recentEvents _ | .recentEvent _ _
  | .loadedRaw _ _ | .loadedContainer _ _ | .loadedImage _ _ _ | .ranToEnd _ _ => .info
  | .entryTableReady _ _ | .newAccessTags _ | .readOnlyStore _ | .hostMemset _ _ | .impossibleBranch _
  | .blockListing _ _ | .diedWhileCompiling _ | .invalidatedWhileCompiling _ | .budgetExceeded _
  | .blockOutdated _ | .reusingBlock _ | .queueFull _ | .workerStarted | .leaving _ _
  | .invalidatingAll | .loadedSegment _ _ => .debug
  | .invalidated _ _ _ | .ignoredCopOperation _ | .bankLoad _ _ _ | .bankStore _ _ _ _ _
  | .lowered _ _ _ _ | .published _ _ _ | .precompiled _ _ _ | .reclaimed _ _ | .generatorBusy _
  | .pickedUp _ => .trace

/-- Which part of the library reports it. -/
def component : Notice → Component
  | .entryTableReady _ _ | .invalidated _ _ _ => .entries
  | .newAccessTags _ => .block
  | .notInCache _ => .cache
  | .ignoredCopOperation _ => .coprocessor
  | .readOnlyStore _ | .notMemoryInstruction _ | .segmentationFault _ _ | .hostMemset _ _ => .access
  | .bankLoad _ _ _ | .bankStore _ _ _ _ _ | .outsideBank _ _ _ => .devices
  | .cannotDecodeAgain _ _ | .cannotFetchDelaySlot _ _ => .interpreter
  | .unknownOpcode reporter _ _ => reporter
  | .noEntryPoint _ _ | .lowered _ _ _ _ => .hostCode
  | .impossibleBranch _ => .annotate
  | .blockListing _ _ => .listing
  | .compilerDisabled _ | .compiledWithoutEntry _ | .diedWhileCompiling _
  | .invalidatedWhileCompiling _ | .budgetExceeded _ | .published _ _ _ | .compileFailed _ _ => .compiler
  | .blockOutdated _ | .cannotFetchBlock _ _ | .precompiled _ _ _ | .reusingBlock _ => .dispatch
  | .reclaimed _ _ | .generatorBusy _ => .reclaim
  | .queueFull _ | .workerStarted | .pickedUp _ => .worker
  | .engineReady _ _ _ | .leaving _ _ | .invalidatingAll | .compilerReenabled | .memoryUsage _ _ => .engine
  | .recentEvents _ | .recentEvent _ _ => .trace
  | .loadedRaw _ _ | .loadedSegment _ _ | .loadedContainer _ _ => .image
  | .loadedImage _ _ _ | .ranToEnd _ _ | .stoppedEarly _ _ _ => .commandLine

/-- The wording of a notice. -/
def text : Notice → String
  | .entryTableReady slots regions =>
    "[REC] Code address table: " ++ toString slots ++ " slots over " ++ toString regions ++ " regions"
  | .invalidated count addr length =>
    "[REC] Invalidated " ++ toString count ++ " entries for " ++ Text.hexWord addr ++ "+" ++
      toString length.toNat
  | .newAccessTags pc =>
    "[REC] Block at " ++ Text.hexWord pc ++ " has new access tags, flagged for recompilation"
  | .notInCache pc => "[REC] Block at PC " ++ Text.hexWord pc ++ " is not in cache"
  | .ignoredCopOperation word => "[REC] Ignoring coprocessor operation " ++ Text.hexWord word
  | .readOnlyStore addr => "[MEM] Ignoring store to read-only memory at " ++ Text.hexWord addr
  | .notMemoryInstruction word => "[MEM] Not a memory instruction: " ++ Text.hexWord word
  | .segmentationFault store fault =>
    "[MEM] Segmentation fault in recompiled code: invalid " ++ (if store then "store" else "load") ++
      " (" ++ fault.message ++ ")"
  | .hostMemset length addr =>
    "[REC] Host memset of " ++ toString length.toNat ++ " bytes at " ++ Text.hexWord addr
  | .bankLoad bank mnemonic addr => "[MEM] " ++ bank ++ " " ++ mnemonic ++ " " ++ Text.hexWord addr
  | .bankStore bank mnemonic addr digits value =>
    "[MEM] " ++ bank ++ " " ++ mnemonic ++ " " ++ Text.hexWord addr ++ " <- " ++
      Text.hex digits value.toNat
  | .outsideBank bank verb addr =>
    "[MEM] " ++ bank ++ ": " ++ verb ++ " outside of bank at " ++ Text.hexWord addr
  | .cannotDecodeAgain pc fault =>
    "[REC] Cannot re-decode block at " ++ Text.hexWord pc ++ ": " ++ fault.message
  | .cannotFetchDelaySlot pc fault =>
    "[REC] Cannot fetch delay slot at " ++ Text.hexWord pc ++ ": " ++ fault.message
  | .unknownOpcode _ word pc =>
    "[REC] Unknown opcode " ++ Text.hexWord word ++ " at " ++ Text.hexWord pc
  | .noEntryPoint entry pc =>
    "[REC] No entry point at offset " ++ toString entry ++ " of block " ++ Text.hexWord pc
  | .lowered pc ops hostOps spills =>
    "[REC] Lowered block " ++ Text.hexWord pc ++ ": " ++ toString ops ++ " opcodes → " ++
      toString hostOps ++ " host ops, " ++ toString spills ++ " spills so far"
  | .impossibleBranch offset => "[REC] Impossible branch at offset " ++ Text.hex 1 offset
  | .blockListing pc ops =>
    "═══ [REC] Block @ " ++ Text.hexWord pc ++ " ═══\n" ++ Listing.block {} pc ops
  | .compilerDisabled reason => "[REC] Compiler disabled: " ++ reason
  | .compiledWithoutEntry pc =>
    "[REC] Compiled block " ++ Text.hexWord pc ++ " has no code address slot"
  | .diedWhileCompiling pc =>
    "[REC] Block " ++ Text.hexWord pc ++ " died while compiling, dropping its code"
  | .invalidatedWhileCompiling pc =>
    "[REC] Block " ++ Text.hexWord pc ++ " was invalidated during compilation"
  | .budgetExceeded code => "[REC] Code budget exceeded, retiring code " ++ toString code.toNat
  | .published size pc entryPoints =>
    "[REC] Published " ++ toString size ++ " bytes of code for " ++ Text.hexWord pc ++ " (" ++
      toString entryPoints ++ " entry points)"
  | .compileFailed pc .outOfMemory => "[REC] Out of code memory compiling block " ++ Text.hexWord pc
  | .compileFailed pc (.failure reason) =>
    "[REC] Unable to compile block at " ++ Text.hexWord pc ++ ": " ++ reason
  | .blockOutdated pc => "[REC] Block at " ++ Text.hexWord pc ++ " is outdated"
  | .cannotFetchBlock pc fault =>
    "[REC] Unable to fetch block at " ++ Text.hexWord pc ++ ": " ++ fault.message
  | .precompiled pc ops flags =>
    "[REC] Precompiled block at " ++ Text.hexWord pc ++ ": " ++ toString ops ++ " ops, flags " ++
      flags.describe
  | .reusingBlock pc => "[REC] Reusing unchanged block at " ++ Text.hexWord pc
  | .reclaimed blocks codes =>
    "[REC] Reaped " ++ toString blocks ++ " blocks and " ++ toString codes ++ " code objects"
  | .generatorBusy held => "[REC] Generator busy, holding " ++ toString held ++ " functions"
  | .queueFull pc => "[REC] Compile queue full, dropping request for " ++ Text.hexWord pc
  | .workerStarted => "[REC] Recompiler thread started"
  | .pickedUp pc => "[REC] Recompiler picked up " ++ Text.hexWord pc
  | .engineReady slots generator background =>
    "[REC] Engine ready: " ++ toString slots ++ " code slots, " ++ generator ++ " generator, " ++
      (if background then "threaded" else "synchronous") ++ " compilation"
  | .leaving pc exit => "[REC] Leaving at " ++ Text.hexWord pc ++ " with exit flags " ++ exit.describe
  | .invalidatingAll => "[REC] Invalidating all code"
  | .compilerReenabled => "[REC] Compiler re-enabled"
  | .memoryUsage usage ratio =>
    "[REC] Memory usage: IR " ++ toString (usage.instructionBytes / 1024) ++ " KiB, code " ++
      toString (usage.codeBytes / 1024) ++ " KiB, guest code " ++ toString (usage.guestBytes / 1024) ++
      " KiB, " ++ ratio ++ " code bytes per guest instruction"
  | .recentEvents count => "═══ Recent " ++ toString count ++ " recompiler events ═══"
  | .recentEvent index event => event.describe index
  | .loadedRaw length addr =>
    "[MEM] Loaded " ++ toString length ++ " byte raw image at " ++ Text.hexWord addr
  | .loadedSegment addr length =>
    "[MEM] ELF segment " ++ Text.hexWord addr ++ "+" ++ Text.hex 1 length.toNat
  | .loadedContainer segments entry =>
    "[MEM] Loaded ELF: " ++ toString segments ++ " segments, entry " ++ Text.hexWord entry
  | .loadedImage path format bytes =>
    "Loaded " ++ path ++ " (" ++ format ++ ", " ++ toString bytes ++ " bytes)"
  | .ranToEnd cycles pc => "Ran " ++ toString cycles ++ " cycles, next PC " ++ Text.hexWord pc
  | .stoppedEarly cycles pc exit =>
    "Stopped at " ++ Text.hexWord pc ++ " after " ++ toString cycles ++ " cycles: " ++ exit.describe

end Notice

/-- Notices that list the latest `count` events. -/
def TraceBuffer.dumpNotices (t : TraceBuffer) (count : Nat) : List Notice :=
  .recentEvents count :: ((t.recent count).mapIdx Notice.recentEvent).toList

/-- The notices that are severe enough, oldest first. -/
structure Log where
  /-- Least severe level kept; without one nothing is. -/
  threshold : Option Level := none
  records : Array Notice := #[]
deriving Inhabited

namespace Log

/-- Whether notices of a level are kept. -/
def keeps (log : Log) (level : Level) : Bool :=
  match log.threshold with
  | some least => level.rank ≤ least.rank
  | none => false

/-- Add a notice if it is severe enough. -/
def note (log : Log) (n : Notice) : Log :=
  if log.keeps n.level then { log with records := log.records.push n } else log

/-- Add notices in order. -/
def noteAll (log : Log) (ns : List Notice) : Log := ns.foldl note log

end Log

end Dynarec
