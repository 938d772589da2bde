/-
  Dynarec.CommandLine.Session

  One call of the program as a function: from the arguments and the contents of
  files to an exit code, the text on both outputs and the log.
-/
import Dynarec.CommandLine.Files
import Dynarec.CommandLine.Options
import Dynarec.Config.Reader
import Dynarec.Engine.Report
import Dynarec.Engine.Run
import Dynarec.Image
import Dynarec.Image.Elf
import Dynarec.Memory.PlayStation

namespace Dynarec.CommandLine

/-! ## Failures -/

/-- Why a run fails. -/
inductive Failure where
  | emptySlice
  | unreadable (path : String) (cause : FileError)
  | settings (cause : Json.Failure)
  | host (error : HostError)
  | abort (cause : Abort)

namespace Failure

/-- A headline, and the cause behind it if there is one. -/
def message : Failure → String × Option String
  | .emptySlice => ("--slice must be positive", none)
  | .unreadable path cause => ("reading " ++ path, some cause.message)
  | .settings cause => ("JSON: " ++ cause.message, some cause.message)
  | .host error => (error.message, none)
  | .abort cause => (cause.message, none)

/-- The report of a failure. -/
def report (f : Failure) : String :=
  match f.message with
  | (headline, none) => "Error: " ++ headline ++ "\n"
  | (headline, some cause) => "Error: " ++ headline ++ "\n\nCaused by:\n    " ++ cause ++ "\n"

def exitCode : Failure → Nat
  | .abort _ => 101
  | _ => 1

end Failure

/-! ## Running an image -/

/-- The engine of the program. -/
abbrev SessionEngine := Engine RegisterBank StandardCoprocessor HostGenerator

/-- Operations on the engine of the program. -/
abbrev SessionM := EngineM RegisterBank StandardCoprocessor HostGenerator

/-- Where a run has got to. -/
structure Position where
  pc : UInt32
  /-- Cycles so far. -/
  executed : Nat := 0
  /-- Why the last slice ended. -/
  exit : ExitFlags := {}
deriving DecidableEq, Inhabited

/-- Interpret blocks until the cycle counter reaches `target` or there is a reason to leave. -/
def interpretBlocks (fuel : Nat) (target : UInt32) : Nat → UInt32 → SessionM UInt32
  | 0, _ => throw .outOfFuel
  | count + 1, pc => do
    let next ← Engine.runInterpreter fuel pc
    let clock := (← get).machine.clock
    if !clock.exit.isNormal || target ≤ clock.current then return next
    interpretBlocks fuel target count next

/-- Run one slice from `pc`; the result is where it goes on. -/
def runSlice (fuel : Nat) (options : RunOptions) (pc target : UInt32) : SessionM UInt32 := do
  if options.interpreter then
    Engine.setTargetCycle target
    interpretBlocks fuel target fuel pc
  else
    let next ← Engine.run fuel pc target
    Engine.work
    return next

/-- Cycles of the next slice: what the options say, or what is left. -/
def RunOptions.nextSlice (options : RunOptions) (executed : Nat) : UInt32 :=
  min options.slice (min (options.cycles - executed) 4294967295).toUInt32

/-- Where a run has got to by a slice that goes on at `pc`. -/
def Position.advance (position : Position) (pc : UInt32) (before after : Clock) : Position where
  pc
  executed := position.executed + (after.current - before.current).toNat
  exit := after.exit

/-- Run slices until the cycles are used up or there is a reason to stop. There is no
interrupt controller, so a request to look for interrupts is none. -/
def runSlices (fuel : Nat) (options : RunOptions) : Nat → Position → SessionM Position
  | 0, _ => throw .outOfFuel
  | count + 1, position => do
    if options.cycles ≤ position.executed then return position
    let before := (← get).machine.clock
    let target := before.current + options.nextSlice position.executed
    let pc ← runSlice fuel options position.pc target
    let after := (← get).machine.clock
    if after.exit.isNormal || after.exit = { checkInterrupt := true } then
      runSlices fuel options count (position.advance pc before after)
    else return position.advance pc before after

/-- Run from `pc` and report how it went; the result is what the program prints. -/
def runFrom (fuel : Nat) (options : RunOptions) (pc : UInt32) : SessionM String := do
  Engine.modifyMachine fun m => { m with regs := m.regs.set Reg.sp options.stackPointer }
  let last ← runSlices fuel options fuel { pc }
  Engine.note (if last.exit.isNormal then .ranToEnd last.executed last.pc
    else .stoppedEarly last.executed last.pc last.exit)
  if options.trace then Engine.dumpTrace 32
  if options.stats then
    Engine.work
    return (← get).diagnostics.toJson.pretty 0 ++ "\n"
  return ""

/-! ## Sessions -/

/-- Steps that may fail; the log so far is kept. -/
abbrev LogM := EStateM Failure Log

/-- The contents of a file. -/
def readFile (files : Files) (path : String) : LogM ByteArray :=
  match files path with
  | .ok bytes => return bytes
  | .error cause => throw (.unreadable path cause)

/-- Settings of a run: those of the file, then those of the other options. -/
def configOf (files : Files) (options : RunOptions) : LogM Config := do
  let config : Config ← match options.config with
    | none => pure {}
    | some path =>
      match String.fromUTF8? (← readFile files path) with
      | none => throw (.unreadable path .notText)
      | some text =>
        match Config.ofJson text with
        | .ok config => pure config
        | .error cause => throw (.settings cause)
  return { config with
    threaded := options.threaded.getD config.threaded && !options.interpreter
    firstPass := config.firstPass && !options.noFirstPass
    traceEnabled := config.traceEnabled || options.trace }

/-- Load an image and say so. -/
def loadImage (path : String) (bytes : ByteArray) (rawAddr : UInt32) (memory : Memory RegisterBank) :
    LogM (LoadedImage × Memory RegisterBank) := do
  match Image.load Elf.parser bytes rawAddr { memory, log := ← get } with
  | .error e loader =>
    set loader.log
    throw (.host e)
  | .ok image loader =>
    set (loader.log.note (.loadedImage path image.format.name image.totalBytes))
    return (image, loader.memory)

/-- Load an image into the PlayStation map and run it; the result is what the program prints. -/
def runImage (fuel : Nat) (files : Files) (options : RunOptions) : LogM String := do
  if options.slice = 0 then throw .emptySlice
  let config ← configOf files options
  let bios ← match options.bios with
    | none => pure ByteArray.empty
    | some path => readFile files path
  let memory ← match PlayStation.memory bios PlayStation.hardwareBank PlayStation.cacheControlBank with
    | .ok memory => pure memory
    | .error e => throw (.host e)
  let bytes ← readFile files options.image
  let (image, memory) ← loadImage options.image bytes options.loadAddr memory
  let engine : SessionEngine :=
    Engine.create memory (.registers {}) .inert config {} (← get)
  match runFrom fuel options (options.entry.getD image.entry) engine with
  | .ok output engine =>
    set engine.machine.log
    return output
  | .error cause engine =>
    set engine.machine.log
    throw (.abort cause)

/-- What a call of the program leads to. -/
structure Outcome where
  exitCode : Nat
  /-- Text on the standard output. -/
  output : String := ""
  /-- Text on the error output, apart from the log. -/
  errors : String := ""
  log : Log := {}

/-- The whole program. -/
def run (fuel : Nat) (files : Files) (args : List String) : Outcome :=
  match readArguments args with
  | .error e =>
    { exitCode := 2, errors := "error: " ++ e.message ++ "\n\nFor more information, try '--help'.\n" }
  | .ok .version => { exitCode := 0, output := versionText }
  | .ok (.help topic) => { exitCode := 0, output := helpText topic }
  | .ok (.run options) =>
    match runImage fuel files options { threshold := some .info } with
    | .ok output log => { exitCode := 0, output, log }
    | .error failure log => { exitCode := failure.exitCode, errors := failure.report, log }

/-- The files that a call of the program may read. -/
def filesRead (args : List String) : List String :=
  match readArguments args with
  | .ok (.run options) => options.config.toList ++ options.bios.toList ++ [options.image]
  | _ => []

end Dynarec.CommandLine
