/-
  Dynarec.CommandLine.Options

  The arguments of the program: a command, the options of a run, and the help
  that describes them. Arguments are read from left to right and the first
  problem wins; a request for help or for the version is answered at once.
-/
import Dynarec.Text.Numeral

namespace Dynarec.CommandLine

/-! ## What can be asked for -/

/-- What to run, and how. -/
structure RunOptions where
  image : String := ""
  bios : Option String := none
  entry : Option UInt32 := none
  loadAddr : UInt32 := 0x80010000
  stackPointer : UInt32 := 0x801ffff0
  /-- Guest cycles to run in all. -/
  cycles : Nat := 100000000
  /-- Guest cycles of one call into the engine. -/
  slice : UInt32 := 1000000
  config : Option String := none
  threaded : Option Bool := none
  noFirstPass : Bool := false
  interpreter : Bool := false
  trace : Bool := false
  stats : Bool := false
deriving DecidableEq, Inhabited

/-- What a page of help is about. -/
inductive HelpTopic where
  | program | run | help
deriving DecidableEq, Inhabited

/-- What the arguments ask for. -/
inductive Request where
  | run (options : RunOptions)
  | help (topic : HelpTopic)
  | version
deriving DecidableEq, Inhabited

/-- Arguments that make no sense. -/
inductive UsageError where
  | missingCommand
  | unknownCommand (name : String)
  | unexpectedArgument (text : String)
  | missingValue (option : String)
  | unexpectedValue (option value : String)
  | invalidValue (option value : String)
  | repeated (option : String)
  | missingImage
deriving DecidableEq, Inhabited

/-- The wording of a usage error. -/
def UsageError.message : UsageError → String
  | .missingCommand => "a command is required"
  | .unknownCommand name => "unrecognized subcommand '" ++ name ++ "'"
  | .unexpectedArgument text => "unexpected argument '" ++ text ++ "' found"
  | .missingValue option => "a value is required for '--" ++ option ++ "' but none was supplied"
  | .unexpectedValue option value =>
    "unexpected value '" ++ value ++ "' for '--" ++ option ++ "' found; no more were expected"
  | .invalidValue option value => "invalid value '" ++ value ++ "' for '" ++ option ++ "'"
  | .repeated option => "the argument '--" ++ option ++ "' cannot be used multiple times"
  | .missingImage => "the following required arguments were not provided:\n  <IMAGE>"

/-! ## The options of a run -/

/-- What an option does to the settings of a run. -/
inductive OptionEffect where
  /-- It is given alone. -/
  | flag (set : RunOptions → RunOptions)
  /-- It is given with a value, which it may refuse. -/
  | value (placeholder : String) (set : String → RunOptions → Option RunOptions)

/-- One option of a run. -/
structure OptionSpec where
  /-- Its name, without the dashes. -/
  name : String
  effect : OptionEffect
  help : String

/-- A path; it is not empty. -/
def path? (s : String) : Option String := if s.isEmpty then none else some s

/-- A 32-bit number. -/
def word? (s : String) : Option UInt32 :=
  (Text.below 4294967296 (Text.marked? s.toList)).map Nat.toUInt32

/-- The word `true` or `false`. -/
def bool? (s : String) : Option Bool :=
  if s = "true" then some true else if s = "false" then some false else none

/-- All options of a run, in the order of the help. -/
def runOptions : List OptionSpec := [
  { name := "bios"
    effect := .value "BIOS" fun s o => do return { o with bios := some (← path? s) }
    help := "BIOS ROM image" },
  { name := "entry"
    effect := .value "ENTRY" fun s o => do return { o with entry := some (← word? s) }
    help := "Entry point (defaults to the ELF entry or the raw load address)" },
  { name := "load-addr"
    effect := .value "LOAD_ADDR" fun s o => do return { o with loadAddr := ← word? s }
    help := "Load address of raw images [default: 0x80010000]" },
  { name := "sp"
    effect := .value "SP" fun s o => do return { o with stackPointer := ← word? s }
    help := "Initial stack pointer [default: 0x801ffff0]" },
  { name := "cycles"
    effect := .value "CYCLES" fun s o => do
      return { o with cycles := ← Text.below 18446744073709551616 (Text.natural? 10 s.toList) }
    help := "Total guest cycles to run [default: 100000000]" },
  { name := "slice"
    effect := .value "SLICE" fun s o => do
      let n ← Text.below 4294967296 (Text.nonNegative? 10 s.toList)
      return { o with slice := n.toUInt32 }
    help := "Cycles per call into the engine [default: 1000000]" },
  { name := "config"
    effect := .value "CONFIG" fun s o => do return { o with config := some (← path? s) }
    help := "Engine configuration (JSON); flags below override it" },
  { name := "threaded"
    effect := .value "THREADED" fun s o => do return { o with threaded := some (← bool? s) }
    help := "Compile on a background thread [possible values: true, false]" },
  { name := "no-first-pass"
    effect := .flag fun o => { o with noFirstPass := true }
    help := "Compile blocks without interpreting them first" },
  { name := "interpreter"
    effect := .flag fun o => { o with interpreter := true }
    help := "Never compile; interpret every block" },
  { name := "trace"
    effect := .flag fun o => { o with trace := true }
    help := "Record engine events and dump the last ones on exit" },
  { name := "stats"
    effect := .flag fun o => { o with stats := true }
    help := "Print engine diagnostics as JSON on exit" }]

/-! ## Reading arguments -/

/-- The look of one argument. -/
inductive Argument where
  /-- Two dashes: all that follows is plain. -/
  | separator
  | long (name : String) (value : Option String)
  | short (letters : List Char)
  | plain (text : String)
deriving DecidableEq, Inhabited

/-- Dashes make an option; a single dash alone is plain. -/
def Argument.ofString (s : String) : Argument :=
  match s.toList with
  | ['-', '-'] => .separator
  | '-' :: '-' :: rest =>
    let name := String.ofList (rest.takeWhile (· ≠ '='))
    match rest.dropWhile (· ≠ '=') with
    | [] => .long name none
    | _ :: value => .long name (some (String.ofList value))
  | ['-'] => .plain s
  | '-' :: letters => .short letters
  | _ => .plain s

/-- Whether an argument can be the value of the option before it. -/
def Argument.isPlain : Argument → Bool
  | .plain _ => true
  | _ => false

/-- A run as far as its arguments have been read. -/
structure Draft where
  options : RunOptions := {}
  /-- Names of the options that were given. -/
  seen : List String := []
  image : Option String := none
deriving Inhabited

namespace Draft

/-- Take an argument that is not an option: the image. -/
def takePlain (d : Draft) (s : String) : Except UsageError Draft :=
  match d.image, path? s with
  | none, some image => .ok { d with image := some image }
  | none, none => .error (.invalidValue "<IMAGE>" s)
  | some _, _ => .error (.unexpectedArgument s)

/-- Mark an option as given; each is given once. -/
def see (d : Draft) (name : String) : Except UsageError Draft :=
  if d.seen.contains name then .error (.repeated name) else .ok { d with seen := name :: d.seen }

/-- Take a flag. -/
def takeFlag (d : Draft) (name : String) (set : RunOptions → RunOptions) : Except UsageError Draft := do
  let d ← d.see name
  return { d with options := set d.options }

/-- Take an option with its value. -/
def takeValue (d : Draft) (name : String) (set : String → RunOptions → Option RunOptions)
    (value : String) : Except UsageError Draft := do
  let d ← d.see name
  match set value d.options with
  | some options => return { d with options }
  | none => throw (.invalidValue ("--" ++ name) value)

/-- The run that was asked for. -/
def finish (d : Draft) : Except UsageError Request :=
  match d.image with
  | some image => .ok (.run { d.options with image })
  | none => .error .missingImage

end Draft

/-- Read the arguments of a run. -/
def readRun : List String → Draft → Except UsageError Request
  | [], d => d.finish
  | arg :: rest, d =>
    match Argument.ofString arg with
    | .separator => do (← rest.foldlM Draft.takePlain d).finish
    | .plain s => do readRun rest (← d.takePlain s)
    | .short ('h' :: _) => .ok (.help .run)
    | .short _ => .error (.unexpectedArgument arg)
    | .long "help" none => .ok (.help .run)
    | .long "help" (some value) => .error (.unexpectedValue "help" value)
    | .long name given =>
      match runOptions.find? fun spec => spec.name == name with
      | none => .error (.unexpectedArgument arg)
      | some spec =>
        match spec.effect, given with
        | .flag set, none => do readRun rest (← d.takeFlag name set)
        | .flag _, some value => .error (.unexpectedValue name value)
        | .value _ set, some value => do readRun rest (← d.takeValue name set value)
        | .value _ set, none =>
          match rest with
          | [] => .error (.missingValue name)
          | value :: others =>
            if (Argument.ofString value).isPlain then do
              readRun others (← d.takeValue name set value)
            else .error (.missingValue name)

/-- The page of help that the names of commands lead to. -/
def readHelp : List String → Except UsageError Request
  | [] => .ok (.help .program)
  | ["run"] => .ok (.help .run)
  | ["help"] => .ok (.help .help)
  | "run" :: name :: _ | "help" :: name :: _ | name :: _ => .error (.unknownCommand name)

/-- Read all arguments of the program. -/
def readArguments : List String → Except UsageError Request
  | [] => .error .missingCommand
  | "run" :: rest => readRun rest {}
  | "help" :: rest => readHelp rest
  | arg :: _ =>
    match Argument.ofString arg with
    | .long "help" none | .short ('h' :: _) => .ok (.help .program)
    | .long "version" none | .short ('V' :: _) => .ok .version
    | .plain s => .error (.unknownCommand s)
    | _ => .error (.unexpectedArgument arg)

/-! ## Help -/

def versionText : String := "mips-rec 0.1.0\n"

def runSummary : String := "Load a guest image into the PlayStation memory map and run it"

def helpSummary : String := "Print this message or the help of the given subcommand(s)"

/-- How an option is written. -/
def OptionSpec.usage (spec : OptionSpec) : String :=
  match spec.effect with
  | .flag _ => "--" ++ spec.name
  | .value placeholder _ => "--" ++ spec.name ++ " <" ++ placeholder ++ ">"

/-- Text with blanks behind it until it has at least `width` characters. -/
def padRight (width : Nat) (s : String) : String :=
  s ++ String.ofList (List.replicate (width - s.length) ' ')

/-- Lines of a table whose second column is aligned. -/
def twoColumns (rows : List (String × String)) : String :=
  let width := (rows.map (·.1.length)).foldl max 0
  String.join (rows.map fun (left, right) => "  " ++ padRight width left ++ "  " ++ right ++ "\n")

/-- A page of help. -/
def helpText : HelpTopic → String
  | .program =>
    "MIPS R3000A dynamic recompiler\n\nUsage: mips-rec <COMMAND>\n\nCommands:\n" ++
      twoColumns [("run", runSummary), ("help", helpSummary)] ++ "\nOptions:\n" ++
      twoColumns [("-h, --help", "Print help"), ("-V, --version", "Print version")]
  | .run =>
    runSummary ++ "\n\nUsage: mips-rec run [OPTIONS] <IMAGE>\n\nArguments:\n" ++
      twoColumns [("<IMAGE>", "ELF executable or raw binary")] ++ "\nOptions:\n" ++
      twoColumns (runOptions.map (fun spec => ("    " ++ spec.usage, spec.help)) ++
        [("-h, --help", "Print help")])
  | .help =>
    helpSummary ++ "\n\nUsage: mips-rec help [COMMAND]...\n\nArguments:\n" ++
      twoColumns [("[COMMAND]...", "Print help for the subcommand(s)")]

end Dynarec.CommandLine
