/-
  Dynarec.Main

  The program: reads the files that its arguments name, runs, and prints.
-/
import Dynarec.CommandLine.Session

namespace Dynarec.CommandLine

/-- Contents of a file, or why it cannot be read. -/
def readPath (path : String) : IO (Except FileError ByteArray) := do
  try
    return .ok (← IO.FS.readBinFile path)
  catch
    | .noFileOrDirectory .. => return .error .notFound
    | e => return .error (.other (toString e))

/-- One line of the log. -/
def logLine (n : Notice) : String :=
  "[" ++ padRight 5 n.level.name ++ " " ++ n.component.target ++ "] " ++ n.text

end Dynarec.CommandLine

open Dynarec CommandLine in
/-- Runs the program on its arguments. -/
def main (args : List String) : IO UInt32 := do
  let contents ← (filesRead args).mapM fun path => return (path, ← readPath path)
  let outcome := CommandLine.run ampleFuel
    (fun path => (contents.lookup path).getD (.error .notFound)) args
  for n in outcome.log.records do IO.eprintln (logLine n)
  IO.print outcome.output
  IO.eprint outcome.errors
  return outcome.exitCode.toUInt32
