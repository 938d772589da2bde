/-
  Dynarec.Config.Reader

  Settings from JSON text: an object whose members are settings by name, or a
  list of settings in their order. What is missing keeps its default, and
  members with other names are passed over. Settings are shown as an object
  with all of them.
-/
import Dynarec.Config
import Dynarec.Json.Reader

namespace Dynarec.Config

open Json (Reader)

/-- A setting: its name, what reading its value does, and the value to show. -/
structure Setting where
  name : String
  read : Reader (Config → Config)
  value : Config → Json

namespace Setting

def flag (name : String) (set : Bool → Config → Config) (get : Config → Bool) : Setting where
  name
  read := set <$> Reader.boolean
  value c := .bool (get c)

/-- A size in 64 bits. -/
def size (name : String) (set : Nat → Config → Config) (get : Config → Nat) : Setting where
  name
  read := set <$> Reader.natural 18446744073709551615 "usize"
  value c := .num (get c)

/-- A count in 32 bits. -/
def count (name : String) (set : UInt32 → Config → Config) (get : Config → UInt32) : Setting where
  name
  read := (set ·.toUInt32) <$> Reader.natural 4294967295 "u32"
  value c := .num (get c).toNat

end Setting

/-- All settings in order. -/
def settings : List Setting := [
  .flag "threaded" (fun b c => { c with threaded := b }) (·.threaded),
  .flag "firstPass" (fun b c => { c with firstPass := b }) (·.firstPass),
  .flag "replaceMemset" (fun b c => { c with replaceMemset := b }) (·.replaceMemset),
  .flag "detectImpossibleBranches" (fun b c => { c with detectImpossibleBranches := b })
    (·.detectImpossibleBranches),
  .flag "localBranches" (fun b c => { c with localBranches := b }) (·.localBranches),
  .flag "flagIo" (fun b c => { c with flagIo := b }) (·.flagIo),
  .size "maxBlockOps" (fun n c => { c with maxBlockOps := n }) (·.maxBlockOps),
  .size "compileQueueCapacity" (fun n c => { c with compileQueueCapacity := n })
    (·.compileQueueCapacity),
  .size "codeBudgetBytes" (fun n c => { c with codeBudgetBytes := n }) (·.codeBudgetBytes),
  .count "maxConsecutiveFailures" (fun n c => { c with maxConsecutiveFailures := n })
    (·.maxConsecutiveFailures),
  .count "maxTotalFailures" (fun n c => { c with maxTotalFailures := n }) (·.maxTotalFailures),
  .flag "invalidateFromDmaOnly" (fun b c => { c with invalidateFromDmaOnly := b })
    (·.invalidateFromDmaOnly),
  .flag "reuseIdenticalBlocks" (fun b c => { c with reuseIdenticalBlocks := b })
    (·.reuseIdenticalBlocks),
  .flag "traceEnabled" (fun b c => { c with traceEnabled := b }) (·.traceEnabled),
  .size "traceCapacity" (fun n c => { c with traceCapacity := n }) (·.traceCapacity),
  .flag "logDisassembly" (fun b c => { c with logDisassembly := b }) (·.logDisassembly),
  .count "reportIntervalCycles" (fun n c => { c with reportIntervalCycles := n })
    (·.reportIntervalCycles)]

/-- All settings by name. -/
def toJson (c : Config) : Json := .obj (settings.map fun s => (s.name, s.value c))

/-- A setting is given twice. -/
def refuseDuplicate (name : String) : Reader Config := do
  if (← Reader.afterBlanks) = some '\x7d' then Reader.skip
  Reader.failHere (.duplicateMember name)

/-- At most `fuel` further members of an object, after the names seen before. -/
def members : Nat → List String → Bool → Config → Reader Config
  | 0, _, _, _ => Reader.failAhead .endInObject
  | fuel + 1, seen, first, c => do
    if ← Reader.hasMember first then
      Reader.skip
      let name ← Reader.string
      match settings.find? fun s => s.name == name with
      | none =>
        Reader.colon
        Reader.skipValue
        members fuel seen false c
      | some s =>
        if seen.contains name then refuseDuplicate name
        else
          Reader.colon
          let change ← s.read
          members fuel (name :: seen) false (change c)
    else
      Reader.skip
      return c

/-- The elements of a list for the settings left. -/
def elements : List Setting → Bool → Config → Reader Config
  | [], _, c => do
    Reader.closeList
    return c
  | s :: rest, first, c => do
    if ← Reader.hasElement first then
      let change ← s.read
      elements rest false (change c)
    else
      Reader.closeList
      return c

/-- Settings as one JSON value. -/
def value : Reader Config := do
  match ← Reader.afterBlanks with
  | none => Reader.failAhead .endInValue
  | some '[' =>
    Reader.skip
    elements settings true {}
  | some '\x7b' =>
    Reader.skip
    members ((← get).rest.length + 1) [] true {}
  | some _ => Reader.refuse "struct EngineConfig"

/-- Settings from JSON text, in the range the engine can honour. -/
def ofJson (text : String) : Except Json.Failure Config :=
  match Reader.runOn value text with
  | .ok c => .ok c.normalize
  | .error f => .error f

end Dynarec.Config
