/-
  Dynarec.Json.Basic

  JSON values as the reports of the engine need them, and their indented text.
-/
import Dynarec.Text.Hex

namespace Dynarec

/-- A JSON value. Members keep their order. -/
inductive Json where
  | null
  | bool (value : Bool)
  | num (value : Nat)
  | str (value : String)
  | obj (members : List (String × Json))
deriving Inhabited

namespace Json

/-- A character inside of a quoted text. -/
def escape (c : Char) : String :=
  if c = '"' then "\\\""
  else if c = '\\' then "\\\\"
  else if c = '\n' then "\\n"
  else if c = '\r' then "\\r"
  else if c = '\t' then "\\t"
  else if c.toNat = 8 then "\\b"
  else if c.toNat = 12 then "\\f"
  else if c.toNat < 32 then "\\u" ++ Text.hexDigits 4 c.toNat
  else c.toString

/-- A text in quotes. -/
def quote (s : String) : String := "\"" ++ String.join (s.toList.map escape) ++ "\""

/-- Blanks in front of a line at some depth. -/
def indent (depth : Nat) : String := String.ofList (List.replicate (2 * depth) ' ')

mutual

/-- The text of a value, one member a line. -/
def pretty (depth : Nat) : Json → String
  | .null => "null"
  | .bool b => if b then "true" else "false"
  | .num n => toString n
  | .str s => quote s
  | .obj [] => "\x7b\x7d"
  | .obj (m :: rest) =>
    "\x7b\n" ++ ",\n".intercalate (prettyMembers (depth + 1) (m :: rest)) ++ "\n" ++ indent depth ++ "\x7d"

/-- The lines of an object's members. -/
def prettyMembers (depth : Nat) : List (String × Json) → List String
  | [] => []
  | (key, value) :: rest =>
    (indent depth ++ quote key ++ ": " ++ pretty depth value) :: prettyMembers depth rest

end

end Json

end Dynarec
