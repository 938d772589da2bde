/-
  Dynarec.Text.Quoted

  Text in quotes for messages. What does not show by itself is written as an
  escape, so that every quoted text is one line of visible characters.
-/
import Dynarec.Text.Hex
import Dynarec.Text.Visible

namespace Dynarec.Text

/-- A character by its number. -/
def numberedEscape (c : Char) : String :=
  "\\u\x7b" ++ hexDigits 1 c.toNat ++ "\x7d"

/-- A character inside of a quoted text. -/
def quotedChar (c : Char) : String :=
  if c = '"' then "\\\""
  else if c = '\\' then "\\\\"
  else if c = '\n' then "\\n"
  else if c = '\r' then "\\r"
  else if c = '\t' then "\\t"
  else if c.toNat = 0 then "\\0"
  else if isVisible c then c.toString
  else numberedEscape c

/-- A text in quotes. -/
def quoted (s : String) : String := "\"" ++ String.join (s.toList.map quotedChar) ++ "\""

end Dynarec.Text
