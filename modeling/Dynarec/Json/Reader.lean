/-
  Dynarec.Json.Reader

  Reading JSON text front to back. A reader takes what it expects from the
  text; what it meets instead is reported together with the place.

  The text is read as bytes of UTF-8, and places count lines from one and bytes
  inside of a line. All that the grammar asks for is ASCII, so a byte is looked
  at as the character with its number.
-/
import Dynarec.Json.Basic
import Dynarec.Text.Binary64
import Dynarec.Text.Numeral
import Dynarec.Text.Quoted

namespace Dynarec.Json

/-- What was found where something else was expected. -/
inductive Found where
  | null
  | boolean (value : Bool)
  | integer (value : Int)
  /-- A number with a fraction or an exponent, or too large for an integer. -/
  | fraction (negative : Bool) (size : Text.Binary64)
  | string (value : String)
  | sequence
  | map
deriving DecidableEq, Inhabited

def Found.describe : Found → String
  | .null => "null"
  | .boolean b => "boolean `" ++ (if b then "true" else "false") ++ "`"
  | .integer n => "integer `" ++ toString n ++ "`"
  | .fraction negative size =>
    "floating point `" ++ (if negative then "-" else "") ++ size.text ++ "`"
  | .string s => "string " ++ Text.quoted s
  | .sequence => "sequence"
  | .map => "map"

/-- What is wrong with a text. -/
inductive Problem where
  | endInList | endInObject | endInString | endInValue
  | expectedColon | expectedCommaOrBracket | expectedCommaOrBrace | expectedWord | expectedValue
  | invalidEscape | invalidNumber | numberOutOfRange | controlCharacter | keyNotString
  | loneSurrogate | endOfHexEscape | trailingComma | trailingCharacters
  | wrongType (found : Found) (expected : String)
  | wrongValue (found : Found) (expected : String)
  | duplicateMember (name : String)
deriving DecidableEq, Inhabited

def Problem.message : Problem → String
  | .endInList => "EOF while parsing a list"
  | .endInObject => "EOF while parsing an object"
  | .endInString => "EOF while parsing a string"
  | .endInValue => "EOF while parsing a value"
  | .expectedColon => "expected `:`"
  | .expectedCommaOrBracket => "expected `,` or `]`"
  | .expectedCommaOrBrace => "expected `,` or `\x7d`"
  | .expectedWord => "expected ident"
  | .expectedValue => "expected value"
  | .invalidEscape => "invalid escape"
  | .invalidNumber => "invalid number"
  | .numberOutOfRange => "number out of range"
  | .controlCharacter => "control character (\\u0000-\\u001F) found while parsing a string"
  | .keyNotString => "key must be a string"
  | .loneSurrogate => "lone leading surrogate in hex escape"
  | .endOfHexEscape => "unexpected end of hex escape"
  | .trailingComma => "trailing comma"
  | .trailingCharacters => "trailing characters"
  | .wrongType found expected => "invalid type: " ++ found.describe ++ ", expected " ++ expected
  | .wrongValue found expected => "invalid value: " ++ found.describe ++ ", expected " ++ expected
  | .duplicateMember name => "duplicate field `" ++ name ++ "`"

/-- What is wrong with a text, and where. -/
structure Failure where
  problem : Problem
  line : Nat
  column : Nat
deriving DecidableEq, Inhabited

def Failure.message (f : Failure) : String :=
  f.problem.message ++ " at line " ++ toString f.line ++ " column " ++ toString f.column

/-- The bytes still to read and the place where they start. -/
structure Cursor where
  rest : List UInt8
  line : Nat := 1
  column : Nat := 0
deriving DecidableEq, Inhabited

/-- The cursor behind a byte. -/
def Cursor.after (c : Cursor) (byte : UInt8) (rest : List UInt8) : Cursor :=
  if byte = 10 then { rest, line := c.line + 1, column := 0 }
  else { rest, line := c.line, column := c.column + 1 }

/-- The cursor behind the first byte. -/
def Cursor.next (c : Cursor) : Cursor :=
  match c.rest with
  | [] => c
  | byte :: rest => c.after byte rest

/-- The cursor behind the first `n` bytes. -/
def Cursor.advance (c : Cursor) : Nat → Cursor
  | 0 => c
  | n + 1 => c.next.advance n

/-- The character with the number of a byte. -/
def charOfByte (byte : UInt8) : Char := Char.ofNat byte.toNat

/-- Something that reads from the front of a text. -/
abbrev Reader := EStateM Failure Cursor

namespace Reader

variable {α : Type}

/-- Fail at a place. -/
def failAt (c : Cursor) (problem : Problem) : Reader α :=
  throw { problem, line := c.line, column := c.column }

/-- Fail at the cursor. -/
def failHere (problem : Problem) : Reader α := do failAt (← get) problem

/-- Fail behind the next byte. -/
def failAhead (problem : Problem) : Reader α := do failAt (← get).next problem

/-- The next byte, which stays. -/
def peek? : Reader (Option Char) := do
  return (← get).rest.head?.map charOfByte

/-- Take the next byte. -/
def next? : Reader (Option Char) := do
  let byte ← peek?
  modify Cursor.next
  return byte

/-- Drop the next byte. -/
def skip : Reader Unit := modify Cursor.next

/-- Whether a character may stand between two parts of a text. -/
def isBlank (c : Char) : Bool := c = ' ' || c = '\n' || c = '\t' || c = '\r'

/-- Take all bytes at the front that satisfy a test. -/
def takeWhile (test : Char → Bool) : Reader (List Char) := do
  let c ← get
  let taken := c.rest.takeWhile fun byte => test (charOfByte byte)
  set (c.advance taken.length)
  return taken.map charOfByte

/-- Drop blanks; the result is the next byte, which stays. -/
def afterBlanks : Reader (Option Char) := do
  let _ ← takeWhile isBlank
  peek?

/-- A word whose first character has been read. -/
def word : List Char → Reader Unit
  | [] => pure ()
  | expected :: rest => do
    match ← next? with
    | none => failHere .endInValue
    | some c => if c = expected then word rest else failHere .expectedWord

/-! ## Strings -/

/-- The number of the next four bytes as hexadecimal digits. -/
def hexEscape : Reader Nat := do
  let c ← get
  let digits := c.rest.take 4
  set (c.advance digits.length)
  if digits.length < 4 then failHere .endInString
  else
    match Text.digits? 16 (digits.map charOfByte) with
    | some n => return n
    | none => failHere .invalidEscape

/-- Take an expected part of the second half of a surrogate pair. -/
def surrogateMark (mark : Char) : Reader Unit := do
  match ← next? with
  | none => failHere .endInString
  | some c => if c = mark then pure () else failHere .endOfHexEscape

/-- A character given by one hexadecimal escape, or by two that form a surrogate pair. -/
def unicodeEscape : Reader Char := do
  let n ← hexEscape
  if 0xdc00 ≤ n ∧ n ≤ 0xdfff then failHere .loneSurrogate
  else if n < 0xd800 ∨ 0xdbff < n then return Char.ofNat n
  else
    surrogateMark '\\'
    surrogateMark 'u'
    let low ← hexEscape
    if low < 0xdc00 ∨ 0xdfff < low then failHere .loneSurrogate
    else return Char.ofNat ((n - 0xd800) * 0x400 + (low - 0xdc00) + 0x10000)

/-- Characters that stand for another one behind a backslash. -/
def simpleEscape? (c : Char) : Option Char :=
  if c = '"' ∨ c = '\\' ∨ c = '/' then some c
  else if c = 'b' then some (Char.ofNat 8)
  else if c = 'f' then some (Char.ofNat 12)
  else if c = 'n' then some '\n'
  else if c = 'r' then some '\r'
  else if c = 't' then some '\t'
  else none

/-- The character of an escape whose backslash has been read. -/
def escaped : Reader Char := do
  match ← next? with
  | none => failHere .endInString
  | some c =>
    match simpleEscape? c with
    | some plain => return plain
    | none => if c = 'u' then unicodeEscape else failHere .invalidEscape

/-- The text of bytes of UTF-8, given in reverse. -/
def textOfReversed (bytes : List UInt8) : String :=
  (String.fromUTF8? ⟨bytes.reverse.toArray⟩).getD ""

/-- The rest of a string of at most `fuel` parts, after the bytes read before, in reverse. -/
def stringRest : Nat → List UInt8 → Reader String
  | 0, _ => failHere .endInString
  | fuel + 1, before => do
    match ← next? with
    | none => failHere .endInString
    | some c =>
      if c = '"' then return textOfReversed before
      else if c = '\\' then
        let plain ← escaped
        stringRest fuel (plain.toString.toUTF8.toList.reverse ++ before)
      else if c.toNat < 32 then failHere .controlCharacter
      else stringRest fuel (c.toNat.toUInt8 :: before)

/-- A string whose opening quote has been read. -/
def string : Reader String := do
  stringRest ((← get).rest.length + 1) []

/-- Pass over an escape whose backslash has been read; surrogates need no partner. -/
def skipEscape : Reader Unit := do
  match ← next? with
  | none => failHere .endInString
  | some c =>
    if (simpleEscape? c).isSome then pure ()
    else if c = 'u' then
      let _ ← hexEscape
    else failHere .invalidEscape

/-- Pass over the rest of a string of at most `fuel` parts. -/
def skipStringRest : Nat → Reader Unit
  | 0 => failHere .endInString
  | fuel + 1 => do
    match ← peek? with
    | none => failHere .endInString
    | some c =>
      if c.toNat < 32 then failHere .controlCharacter
      else
        skip
        if c = '"' then pure ()
        else if c = '\\' then
          skipEscape
          skipStringRest fuel
        else skipStringRest fuel

/-- Pass over a string whose opening quote has been read. -/
def skipString : Reader Unit := do
  skipStringRest ((← get).rest.length + 1)

/-! ## Numbers -/

def isDigit (c : Char) : Bool := '0' ≤ c && c ≤ '9'

/-- The number that decimal digits stand for. -/
def digitsValue (digits : List Char) : Nat :=
  digits.foldl (fun n c => n * 10 + (c.toNat - '0'.toNat)) 0

/-- A decimal number as written. -/
structure Numeral where
  negative : Bool
  digits : List Char
  /-- Digits behind the point. -/
  fraction : List Char := []
  /-- Sign and digits of the exponent. -/
  exponent : Option (Bool × List Char) := none
deriving DecidableEq, Inhabited

/-- The digits in front of the point. -/
def wholeDigits : Reader (List Char) := do
  match ← next? with
  | none => failHere .endInValue
  | some c =>
    if c = '0' then
      if (← peek?).any isDigit then failAhead .invalidNumber else return ['0']
    else if isDigit c then return c :: (← takeWhile isDigit)
    else failHere .invalidNumber

/-- The digits behind the point, if there is one. -/
def fractionDigits : Reader (List Char) := do
  if (← peek?) = some '.' then
    skip
    let digits ← takeWhile isDigit
    if digits.isEmpty then
      match ← peek? with
      | none => failAhead .endInValue
      | some _ => failAhead .invalidNumber
    else return digits
  else return []

/-- The exponent, if there is one. -/
def exponentDigits : Reader (Option (Bool × List Char)) := do
  let mark ← peek?
  if mark = some 'e' || mark = some 'E' then
    skip
    let sign ← peek?
    if sign = some '+' || sign = some '-' then skip
    match ← next? with
    | none => failHere .endInValue
    | some c =>
      if isDigit c then return some (sign = some '-', c :: (← takeWhile isDigit))
      else failHere .invalidNumber
  else return none

/-- A number from its sign on. -/
def numeral : Reader Numeral := do
  let negative := (← peek?) = some '-'
  if negative then skip
  let digits ← wholeDigits
  let fraction ← fractionDigits
  let exponent ← exponentDigits
  return { negative, digits, fraction, exponent }

/-- Largest natural number and least negative number that count as integers. -/
def maxNatural : Nat := 18446744073709551615
def maxNegated : Nat := 9223372036854775808

/-- Append digits to a number as long as it does not exceed a limit, and the digits left. -/
def appendDigits (limit : Nat) : Nat → List Char → Nat × List Char
  | n, [] => (n, [])
  | n, c :: rest =>
    let m := n * 10 + (c.toNat - '0'.toNat)
    if m ≤ limit then appendDigits limit m rest else (n, c :: rest)

/-- The largest exponent that counts. -/
def maxExponent : Nat := 2147483647

/-- The digits behind the one with which the exponent gets too large. -/
def Numeral.unread (n : Numeral) : List Char :=
  match n.exponent with
  | none => []
  | some (_, digits) => (appendDigits maxExponent 0 digits).2.drop 1

/-- The size of a number from the digits that fit into 64 bits; further ones in front of the
point scale it, and those behind it do not count. -/
def Numeral.size? (n : Numeral) : Option Text.Binary64 :=
  let (whole, scaling) := appendDigits maxNatural 0 n.digits
  let (significand, ignored) := appendDigits maxNatural whole n.fraction
  let exponent : Int :=
    match n.exponent with
    | none => 0
    | some (negative, digits) => if negative then -(digitsValue digits) else digitsValue digits
  Text.Binary64.ofDecimal? significand
    (scaling.length - (n.fraction.length - ignored.length : Nat) + exponent)

/-- What kind of number it is, unless it is too large for any. Negative zero and integers
beyond 64 bits are no integers. -/
def Numeral.found? (n : Numeral) : Option Found :=
  let value := digitsValue n.digits
  let isInteger := n.fraction.isEmpty && n.exponent.isNone &&
    (if n.negative then value != 0 && value ≤ maxNegated else value ≤ maxNatural)
  if isInteger then some (.integer (if n.negative then -value else value))
  else n.size?.map (.fraction n.negative)

/-- The number at the cursor. -/
def number : Reader Found := do
  let n ← numeral
  match n.found? with
  | some f => return f
  | none =>
    let c ← get
    failAt { c with column := c.column - n.unread.length } .numberOutOfRange

/-! ## Values -/

/-- The value at the cursor, for a report that it is of the wrong type. -/
def found : Reader Found := do
  match ← peek? with
  | some 'n' => skip; word ['u', 'l', 'l']; return .null
  | some 't' => skip; word ['r', 'u', 'e']; return .boolean true
  | some 'f' => skip; word ['a', 'l', 's', 'e']; return .boolean false
  | some '"' => skip; return .string (← string)
  | some '[' => return .sequence
  | some '\x7b' => return .map
  | some c => if c = '-' || isDigit c then number else failAhead .expectedValue
  | none => failAhead .expectedValue

/-- Report that the value at the cursor is of the wrong type. -/
def refuse (expected : String) : Reader α := do
  let f ← found
  failHere (.wrongType f expected)

/-- A truth value. -/
def boolean : Reader Bool := do
  match ← afterBlanks with
  | none => failAhead .endInValue
  | some 't' => skip; word ['r', 'u', 'e']; return true
  | some 'f' => skip; word ['a', 'l', 's', 'e']; return false
  | some _ => refuse "a boolean"

/-- A natural number up to `limit`. -/
def natural (limit : Nat) (expected : String) : Reader Nat := do
  match ← afterBlanks with
  | none => failAhead .endInValue
  | some c =>
    if c = '-' || isDigit c then
      match ← number with
      | .integer n =>
        if 0 ≤ n ∧ n ≤ limit then return n.toNat else failHere (.wrongValue (.integer n) expected)
      | other => failHere (.wrongType other expected)
    else refuse expected

/-- Pass over digits, of which there is at least one. -/
def skipDigits : Reader Unit := do
  let digits ← takeWhile isDigit
  if digits.isEmpty then failAhead .invalidNumber

/-- Pass over an exponent, if there is one. -/
def skipExponent : Reader Unit := do
  let mark ← peek?
  if mark = some 'e' || mark = some 'E' then
    skip
    let sign ← peek?
    if sign = some '+' || sign = some '-' then skip
    skipDigits

/-- Pass over a number. Wherever it ends too early, it is not a number. -/
def skipNumber : Reader Unit := do
  if (← peek?) = some '-' then skip
  if (← peek?) = some '0' then
    skip
    if (← peek?).any isDigit then failAhead .invalidNumber
  else skipDigits
  if (← peek?) = some '.' then
    skip
    skipDigits
  skipExponent

/-- Pass over a value that is neither a list nor an object. -/
def skipScalar (first : Char) : Reader Unit := do
  if first = 'n' then
    skip
    word ['u', 'l', 'l']
  else if first = 't' then
    skip
    word ['r', 'u', 'e']
  else if first = 'f' then
    skip
    word ['a', 'l', 's', 'e']
  else if first = '"' then
    skip
    skipString
  else if first = '-' || isDigit first then skipNumber
  else failAhead .expectedValue

/-- A list or an object that has been opened and not closed. -/
inductive Frame where
  | list | object
deriving DecidableEq, Inhabited

def Frame.closing : Frame → Char
  | .list => ']'
  | .object => '\x7d'

def Frame.atEnd : Frame → Problem
  | .list => .endInList
  | .object => .endInObject

def Frame.expected : Frame → Problem
  | .list => .expectedCommaOrBracket
  | .object => .expectedCommaOrBrace

/-- Close frames, innermost first, up to the next element of one that goes on; the frames
that are still open come back. A comma is accepted behind an element only. -/
def closeFrames : Bool → List Frame → Reader (List Frame)
  | _, [] => return []
  | acceptComma, frame :: outer => do
    match ← afterBlanks with
    | none => failAhead frame.atEnd
    | some c =>
      if acceptComma && c = ',' then
        skip
        return frame :: outer
      else if c = frame.closing then
        skip
        closeFrames true outer
      else if acceptComma then failAhead frame.expected
      else return frame :: outer

/-- Take the colon between a member's name and its value. -/
def colon : Reader Unit := do
  match ← afterBlanks with
  | some ':' => skip
  | some _ => failAhead .expectedColon
  | none => failAhead .endInObject

/-- Pass over a member's name and colon, if the innermost frame is an object. -/
def skipName : List Frame → Reader Unit
  | .object :: _ => do
    match ← afterBlanks with
    | some '"' => skip
    | some _ => failAhead .keyNotString
    | none => failAhead .endInObject
    skipString
    colon
  | _ => pure ()

/-- Pass over one value and the rest of all open frames, in at most `fuel` steps. -/
def skipNested : Nat → List Frame → Reader Unit
  | 0, _ => failHere .endInValue
  | fuel + 1, frames => do
    match ← afterBlanks with
    | none => failAhead .endInValue
    | some c =>
      let frames ←
        if c = '[' then
          skip
          closeFrames false (.list :: frames)
        else if c = '\x7b' then
          skip
          closeFrames false (.object :: frames)
        else
          skipScalar c
          closeFrames true frames
      if frames.isEmpty then return
      skipName frames
      skipNested fuel frames

/-- Pass over a value of any kind. -/
def skipValue : Reader Unit := do
  skipNested ((← get).rest.length + 1) []

/-! ## Members and elements -/

/-- Whether another member follows; its opening quote stays. -/
def hasMember (first : Bool) : Reader Bool := do
  match ← afterBlanks with
  | none => failAhead .endInObject
  | some '\x7d' => return false
  | some c =>
    if first then
      if c = '"' then return true else failAhead .keyNotString
    else if c = ',' then
      skip
      match ← afterBlanks with
      | some '"' => return true
      | some '\x7d' => failAhead .trailingComma
      | some _ => failAhead .keyNotString
      | none => failAhead .endInValue
    else failAhead .expectedCommaOrBrace

/-- Whether another element follows. -/
def hasElement (first : Bool) : Reader Bool := do
  match ← afterBlanks with
  | none => failAhead .endInList
  | some ']' => return false
  | some c =>
    if first then return true
    else if c = ',' then
      skip
      match ← afterBlanks with
      | some ']' => failAhead .trailingComma
      | some _ => return true
      | none => failAhead .endInValue
    else failAhead .expectedCommaOrBracket

/-- The end of a list after its last element that counts. -/
def closeList : Reader Unit := do
  match ← afterBlanks with
  | some ']' => skip
  | some ',' =>
    skip
    match ← afterBlanks with
    | some ']' => failAhead .trailingComma
    | _ => failAhead .trailingCharacters
  | some _ => failAhead .trailingCharacters
  | none => failAhead .endInList

/-- The end of the text. -/
def endOfText : Reader Unit := do
  match ← afterBlanks with
  | none => pure ()
  | some _ => failAhead .trailingCharacters

/-- Read a whole text. -/
def runOn (reader : Reader α) (text : String) : Except Failure α :=
  match (do let a ← reader; endOfText; return a : Reader α).run { rest := text.toUTF8.toList } with
  | .ok a _ => .ok a
  | .error f _ => .error f

end Reader

end Dynarec.Json
