/-
  Dynarec.Image.Elf.Defect

  What is wrong with a file that begins as an ELF file and is none.
-/
import Dynarec.Text.Hex

namespace Dynarec.Elf

/-- Why bytes are no ELF file. -/
inductive Defect where
  /-- Not even the identification is there. -/
  | tooSmall
  | unknownClass (mark : Nat)
  | unknownByteOrder (mark : Nat)
  /-- Something starts behind the end of the bytes. -/
  | badOffset (offset : Nat)
  /-- Something starts inside of the bytes, and does not end there. -/
  | tooBig (size available : Nat)
  /-- A text of a table, at so many bytes before its end, is not UTF-8. -/
  | notText (available : Nat)
  /-- A table has more entries than the file has room for. -/
  | tooMany (count : Nat) (entries : String)
  | tooManySymbols (offset count : Nat)
  /-- A section reaches beyond the file; the place is that of its contents or of its memory. -/
  | sectionOutOfBounds (name start size : Nat) (inMemory wraps : Bool)
  | textsOutOfBounds (size offset available : Nat) (wraps : Bool)
  | dynamicOutOfBounds (offset size : Nat)
  | emptyHashTable (buckets first filters : Nat)
deriving DecidableEq, Inhabited

namespace Defect

def ofBool (b : Bool) : String := if b then "true" else "false"

/-- The wording of most defects. -/
def malformed (what : String) : String := "Malformed entity: " ++ what

def message : Defect → String
  | .tooSmall => malformed "Too small"
  | .unknownClass mark => malformed ("invalid ELF class " ++ Text.hexDigits 1 mark)
  | .unknownByteOrder mark => malformed ("invalid ELF DATA type " ++ Text.hexDigits 1 mark)
  | .badOffset offset => "bad offset " ++ toString offset
  | .tooBig size available =>
    "type is too big (" ++ toString size ++ ") for " ++ toString available
  | .notText available => "bad input invalid utf8 (" ++ toString available ++ ")"
  | .tooMany count entries => "Buffer is too short for " ++ toString count ++ " " ++ entries
  | .tooManySymbols offset count =>
    malformed ("Too many ELF symbols (offset " ++ Text.hex 1 offset ++ ", count " ++
      toString count ++ ")")
  | .sectionOutOfBounds name start size inMemory wraps =>
    malformed ("Section " ++ toString name ++ " size (" ++ toString start ++ ") + " ++
      (if inMemory then "addr" else "offset") ++ " (" ++ toString size ++
      ") is out of bounds. Overflowed: " ++ ofBool wraps)
  | .textsOutOfBounds size offset available wraps =>
    malformed ("Strtable size (" ++ toString size ++ ") + offset (" ++ toString offset ++
      ") is out of bounds for " ++ toString available ++ " #bytes. Overflowed: " ++ ofBool wraps)
  | .dynamicOutOfBounds offset size =>
    malformed ("Invalid PT_DYNAMIC size (offset " ++ Text.hex 1 offset ++ ", filesz " ++
      Text.hex 1 size ++ ")")
  | .emptyHashTable buckets first filters =>
    malformed ("Invalid DT_GNU_HASH: buckets_num=" ++ toString buckets ++ " min_chain=" ++
      toString first ++ " bloom_size=" ++ toString filters)

end Defect

end Dynarec.Elf
