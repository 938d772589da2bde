/-
  Dynarec.Registers

  The guest register file: 32 general registers, LO and HI, and its encoding
  as 34 words or as bytes.
-/
import Dynarec.Bytes
import Dynarec.Cells
import Dynarec.Instruction.Basic

namespace Dynarec

/-- A way to write values as bytes and to read them again. Either can fail. -/
structure Codec (α : Type) where
  encode : α → Option ByteArray
  decode : ByteArray → Option α

/-- Values of the general registers, LO and HI. -/
structure Registers where
  cells : Cells 34 UInt32 := .replicate 34 0
deriving DecidableEq, Inhabited

namespace Registers

/-- Cell of a register number; numbers above HI fold onto the general registers. -/
@[inline]
def cell (r : Reg) : Fin 34 :=
  if r = .lo then 32
  else if r = .hi then 33
  else ⟨(r &&& 31).toNat, by
    have : (r &&& 31).toNat ≤ 31 := by
      rw [UInt8.toNat_and]
      exact Nat.and_le_right
    omega⟩

/-- Value of register `r`. -/
@[inline]
def get (regs : Registers) (r : Reg) : UInt32 := regs.cells[cell r]

/-- Change register `r`. Writes to register number 0 are discarded. -/
@[inline]
def set (regs : Registers) (r : Reg) (value : UInt32) : Registers :=
  if r = 0 then regs else { cells := regs.cells.set (cell r) value }

/-- The 34 values in register order. -/
def toWords (regs : Registers) : Array UInt32 := regs.cells.toArray

/-- Register file from 34 values, missing ones zero; register zero stays zero. -/
def ofWords (words : Array UInt32) : Registers where
  cells := .ofFn fun i => if i.val = 0 then 0 else words.getD i.val 0

/-- The bytes of a register file as `codec` writes them. -/
def toBytes? (codec : Codec Registers) (regs : Registers) : Option ByteArray := codec.encode regs

/-- The register file that `codec` reads from bytes; register zero stays zero. -/
def ofBytes? (codec : Codec Registers) (bytes : ByteArray) : Option Registers :=
  (codec.decode bytes).map fun regs => { cells := regs.cells.set 0 0 }

/-- The 34 values in register order, as little-endian words. What follows them is ignored. -/
def littleEndian : Codec Registers where
  encode regs := some (regs.toWords.foldl (fun bytes w => bytes ++ Bytes.ofWord w) ByteArray.empty)
  decode bytes :=
    if bytes.size < 136 then none
    else some { cells := .ofFn fun i => Bytes.wordAt bytes (4 * i.val) }

end Registers

end Dynarec
