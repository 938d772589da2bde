/-
  Dynarec.Coprocessor

  The two coprocessors of the guest. The engine hands every access to them
  together with the instruction word and never looks at their state.
-/
import Dynarec.Cells
import Dynarec.Memory.Device

namespace Dynarec

/-- A coprocessor. Every operation gets the instruction word first and the current
cycle last; `control` selects the control registers. -/
class Coprocessor (κ : Type) where
  read : κ → (control : Bool) → (word : UInt32) → Reg → UInt32 → UInt32 × κ × List Request
  write : κ → (control : Bool) → (word : UInt32) → Reg → UInt32 → UInt32 → κ × List Request
  execute : κ → (word : UInt32) → UInt32 → κ × List Request

/-- Two banks of 32 registers without side effects, and a count of the commands seen. -/
structure RegisterFile where
  data : Cells 32 UInt32 := .replicate 32 0
  control : Cells 32 UInt32 := .replicate 32 0
  executed : Nat := 0
deriving DecidableEq, Inhabited

namespace RegisterFile

/-- Register numbers fold onto the 32 registers of a bank. -/
def cell (r : Reg) : Fin 32 :=
  ⟨(r &&& 31).toNat, by
    have : (r &&& 31).toNat ≤ 31 := by
      rw [UInt8.toNat_and]
      exact Nat.and_le_right
    omega⟩

def read (f : RegisterFile) (control : Bool) (r : Reg) : UInt32 :=
  if control then f.control[cell r] else f.data[cell r]

def write (f : RegisterFile) (control : Bool) (r : Reg) (value : UInt32) : RegisterFile :=
  if control then { f with control := f.control.set (cell r) value }
  else { f with data := f.data.set (cell r) value }

end RegisterFile

/-- The coprocessors that come with the library. -/
inductive StandardCoprocessor where
  /-- Reads as zero and ignores everything else. -/
  | inert
  | registers (file : RegisterFile)
deriving DecidableEq, Inhabited

instance : Coprocessor StandardCoprocessor where
  read c control _ r _ :=
    match c with
    | .inert => (0, .inert, [])
    | .registers file => (file.read control r, .registers file, [])
  write c control _ r value _ :=
    match c with
    | .inert => (.inert, [])
    | .registers file => (.registers (file.write control r value), [])
  execute c word _ :=
    match c with
    | .inert => (.inert, [.note (.ignoredCopOperation word)])
    | .registers file => (.registers { file with executed := file.executed + 1 }, [])

/-- Position of the status register of coprocessor 0. -/
def statusRegister : Reg := 12

/-- The status register after its stack of interrupt and mode bits is popped. -/
def popStatus (status : UInt32) : UInt32 :=
  (status &&& 0xfffffff0) ||| ((status >>> (2 : UInt32)) &&& 0xf)

end Dynarec
