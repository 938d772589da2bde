/-
  Dynarec.Host.Program

  Generated code: a program of host operations over a small bank of host
  registers, with the places where it can be entered.
-/
import Dynarec.Cells
import Dynarec.Clock
import Dynarec.Instruction.Listing

namespace Dynarec

/-- One of the eight host registers. -/
abbrev HostReg := Fin 8

/-- One step of generated code. -/
inductive HostOp where
  | load (host : HostReg) (guest : Reg)
  | store (host : HostReg) (guest : Reg)
  /-- Charge cycles. -/
  | tick (cycles : UInt32)
  | const (dst : HostReg) (value : UInt32)
  | move (dst src : HostReg)
  | alu (kind : AluOp) (dst a b : HostReg)
  | aluImmediate (kind : AluOp) (dst a : HostReg) (imm : UInt32)
  | mulDiv (kind : MulDivOp) (a b lo hi : HostReg)
  /-- Load or store of the instruction at `index` in the block. -/
  | memory (index : Nat) (op : Op) (base : HostReg) (data dst : Option HostReg)
  | copRead (instr : Instruction) (reg : Reg) (control : Bool) (dst : HostReg)
  | copWrite (instr : Instruction) (reg : Reg) (control : Bool) (src : HostReg)
  | copExecute (instr : Instruction)
  /-- Remember whether a branch is taken. -/
  | setCondition (condition : Condition) (a b : HostReg)
  /-- Remember where a register jump leads. -/
  | setTarget (src : HostReg)
  /-- Record reasons to leave guest code. -/
  | raise (flags : ExitFlags)
  | exit (pc : UInt32)
  | exitToTarget
  | exitIf (pc : UInt32)
  /-- Go on at `label`; leave to `pc` when the run has to stop. -/
  | jump (label : Nat) (pc : UInt32)
  | jumpIf (label : Nat) (pc : UInt32)
deriving DecidableEq, Inhabited

/-- Code of one block. -/
structure HostProgram where
  /-- Guest address of the block. -/
  pc : UInt32
  ops : Array HostOp
  /-- Instruction offsets where the program can be entered, with their places. -/
  entries : Array (Nat × Nat)
deriving DecidableEq, Inhabited

namespace HostProgram

/-- Number of host operations. -/
def size (p : HostProgram) : Nat := p.ops.size

/-- Among the `count` entries from `first` on, the last one that a search by halves takes to
be at or in front of `offset`. -/
def searchEntry (entries : Array (Nat × Nat)) (offset first count : Nat) : Nat :=
  if count ≤ 1 then first
  else
    let half := count / 2
    let middle := first + half
    let first := if (entries.getD middle default).1 ≤ offset then middle else first
    searchEntry entries offset first (count - half)
termination_by count
decreasing_by omega

/-- Place where the program is entered for an instruction offset. -/
@[inline]
def entryPoint? (p : HostProgram) (offset : Nat) : Option Nat :=
  match p.entries[searchEntry p.entries offset 0 p.entries.size]? with
  | some (found, place) => if found = offset then some place else none
  | none => none

/-- Bytes of host memory one operation takes. -/
def bytesPerOp : Nat := 16

/-- Bytes of host memory the program takes. -/
def codeSize (p : HostProgram) : Nat := p.size * bytesPerOp

end HostProgram

end Dynarec
