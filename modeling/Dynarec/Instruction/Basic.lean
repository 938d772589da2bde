/-
  Dynarec.Instruction.Basic

  Instruction words of the R3000A: their fields, the tables that read a kind of
  operation off them, and the classes of words that block formation relies on.

     31    26 25  21 20  16 15  11 10   6 5     0
    |   op   |  rs  |  rt  |  rd  | shamt| funct |
    |   op   |  rs  |  rt  |      immediate      |
    |   op   |              target               |
-/
import Dynarec.Instruction.Arithmetic

namespace Dynarec

/-- Number of a guest register: 0 to 31, then LO and HI. -/
abbrev Reg := UInt8

namespace Reg

def zero : Reg := 0
def a0 : Reg := 4
def a1 : Reg := 5
def sp : Reg := 29
def ra : Reg := 31
def lo : Reg := 32
def hi : Reg := 33

/-- Conventional names, in register order. -/
def names : Array String :=
  #["zero", "at", "v0", "v1", "a0", "a1", "a2", "a3", "t0", "t1", "t2", "t3", "t4", "t5", "t6",
    "t7", "s0", "s1", "s2", "s3", "s4", "s5", "s6", "s7", "t8", "t9", "k0", "k1", "gp", "sp",
    "fp", "ra", "lo", "hi"]

/-- Conventional name of a general register. -/
def name (r : Reg) : String := names.getD (r &&& 31).toNat ""

end Reg

/-- Load or store of a guest instruction. -/
inductive MemoryAccess where
  | lb | lbu | lh | lhu | lw | lwl | lwr | lwc2 | sb | sh | sw | swl | swr | swc2
deriving DecidableEq, Inhabited

namespace MemoryAccess

/-- Whether the access writes memory. -/
def isStore : MemoryAccess → Bool
  | .sb | .sh | .sw | .swl | .swr | .swc2 => true
  | _ => false

/-- All accesses. -/
def all : List MemoryAccess :=
  [.lb, .lbu, .lh, .lhu, .lw, .lwl, .lwr, .lwc2, .sb, .sh, .sw, .swl, .swr, .swc2]

end MemoryAccess

/-- One guest instruction word. -/
structure Instruction where
  word : UInt32
deriving DecidableEq, Inhabited

namespace Instruction

/-! ## Fields -/

def op (i : Instruction) : UInt8 := (i.word >>> 26).toUInt8
def rs (i : Instruction) : Reg := ((i.word >>> 21) &&& 0x1f).toUInt8
def rt (i : Instruction) : Reg := ((i.word >>> 16) &&& 0x1f).toUInt8
def rd (i : Instruction) : Reg := ((i.word >>> 11) &&& 0x1f).toUInt8
def shamt (i : Instruction) : UInt32 := (i.word >>> 6) &&& 0x1f
def funct (i : Instruction) : UInt8 := (i.word &&& 0x3f).toUInt8
/-- The immediate, extended with zeros. -/
def imm (i : Instruction) : UInt32 := i.word &&& 0xffff
/-- The immediate, extended with its sign. -/
def simm (i : Instruction) : UInt32 := i.word.toUInt16.toInt16.toInt32.toUInt32
def target (i : Instruction) : UInt32 := i.word &&& 0x03ffffff

/-! ## Tables -/

/-- The two-operand operation of a register-register function code. -/
def aluOfFunct (funct : UInt8) : Option AluOp :=
  match funct with
  | 0x00 | 0x04 => some .sll
  | 0x02 | 0x06 => some .srl
  | 0x03 | 0x07 => some .sra
  | 0x20 | 0x21 => some .add
  | 0x22 | 0x23 => some .sub
  | 0x24 => some .and
  | 0x25 => some .or
  | 0x26 => some .xor
  | 0x27 => some .nor
  | 0x2a => some .slt
  | 0x2b => some .sltu
  | _ => none

/-- The multiply or divide of a function code. -/
def mulDivOfFunct (funct : UInt8) : Option MulDivOp :=
  match funct with
  | 0x18 => some .mult
  | 0x19 => some .multu
  | 0x1a => some .div
  | 0x1b => some .divu
  | _ => none

/-- The operation of an immediate instruction with its extended immediate. -/
def aluImmediate? (i : Instruction) : Option (AluOp × UInt32) :=
  match i.op with
  | 0x08 | 0x09 => some (.add, i.simm)
  | 0x0a => some (.slt, i.simm)
  | 0x0b => some (.sltu, i.simm)
  | 0x0c => some (.and, i.imm)
  | 0x0d => some (.or, i.imm)
  | 0x0e => some (.xor, i.imm)
  | _ => none

/-- The condition of a branch instruction. -/
def condition? (i : Instruction) : Option Condition :=
  match i.op with
  | 0x04 => some .eq
  | 0x05 => some .ne
  | 0x06 => some .lez
  | 0x07 => some .gtz
  | 0x01 =>
    match i.rt with
    | 0x00 | 0x10 => some .ltz
    | 0x01 | 0x11 => some .gez
    | _ => none
  | _ => none

/-- The load or store of an instruction. -/
def memoryAccess? (i : Instruction) : Option MemoryAccess :=
  match i.op with
  | 0x20 => some .lb
  | 0x21 => some .lh
  | 0x22 => some .lwl
  | 0x23 => some .lw
  | 0x24 => some .lbu
  | 0x25 => some .lhu
  | 0x26 => some .lwr
  | 0x28 => some .sb
  | 0x29 => some .sh
  | 0x2a => some .swl
  | 0x2b => some .sw
  | 0x2e => some .swr
  | 0x32 => some .lwc2
  | 0x3a => some .swc2
  | _ => none

/-- Whether a coprocessor word addresses coprocessor 0; all others go to coprocessor 2. -/
def isCop0 (i : Instruction) : Bool := i.op == 0x10

/-- The coprocessor 0 command that pops the interrupt stack of the status register. -/
def isReturnFromException (i : Instruction) : Bool := i.isCop0 && i.funct == 0x10

/-! ## Classes -/

/-- Words without any effect: the zero word, and results discarded by register zero. -/
def isNop (i : Instruction) : Bool :=
  i.word == 0 ||
  match i.op with
  | 0x00 =>
    match i.funct with
    | 0x00 | 0x02 | 0x03 | 0x04 | 0x06 | 0x07 | 0x21 | 0x23 | 0x24 | 0x25 | 0x26 | 0x27 | 0x2a | 0x2b
    | 0x10 | 0x12 => i.rd == 0
    | _ => false
  | 0x09 | 0x0a | 0x0b | 0x0c | 0x0d | 0x0e | 0x0f => i.rt == 0
  | _ => false

/-- Words after which a block ends so that the host can react: system calls,
breakpoints, and writes to the status and cause registers of coprocessor 0. -/
def isSyscall (i : Instruction) : Bool :=
  match i.op with
  | 0x00 => i.funct == 0x0c || i.funct == 0x0d
  | 0x10 => (i.rs == 0x04 || i.rs == 0x06) && (i.rd == 12 || i.rd == 13)
  | _ => false

/-- Jumps, and branches whose condition compares a register with itself or tests
register zero. -/
def isUnconditionalJump (i : Instruction) : Bool :=
  match i.op with
  | 0x00 => i.funct == 0x08 || i.funct == 0x09
  | 0x02 | 0x03 => true
  | 0x04 | 0x06 => i.rs == i.rt
  | 0x01 => (i.rt == 0x01 || i.rt == 0x11) && i.rs == 0
  | _ => false

/-- Branches and jumps; the instruction after them runs before control moves. -/
def hasDelaySlot (i : Instruction) : Bool :=
  match i.op with
  | 0x00 => i.funct == 0x08 || i.funct == 0x09
  | 0x02 | 0x03 | 0x04 | 0x05 | 0x06 | 0x07 => true
  | 0x01 => i.rt == 0x00 || i.rt == 0x01 || i.rt == 0x10 || i.rt == 0x11
  | _ => false

/-- Branches relative to the program counter. -/
def isBranch (i : Instruction) : Bool :=
  match i.op with
  | 0x04 | 0x05 | 0x06 | 0x07 | 0x01 => i.hasDelaySlot
  | _ => false

/-- Branches that write the return address whether taken or not. -/
def isBranchAndLink (i : Instruction) : Bool :=
  i.op == 0x01 && (i.rt == 0x10 || i.rt == 0x11)

/-- Where a branch or direct jump at `pc` leads. -/
def branchTarget? (i : Instruction) (pc : UInt32) : Option UInt32 :=
  if i.isBranch then some (pc + 4 + (i.simm <<< (2 : UInt32)))
  else if i.op == 0x02 || i.op == 0x03 then
    some (((pc + 4) &&& 0xf0000000) ||| (i.target <<< (2 : UInt32)))
  else none

/-- Loads. -/
def isLoad (i : Instruction) : Bool :=
  match i.op with
  | 0x20 | 0x21 | 0x22 | 0x23 | 0x24 | 0x25 | 0x26 | 0x32 => true
  | _ => false

/-- Stores. -/
def isStore (i : Instruction) : Bool :=
  match i.op with
  | 0x28 | 0x29 | 0x2a | 0x2b | 0x2e | 0x3a => true
  | _ => false

/-- Loads and stores. -/
def isMemory (i : Instruction) : Bool := i.isLoad || i.isStore

/-- Register the instruction writes, if any. Multiply and divide report LO; a word
of unknown operation reports the field its group would write. -/
def destination? (i : Instruction) : Option Reg :=
  match i.op with
  | 0x00 =>
    match i.funct with
    | 0x08 | 0x0c | 0x0d | 0x11 | 0x13 => none
    | 0x18 | 0x19 | 0x1a | 0x1b => some .lo
    | _ => some i.rd
  | 0x01 =>
    match i.rt with
    | 0x10 | 0x11 => some .ra
    | _ => none
  | 0x03 => some .ra
  | 0x02 | 0x04 | 0x05 | 0x06 | 0x07 => none
  | 0x10 | 0x12 =>
    match i.rs with
    | 0x00 | 0x02 => some i.rt
    | _ => none
  | 0x32 | 0x28 | 0x29 | 0x2a | 0x2b | 0x2e | 0x3a => none
  | _ => some i.rt

end Instruction

end Dynarec
