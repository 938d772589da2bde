/-
  Dynarec.Proofs.Instruction

  What an instruction word asks for.

  The interpreter, the classes of words and the tables of operations each read
  the fields of a word in their own order. Here the whole of a word is decoded
  once, into an operation; later proofs go by operations.
-/
import Dynarec.Instruction.Basic

namespace Dynarec

/-- What an instruction word asks for. The operands stay in the word's fields.
`trapping` tells the variants that differ from others only in raising an overflow
exception, which the engine does not model. -/
inductive Operation where
  /-- Shift by the `shamt` field. -/
  | shift (kind : AluOp)
  /-- Shift of `rt` by the value of `rs`. -/
  | shiftVariable (kind : AluOp)
  | jumpRegister
  | jumpLinkRegister
  | syscall
  | breakpoint
  | moveFromHi
  | moveFromLo
  | moveToHi
  | moveToLo
  | mulDiv (kind : MulDivOp)
  | alu (kind : AluOp) (trapping : Bool)
  | aluImmediate (kind : AluOp) (trapping : Bool)
  | loadUpper
  | jump
  | jumpLink
  | branch (condition : Condition) (link : Bool)
  | copRead (control : Bool)
  | copWrite (control : Bool)
  | copExecute
  | memory (access : MemoryAccess)
  | unknown
deriving DecidableEq, Inhabited

namespace Instruction

/-! ## Decoding -/

/-- Operation of a word in the register-register group. -/
def specialOperation (funct : UInt8) : Operation :=
  match funct with
  | 0x00 => .shift .sll
  | 0x02 => .shift .srl
  | 0x03 => .shift .sra
  | 0x04 => .shiftVariable .sll
  | 0x06 => .shiftVariable .srl
  | 0x07 => .shiftVariable .sra
  | 0x08 => .jumpRegister
  | 0x09 => .jumpLinkRegister
  | 0x0c => .syscall
  | 0x0d => .breakpoint
  | 0x10 => .moveFromHi
  | 0x11 => .moveToHi
  | 0x12 => .moveFromLo
  | 0x13 => .moveToLo
  | 0x18 => .mulDiv .mult
  | 0x19 => .mulDiv .multu
  | 0x1a => .mulDiv .div
  | 0x1b => .mulDiv .divu
  | 0x20 => .alu .add true
  | 0x21 => .alu .add false
  | 0x22 => .alu .sub true
  | 0x23 => .alu .sub false
  | 0x24 => .alu .and false
  | 0x25 => .alu .or false
  | 0x26 => .alu .xor false
  | 0x27 => .alu .nor false
  | 0x2a => .alu .slt false
  | 0x2b => .alu .sltu false
  | _ => .unknown

/-- Operation of a coprocessor word with the given `rs` field. -/
def copOperation (rs : Reg) : Operation :=
  if rs &&& 0x10 ≠ 0 then .copExecute
  else
    match rs with
    | 0x00 => .copRead false
    | 0x02 => .copRead true
    | 0x04 => .copWrite false
    | 0x06 => .copWrite true
    | _ => .unknown

/-- What the word asks for. -/
def operation (i : Instruction) : Operation :=
  match i.op with
  | 0x00 => specialOperation i.funct
  | 0x01 =>
    match i.rt with
    | 0x00 => .branch .ltz false
    | 0x01 => .branch .gez false
    | 0x10 => .branch .ltz true
    | 0x11 => .branch .gez true
    | _ => .unknown
  | 0x02 => .jump
  | 0x03 => .jumpLink
  | 0x04 => .branch .eq false
  | 0x05 => .branch .ne false
  | 0x06 => .branch .lez false
  | 0x07 => .branch .gtz false
  | 0x08 => .aluImmediate .add true
  | 0x09 => .aluImmediate .add false
  | 0x0a => .aluImmediate .slt false
  | 0x0b => .aluImmediate .sltu false
  | 0x0c => .aluImmediate .and false
  | 0x0d => .aluImmediate .or false
  | 0x0e => .aluImmediate .xor false
  | 0x0f => .loadUpper
  | 0x10 | 0x12 => copOperation i.rs
  | 0x20 => .memory .lb
  | 0x21 => .memory .lh
  | 0x22 => .memory .lwl
  | 0x23 => .memory .lw
  | 0x24 => .memory .lbu
  | 0x25 => .memory .lhu
  | 0x26 => .memory .lwr
  | 0x28 => .memory .sb
  | 0x29 => .memory .sh
  | 0x2a => .memory .swl
  | 0x2b => .memory .sw
  | 0x2e => .memory .swr
  | 0x32 => .memory .lwc2
  | 0x3a => .memory .swc2
  | _ => .unknown

/-- The immediate as the operation extends it: logical operations take it
unsigned, all others signed. -/
def extended (i : Instruction) (kind : AluOp) : UInt32 :=
  match kind with
  | .and | .or | .xor => i.imm
  | _ => i.simm

theorem funct_of_specialOperation {f : UInt8} :
    (specialOperation f = .moveToHi → f = 0x11) ∧ (specialOperation f = .moveToLo → f = 0x13) ∧
      ∀ kind, specialOperation f = .mulDiv kind → f ∈ [0x18, 0x19, 0x1a, 0x1b] := by
  fun_cases specialOperation f <;> simp

/-- Moves to LO and HI, products and quotients are in the register-register group. -/
theorem special_of_writes_hiLo {i : Instruction} (h : i.operation = .moveToHi ∨
    i.operation = .moveToLo ∨ ∃ kind, i.operation = .mulDiv kind) :
    i.op = 0 ∧ i.operation = specialOperation i.funct := by
  revert h
  -- outside of the group no operation code leads to one of them
  fun_cases operation i
  case case1 hop => exact fun _ => ⟨hop, rfl⟩
  case case21 | case22 => fun_cases copOperation i.rs <;> simp
  all_goals simp

end Instruction

end Dynarec
