/-
  Dynarec.Instruction.Listing

  Annotated instructions and their listing in assembler syntax.
-/
import Dynarec.Clock
import Dynarec.Instruction.Basic
import Dynarec.Text.Hex

namespace Dynarec

/-- Kind of memory behind an address. -/
inductive RegionKind where
  | direct | device
deriving DecidableEq, Inhabited

/-- Annotations of an instruction inside a block. -/
structure OpFlags where
  /-- The access goes to directly backed memory. -/
  directIo : Bool := false
  /-- The access goes to a device. -/
  deviceIo : Bool := false
  /-- The delay slot is without effect and is not emitted. -/
  noDelaySlot : Bool := false
  /-- Only the interpreter can run this branch. -/
  emulateBranch : Bool := false
  /-- The branch target lies in the same block. -/
  localBranch : Bool := false
  /-- The instruction is the target of a local branch. -/
  sync : Bool := false
deriving DecidableEq, Inhabited

namespace OpFlags

/-- Flags by position, lowest bit first. -/
def toList (f : OpFlags) : List Bool :=
  [f.directIo, f.deviceIo, f.noDelaySlot, f.emulateBranch, f.localBranch, f.sync]

/-- Lower-case names, in the order of `toList`. -/
def names : List String :=
  ["direct_io", "hw_io", "no_ds", "emulate_branch", "local_branch", "sync"]

def toNat (f : OpFlags) : Nat := bitsToNat f.toList

/-- The flags whose bits are set in a number; other bits are dropped. -/
def ofNat (n : Nat) : OpFlags where
  directIo := n.testBit 0
  deviceIo := n.testBit 1
  noDelaySlot := n.testBit 2
  emulateBranch := n.testBit 3
  localBranch := n.testBit 4
  sync := n.testBit 5

def isEmpty (f : OpFlags) : Bool := f == {}

/-- Whether the kind of memory accessed is known. -/
def isTagged (f : OpFlags) : Bool := f.directIo || f.deviceIo

/-- The flags set in either. -/
def union (f g : OpFlags) : OpFlags where
  directIo := f.directIo || g.directIo
  deviceIo := f.deviceIo || g.deviceIo
  noDelaySlot := f.noDelaySlot || g.noDelaySlot
  emulateBranch := f.emulateBranch || g.emulateBranch
  localBranch := f.localBranch || g.localBranch
  sync := f.sync || g.sync

/-- The tag of an access to a kind of memory. -/
def ofKind : RegionKind → OpFlags
  | .direct => { directIo := true }
  | .device => { deviceIo := true }

/-- Record the kind of memory accessed, unless it is known. -/
def tagged (f : OpFlags) (kind : RegionKind) : OpFlags :=
  if f.isTagged then f else f.union (ofKind kind)

/-- Names of the flags that are set, separated by commas. -/
def describe (f : OpFlags) : String :=
  ",".intercalate ((f.toList.zip names).filterMap fun (set, name) => if set then some name else none)

end OpFlags

/-- An instruction of a block with its annotations. -/
structure Op where
  instr : Instruction
  flags : OpFlags := {}
deriving DecidableEq, Inhabited

namespace Op

/-- An instruction word without annotations. -/
def ofWord (w : UInt32) : Op := { instr := { word := w } }

def isTagged (o : Op) : Bool := o.flags.isTagged

end Op

namespace Instruction

/-- The immediate as a signed decimal number. -/
def signedText (i : Instruction) : String := toString i.simm.toInt32.toInt

/-- The immediate as four hexadecimal digits. -/
def hexText (i : Instruction) : String := Text.hex 4 i.imm.toNat

/-- An instruction with operands, separated by commas. -/
def asm (name : String) (operands : List String) : String :=
  name ++ " " ++ ", ".intercalate operands

/-- The address of an access: the base register and the immediate added to it. -/
def addressText (i : Instruction) : String := i.signedText ++ "(" ++ i.rs.name ++ ")"

/-- A word that no instruction has. -/
def wordText (i : Instruction) : String := ".word " ++ Text.hexWord i.word

/-- An instruction of the register-register group. -/
def renderSpecial (i : Instruction) : String :=
  let rs := i.rs.name
  let rt := i.rt.name
  let rd := i.rd.name
  let shamt := toString i.shamt.toNat
  match i.funct with
  | 0x00 => asm "sll" [rd, rt, shamt]
  | 0x02 => asm "srl" [rd, rt, shamt]
  | 0x03 => asm "sra" [rd, rt, shamt]
  | 0x04 => asm "sllv" [rd, rt, rs]
  | 0x06 => asm "srlv" [rd, rt, rs]
  | 0x07 => asm "srav" [rd, rt, rs]
  | 0x08 => asm "jr" [rs]
  | 0x09 => asm "jalr" [rd, rs]
  | 0x0c => "syscall"
  | 0x0d => "break"
  | 0x10 => asm "mfhi" [rd]
  | 0x11 => asm "mthi" [rs]
  | 0x12 => asm "mflo" [rd]
  | 0x13 => asm "mtlo" [rs]
  | 0x18 => asm "mult" [rs, rt]
  | 0x19 => asm "multu" [rs, rt]
  | 0x1a => asm "div" [rs, rt]
  | 0x1b => asm "divu" [rs, rt]
  | 0x20 => asm "add" [rd, rs, rt]
  | 0x21 => asm "addu" [rd, rs, rt]
  | 0x22 => asm "sub" [rd, rs, rt]
  | 0x23 => asm "subu" [rd, rs, rt]
  | 0x24 => asm "and" [rd, rs, rt]
  | 0x25 => asm "or" [rd, rs, rt]
  | 0x26 => asm "xor" [rd, rs, rt]
  | 0x27 => asm "nor" [rd, rs, rt]
  | 0x2a => asm "slt" [rd, rs, rt]
  | 0x2b => asm "sltu" [rd, rs, rt]
  | _ => i.wordText

/-- A branch of the group that tests a sign. -/
def renderSignBranch (i : Instruction) (target : String) : String :=
  let rs := i.rs.name
  match i.rt with
  | 0x00 => asm "bltz" [rs, target]
  | 0x01 => asm "bgez" [rs, target]
  | 0x10 => asm "bltzal" [rs, target]
  | 0x11 => asm "bgezal" [rs, target]
  | _ => i.wordText

/-- A coprocessor instruction. -/
def renderCop (i : Instruction) : String :=
  let digit := if i.isCop0 then "0" else "2"
  let rt := i.rt.name
  let register := "$" ++ toString i.rd.toNat
  if i.rs &&& 0x10 ≠ 0 then
    if i.isReturnFromException then "rfe"
    else asm ("cop" ++ digit) [Text.hex 7 (i.word &&& 0x01ffffff).toNat]
  else
    match i.rs with
    | 0x00 => asm ("mfc" ++ digit) [rt, register]
    | 0x02 => asm ("cfc" ++ digit) [rt, register]
    | 0x04 => asm ("mtc" ++ digit) [rt, register]
    | 0x06 => asm ("ctc" ++ digit) [rt, register]
    | _ => i.wordText

/-- One instruction in assembler syntax; `pc` resolves branch targets. -/
def render (i : Instruction) (pc : UInt32) : String :=
  let rs := i.rs.name
  let rt := i.rt.name
  let target := Text.hexWord ((i.branchTarget? pc).getD 0)
  if i.word = 0 then "nop"
  else
    match i.op with
    | 0x00 => i.renderSpecial
    | 0x01 => i.renderSignBranch target
    | 0x02 => asm "j" [target]
    | 0x03 => asm "jal" [target]
    | 0x04 => asm "beq" [rs, rt, target]
    | 0x05 => asm "bne" [rs, rt, target]
    | 0x06 => asm "blez" [rs, target]
    | 0x07 => asm "bgtz" [rs, target]
    | 0x08 => asm "addi" [rt, rs, i.signedText]
    | 0x09 => asm "addiu" [rt, rs, i.signedText]
    | 0x0a => asm "slti" [rt, rs, i.signedText]
    | 0x0b => asm "sltiu" [rt, rs, i.signedText]
    | 0x0c => asm "andi" [rt, rs, i.hexText]
    | 0x0d => asm "ori" [rt, rs, i.hexText]
    | 0x0e => asm "xori" [rt, rs, i.hexText]
    | 0x0f => asm "lui" [rt, i.hexText]
    | 0x10 | 0x12 => i.renderCop
    | 0x20 => asm "lb" [rt, i.addressText]
    | 0x21 => asm "lh" [rt, i.addressText]
    | 0x22 => asm "lwl" [rt, i.addressText]
    | 0x23 => asm "lw" [rt, i.addressText]
    | 0x24 => asm "lbu" [rt, i.addressText]
    | 0x25 => asm "lhu" [rt, i.addressText]
    | 0x26 => asm "lwr" [rt, i.addressText]
    | 0x28 => asm "sb" [rt, i.addressText]
    | 0x29 => asm "sh" [rt, i.addressText]
    | 0x2a => asm "swl" [rt, i.addressText]
    | 0x2b => asm "sw" [rt, i.addressText]
    | 0x2e => asm "swr" [rt, i.addressText]
    | 0x32 => asm "lwc2" [toString i.rt.toNat, i.addressText]
    | 0x3a => asm "swc2" [toString i.rt.toNat, i.addressText]
    | _ => i.wordText

end Instruction

namespace Listing

/-- What a listing shows beside the instructions. -/
structure Style where
  addresses : Bool := true
  annotations : Bool := true
deriving Inhabited

/-- One line for the instruction at `addr`. -/
def line (style : Style) (addr : UInt32) (o : Op) : String :=
  (if style.addresses then Text.hexDigits 8 addr.toNat ++ ":  " else "") ++
  o.instr.render addr ++
  (if style.annotations && !o.flags.isEmpty then "    ;; " ++ o.flags.describe else "") ++ "\n"

/-- Lines for instructions that follow each other in memory. -/
def lines (style : Style) : UInt32 → List Op → String
  | _, [] => ""
  | addr, o :: rest => line style addr o ++ lines style (addr + 4) rest

/-- Listing of a block that starts at `pc`. -/
def block (style : Style) (pc : UInt32) (ops : Array Op) : String :=
  ";; Block @ " ++ Text.hexWord pc ++ ", " ++ toString ops.size ++ " opcodes\n" ++
  lines style pc ops.toList

end Listing

end Dynarec
