/-
  Dynarec.Block.Annotate

  What is worked out about a freshly decoded block before it runs: branches
  that only the interpreter can run, branches that stay inside the block, delay
  slots without effect, accesses whose address is known, and the loop that
  clears memory.
-/
import Dynarec.Block.Basic
import Dynarec.Config

namespace Dynarec.Annotate

variable {δ : Type}

/-- Address of instruction `index` of a block at `pc`. -/
def addressOf (pc : UInt32) (index : Nat) : UInt32 := pc + index.toUInt32 * 4

/-! ## Branches -/

/-- A branch whose delay slot is in the block and holds another branch. -/
def isImpossible (ops : Array Op) (index : Nat) : Bool :=
  match ops[index]?, ops[index + 1]? with
  | some o, some next => o.instr.hasDelaySlot && next.instr.hasDelaySlot
  | _, _ => false

/-- Leave branches with a branch in their delay slot to the interpreter. -/
def impossibleBranches (ops : Array Op) : Array Op :=
  ops.mapIdx fun index o =>
    if isImpossible ops index then { o with flags := { o.flags with emulateBranch := true } } else o

/-- Notices about the branches left to the interpreter. -/
def impossibleNotices (ops : Array Op) : List Notice :=
  (List.range ops.size).filterMap fun index =>
    if isImpossible ops index then some (.impossibleBranch (4 * index)) else none

/-- Where in the block the branch at `index` leads, if it stays inside. -/
def localTarget? (pc : UInt32) (ops : Array Op) (index : Nat) : Option Nat :=
  match ops[index]? with
  | none => none
  | some o =>
    if !o.instr.isBranch || o.flags.emulateBranch then none
    else
      match o.instr.branchTarget? (addressOf pc index) with
      | none => none
      | some target =>
        let distance := (target - pc).toNat
        if distance % 4 = 0 && distance / 4 < ops.size then some (distance / 4) else none

/-- Mark one branch inside the block and its target. -/
def markLocal (pc : UInt32) (ops : Array Op) (index : Nat) : Array Op :=
  match localTarget? pc ops index with
  | none => ops
  | some target =>
    let ops := ops.modify index fun o => { o with flags := { o.flags with localBranch := true } }
    ops.modify target fun o => { o with flags := { o.flags with sync := true } }

/-- Mark branches that stay inside the block, and where they lead. -/
def localBranches (pc : UInt32) (ops : Array Op) : Array Op :=
  (List.range ops.size).foldl (markLocal pc) ops

/-- Mark branches whose delay slot is in the block and has no effect. -/
def nopDelaySlots (ops : Array Op) : Array Op :=
  ops.mapIdx fun index o =>
    match ops[index + 1]? with
    | some next =>
      if o.instr.hasDelaySlot && next.instr.isNop then
        { o with flags := { o.flags with noDelaySlot := true } }
      else o
    | none => o

/-! ## Known addresses -/

/-- Registers whose value is known while a block is read from the front. -/
abbrev Known := Cells 32 (Option UInt32)

namespace Known

/-- Only register zero is known. -/
def initial : Known := (Cells.replicate 32 none).set 0 (some 0)

/-- What is known of a register. -/
def get (k : Known) (r : Reg) : Option UInt32 := k[RegisterFile.cell r]

/-- Value that an instruction computes from known registers, if it is of the kinds
that build addresses. -/
def result? (k : Known) (i : Instruction) : Option UInt32 :=
  match i.op with
  | 0x0f => some (i.imm <<< (16 : UInt32))
  | 0x0d => (k.get i.rs).map (· ||| i.imm)
  | 0x08 | 0x09 => (k.get i.rs).map (· + i.simm)
  | 0x00 =>
    match i.funct, k.get i.rs, k.get i.rt with
    | 0x21, some a, some b => some (a + b)
    | 0x25, some a, some b => some (a ||| b)
    | _, _, _ => none
  | _ => none

/-- What is known after an instruction. -/
def after (k : Known) (i : Instruction) : Known :=
  match i.destination? with
  | some rd => if rd ≠ 0 && rd < 32 then k.set (RegisterFile.cell rd) (k.result? i) else k
  | none => k

end Known

/-- Tag one access if its address is known and leads somewhere. -/
def tagKnown (layout : Layout) (k : Known) (o : Op) : Op :=
  if o.instr.isMemory then
    match k.get o.instr.rs with
    | none => o
    | some base =>
      match layout.resolve (base + o.instr.simm) with
      | .ok r => { o with flags := o.flags.tagged r.kind }
      | .error _ => o
  else o

/-- Tag accesses with known addresses. Where a branch leads, nothing is known. -/
def staticIoFrom (layout : Layout) : Known → List Op → List Op
  | _, [] => []
  | k, o :: rest =>
    let k := if o.flags.sync then Known.initial else k
    tagKnown layout k o :: staticIoFrom layout (k.after o.instr) rest

/-- Tag accesses with known addresses. -/
def staticIo (layout : Layout) (ops : Array Op) : Array Op :=
  (staticIoFrom layout Known.initial ops.toList).toArray

/-! ## The loop that clears memory -/

/-- `sw $zero, 0($a0)` -/
def isClear (i : Instruction) : Bool :=
  i.op == 0x2b && i.rs == .a0 && i.rt == 0 && i.imm == 0

/-- `addiu $a1, $a1, -1` -/
def isCount (i : Instruction) : Bool :=
  i.op == 0x09 && i.rs == .a1 && i.rt == .a1 && i.simm == 0xffffffff

/-- `addiu $a0, $a0, 4` -/
def isAdvance (i : Instruction) : Bool :=
  i.op == 0x09 && i.rs == .a0 && i.rt == .a0 && i.simm == 4

/-- Six instructions that clear `$a1` words at `$a0` and return: clear and count in
either order, branch back while the count is not zero, advance in the delay slot, return
with anything in its delay slot. -/
def isMemsetLoop (pc : UInt32) (ops : Array Op) : Bool :=
  match ops.toList.map (·.instr) with
  | [first, second, branch, advance, back, _] =>
    ((isClear first && isCount second) || (isCount first && isClear second)) &&
    (branch.op == 0x05 && branch.rs == .a1 && branch.rt == 0 &&
      branch.branchTarget? (pc + 8) == some pc) &&
    isAdvance advance &&
    (back.op == 0x00 && back.funct == 0x08 && back.rs == .ra)
  | _ => false

end Dynarec.Annotate

namespace Dynarec

/-- An annotated block. -/
structure Annotated where
  ops : Array Op
  flags : BlockFlags
  notices : List Notice
deriving Inhabited

/-- Annotate the instructions of a block at `pc` as far as the settings ask for it. -/
def annotate (layout : Layout) (config : Config) (pc : UInt32) (ops : Array Op) : Annotated :=
  let detect := config.detectImpossibleBranches
  let notices := if detect then Annotate.impossibleNotices ops else []
  let ops := if detect then Annotate.impossibleBranches ops else ops
  let never := detect && (match ops[0]? with
    | some o => o.flags.emulateBranch
    | none => false)
  let ops := if config.localBranches then Annotate.localBranches pc ops else ops
  let ops := Annotate.nopDelaySlots ops
  let ops := if config.flagIo then Annotate.staticIo layout ops else ops
  { ops
    flags := {
      neverCompile := never
      isMemset := config.replaceMemset && Annotate.isMemsetLoop pc ops }
    notices }

end Dynarec
