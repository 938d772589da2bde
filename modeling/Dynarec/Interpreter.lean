/-
  Dynarec.Interpreter

  Running guest instructions one by one. A taken branch leaves a pending target
  behind; the next instruction, its delay slot, runs before control moves. A
  branch in the delay slot of a taken branch therefore runs one instruction at
  the first target before it jumps itself. That instruction may lie outside the
  block, and is then fetched from memory.
-/
import Dynarec.Block.Decode
import Dynarec.Iteration
import Dynarec.Machine.Access

namespace Dynarec.Interpreter

variable {δ κ : Type} [Device δ] [Coprocessor κ]

/-- Cycles charged for one instruction. -/
def cyclesPerOp : UInt32 := 2

/-- What one instruction does to control. -/
inductive Step where
  | next
  /-- A branch or jump is taken, after the delay slot. -/
  | branch (target : UInt32)
  /-- Guest code is left for this address. -/
  | exit (pc : UInt32)
deriving DecidableEq, Inhabited

/-- Effect of one instruction. -/
structure Executed (δ κ : Type) where
  machine : Machine δ κ
  step : Step := .next
  /-- Kind of memory accessed, if there was a successful access. -/
  access : Option RegionKind := none

/-- A word that no instruction has. -/
def unknown (m : Machine δ κ) (i : Instruction) (pc : UInt32) : Executed δ κ where
  machine := (m.note (.unknownOpcode .interpreter i.word pc)).setExit { unknownOp := true }
  step := .exit pc

/-- Run an instruction of the register-register group. -/
@[inline]
def executeSpecial (m : Machine δ κ) (i : Instruction) (pc rs rt : UInt32) : Executed δ κ :=
  match i.funct with
  | 0x00 | 0x02 | 0x03 =>
    match Instruction.aluOfFunct i.funct with
    | some kind => { machine := m.setReg i.rd (kind.apply rt i.shamt) }
    | none => { machine := m }
  | 0x04 | 0x06 | 0x07 =>
    match Instruction.aluOfFunct i.funct with
    | some kind => { machine := m.setReg i.rd (kind.apply rt rs) }
    | none => { machine := m }
  | 0x08 => { machine := m, step := .branch rs }
  | 0x09 => { machine := m.setReg i.rd (pc + 8), step := .branch rs }
  | 0x0c => { machine := m.setExit { syscall := true }, step := .exit pc }
  | 0x0d => { machine := m.setExit { breakpoint := true }, step := .exit pc }
  | 0x10 => { machine := m.setReg i.rd (m.regs.get .hi) }
  | 0x12 => { machine := m.setReg i.rd (m.regs.get .lo) }
  | 0x11 => { machine := m.setReg .hi rs }
  | 0x13 => { machine := m.setReg .lo rs }
  | 0x18 | 0x19 | 0x1a | 0x1b =>
    match Instruction.mulDivOfFunct i.funct with
    | some kind =>
      let result := kind.apply rs rt
      { machine := (m.setReg .lo result.lo).setReg .hi result.hi }
    | none => { machine := (m.setReg .lo 0).setReg .hi 0 }
  | _ =>
    match Instruction.aluOfFunct i.funct with
    | some kind => { machine := m.setReg i.rd (kind.apply rs rt) }
    | none => unknown m i pc

/-- Run a coprocessor instruction. -/
def executeCop (m : Machine δ κ) (i : Instruction) (pc rt : UInt32) : Executed δ κ :=
  if i.rs &&& 0x10 ≠ 0 then { machine := m.copExecute i }
  else
    match i.rs with
    | 0x00 | 0x02 =>
      let (value, m) := m.copRead i i.rd (i.rs == 0x02)
      { machine := m.setReg i.rt value }
    | 0x04 | 0x06 =>
      { machine := m.copWrite i i.rd rt (i.rs == 0x06)
        step := if i.isSyscall then .exit (pc + 4) else .next }
    | _ => unknown m i pc

/-- Run a memory instruction. -/
def executeMemory (m : Machine δ κ) (i : Instruction) (pc rs rt : UInt32) : Executed δ κ :=
  let t := m.transfer i rs rt
  let m := t.machine
  if m.clock.exit.segfault then { machine := m, step := .exit pc, access := t.kind }
  else if i.isLoad && i.op != 0x32 then { machine := m.setReg i.rt t.value, access := t.kind }
  else { machine := m, access := t.kind }

/-- Run one instruction at `pc`. -/
@[inline]
def execute (m : Machine δ κ) (i : Instruction) (pc : UInt32) : Executed δ κ :=
  let rs := m.regs.get i.rs
  let rt := m.regs.get i.rt
  match i.op with
  | 0x00 => executeSpecial m i pc rs rt
  | 0x02 => { machine := m, step := .branch ((i.branchTarget? pc).getD pc) }
  | 0x03 => { machine := m.setReg .ra (pc + 8), step := .branch ((i.branchTarget? pc).getD pc) }
  | 0x04 | 0x05 | 0x06 | 0x07 | 0x01 =>
    match i.condition? with
    | none => unknown m i pc
    | some condition =>
      let m := if i.isBranchAndLink then m.setReg .ra (pc + 8) else m
      if condition.holds rs rt then { machine := m, step := .branch ((i.branchTarget? pc).getD pc) }
      else { machine := m }
  | 0x0f => { machine := m.setReg i.rt (i.imm <<< (16 : UInt32)) }
  | 0x10 | 0x12 => executeCop m i pc rt
  | _ =>
    if i.isMemory then executeMemory m i pc rs rt
    else
      match i.aluImmediate? with
      | some (kind, imm) => { machine := m.setReg i.rt (kind.apply rs imm) }
      | none => unknown m i pc

/-- Run the one instruction at `pc`, outside of any block, and go on at `target`. -/
def runOutside (m : Machine δ κ) (pc target : UInt32) : UInt32 × Machine δ κ :=
  match m.memory.readWord pc with
  | .error fault => (pc, (m.note (.cannotFetchDelaySlot pc fault)).setExit { segfault := true })
  | .ok word =>
    let e := execute (m.tick cyclesPerOp) { word } pc
    match e.step with
    | .exit next => (next, e.machine)
    | .branch _ | .next => (target, e.machine)

/-- A block being interpreted. -/
structure Cursor (δ κ : Type) where
  machine : Machine δ κ
  ops : Array Op
  /-- Whether an access got its first tag. -/
  tagged : Bool := false
  pc : UInt32
  /-- Target of the taken branch whose delay slot is next. -/
  pending : Option UInt32 := none

/-- A block that has been left. -/
structure Outcome (δ κ : Type) where
  machine : Machine δ κ
  ops : Array Op
  tagged : Bool
  /-- Where guest code goes on. -/
  next : UInt32

/-- Position of an address in a block of `count` instructions at `base`. -/
@[inline]
def indexIn? (base : UInt32) (count : Nat) (pc : UInt32) : Option Nat :=
  let distance := (pc - base).toNat
  if distance % 4 = 0 && distance / 4 < count then some (distance / 4) else none

/-- Tag the access at `index` with the kind of memory it met, unless it is tagged. -/
@[inline]
def tagAccess (ops : Array Op) (tagged : Bool) (index : Nat) (o : Op) :
    Option RegionKind → Array Op × Bool
  | none => (ops, tagged)
  | some kind =>
    if o.isTagged then (ops, tagged)
    else (ops.setIfInBounds index { o with flags := o.flags.tagged kind }, true)

/-- Whether the jump to `target` from the delay slot at `index` goes back inside the
block: there the host gets a chance to stop. -/
@[inline]
def goesBack (base : UInt32) (count index : Nat) (target : UInt32) : Bool :=
  match indexIn? base count target with
  | some t => t ≤ index
  | none => false

/-- Run one instruction of a block at `base`. -/
@[inline]
def step (base : UInt32) (c : Cursor δ κ) : Progress (Cursor δ κ) (Outcome δ κ) :=
  match indexIn? base c.ops.size c.pc with
  | none =>
    match c.pending with
    | some target =>
      let (next, machine) := runOutside c.machine c.pc target
      .finished { machine, ops := c.ops, tagged := c.tagged, next }
    | none => .finished { machine := c.machine, ops := c.ops, tagged := c.tagged, next := c.pc }
  | some index =>
    let o := c.ops.getD index default
    let count := c.ops.size
    let pc := c.pc
    let delayed := c.pending
    let e := execute (c.machine.tick cyclesPerOp) o.instr pc
    let (ops, tagged) := tagAccess c.ops c.tagged index o e.access
    let machine := e.machine
    match e.step with
    | .exit next => .finished { machine, ops, tagged, next }
    | .branch target =>
      .running { machine, ops, tagged, pc := delayed.getD (pc + 4), pending := some target }
    | .next =>
      match delayed with
      | none => .running { machine, ops, tagged, pc := pc + 4 }
      | some target =>
        if goesBack base count index target && machine.clock.shouldStop then
          .finished { machine, ops, tagged, next := target }
        else .running { machine, ops, tagged, pc := target }

/-- Run instructions of a block at `base` from position `start` on until it is left. -/
def run (fuel : Nat) (m : Machine δ κ) (base : UInt32) (ops : Array Op) (start : Nat) :
    Progress (Cursor δ κ) (Outcome δ κ) :=
  iterate (step base) fuel { machine := m, ops, pc := base + start.toUInt32 * 4 }

/-- A block after it was interpreted. -/
structure Emulated (δ κ : Type) where
  machine : Machine δ κ
  block : Block
  next : UInt32

/-- Interpret a block from `pc` on, an address inside of it, until it is left, or until
`fuel` steps are done. New access tags ask for new code. A block whose instructions were
freed is decoded again. -/
def emulate (fuel : Nat) (m : Machine δ κ) (b : Block) (pc : UInt32) :
    Progress (Cursor δ κ) (Emulated δ κ) :=
  let start := ((pc - b.pc) >>> (2 : UInt32)).toNat
  match b.ops with
  | some ops =>
    match run fuel m b.pc ops start with
    | .running c => .running c
    | .finished o =>
      if o.tagged then
        let (block, machine) := o.machine.flagRecompile { b with ops := some o.ops }
        .finished { machine, block, next := o.next }
      else .finished { machine := o.machine, block := b, next := o.next }
  | none =>
    match Block.decode m.memory b.pc b.opCount with
    | .error fault =>
      .finished {
        machine := (m.note (.cannotDecodeAgain b.pc fault)).setExit { segfault := true }
        block := b
        next := pc }
    | .ok ops =>
      match run fuel m b.pc (ops.extract 0 b.opCount) start with
      | .running c => .running c
      | .finished o => .finished { machine := o.machine, block := b, next := o.next }

end Dynarec.Interpreter
