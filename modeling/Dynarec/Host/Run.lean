/-
  Dynarec.Host.Run

  Running generated code on the guest machine, one host operation at a time.
-/
import Dynarec.Block.Basic
import Dynarec.Iteration
import Dynarec.Machine.Access

namespace Dynarec.HostProgram

variable {δ κ : Type} [Device δ] [Coprocessor κ]

/-- Generated code being run. -/
structure Frame (δ κ : Type) where
  machine : Machine δ κ
  /-- The block the code was generated for; new access tags go there. -/
  block : Block
  /-- Whether an access got its first tag. -/
  tagged : Bool := false
  host : Cells 8 UInt32 := .replicate 8 0
  /-- Whether the branch at hand is taken. -/
  condition : Bool := false
  /-- Where the register jump at hand leads. -/
  target : UInt32 := 0
  /-- Operation to run next. -/
  place : Nat

/-- Generated code that has been left. -/
structure Returned (δ κ : Type) where
  machine : Machine δ κ
  block : Block
  /-- Whether an access got its first tag; otherwise the block is as it was. -/
  tagged : Bool
  /-- Where guest code goes on. -/
  next : UInt32

namespace Frame

/-- Leave for a guest address. -/
@[inline]
def leave (f : Frame δ κ) (next : UInt32) : Progress (Frame δ κ) (Returned δ κ) :=
  .finished { machine := f.machine, block := f.block, tagged := f.tagged, next }

/-- Go on with the operation behind this one. -/
@[inline]
def goOn (f : Frame δ κ) : Progress (Frame δ κ) (Returned δ κ) :=
  .running { f with place := f.place + 1 }

/-- Change a host register. -/
@[inline]
def put (f : Frame δ κ) (h : HostReg) (value : UInt32) : Frame δ κ :=
  { f with host := f.host.set h value }

/-- Jump inside the block, or leave for `pc` when the run has to stop. -/
@[inline]
def jump (f : Frame δ κ) (label : Nat) (pc : UInt32) : Progress (Frame δ κ) (Returned δ κ) :=
  if f.machine.clock.shouldStop then f.leave pc else .running { f with place := label }

/-- Tag the access at `index` after its first success; a new tag asks for new code. -/
def tag (f : Frame δ κ) (index : Nat) (o : Op) : Option RegionKind → Frame δ κ
  | none => f
  | some kind =>
    if o.isTagged then f
    else
      match f.block.tagOp index (.ofKind kind) with
      | (false, _) => f
      | (true, block) =>
        let (block, machine) := f.machine.flagRecompile block
        { f with block, machine, tagged := true }

/-- Run a memory instruction of the block at `pc`. -/
def memory (f : Frame δ κ) (pc : UInt32) (index : Nat) (o : Op) (base : HostReg)
    (data dst : Option HostReg) : Progress (Frame δ κ) (Returned δ κ) :=
  let value := match data with
    | some h => f.host[h]
    | none => 0
  let address := f.host[base]
  let t := f.machine.transfer o.instr address value
  let f := { f with machine := t.machine }.tag index o t.kind
  if f.machine.clock.exit.segfault then f.leave (pc + index.toUInt32 * 4)
  else
    match dst with
    | some h => (f.put h t.value).goOn
    | none => f.goOn

end Frame

/-- Run one operation of the program at `pc`. -/
@[inline]
def perform (pc : UInt32) (f : Frame δ κ) : HostOp → Progress (Frame δ κ) (Returned δ κ)
  | .load host guest => (f.put host (f.machine.regs.get guest)).goOn
  | .store host guest =>
    let value := f.host[host]
    { f with machine := f.machine.setReg guest value }.goOn
  | .tick cycles => { f with machine := f.machine.tick cycles }.goOn
  | .const dst value => (f.put dst value).goOn
  | .move dst src => (f.put dst f.host[src]).goOn
  | .alu kind dst a b => (f.put dst (kind.apply f.host[a] f.host[b])).goOn
  | .aluImmediate kind dst a imm => (f.put dst (kind.apply f.host[a] imm)).goOn
  | .mulDiv kind a b lo hi =>
    let result := kind.apply f.host[a] f.host[b]
    ((f.put lo result.lo).put hi result.hi).goOn
  | .memory index o base data dst => f.memory pc index o base data dst
  | .copRead instr reg control dst =>
    let (value, machine) := f.machine.copRead instr reg control
    ({ f with machine }.put dst value).goOn
  | .copWrite instr reg control src =>
    let value := f.host[src]
    { f with machine := f.machine.copWrite instr reg value control }.goOn
  | .copExecute instr => { f with machine := f.machine.copExecute instr }.goOn
  | .setCondition condition a b =>
    { f with condition := condition.holds f.host[a] f.host[b] }.goOn
  | .setTarget src => { f with target := f.host[src] }.goOn
  | .raise flags => { f with machine := f.machine.setExit flags }.goOn
  | .exit next => f.leave next
  | .exitToTarget => f.leave f.target
  | .exitIf next => if f.condition then f.leave next else f.goOn
  | .jump label next => f.jump label next
  | .jumpIf label next => if f.condition then f.jump label next else f.goOn

/-- Run one operation. Beyond the end of the program the run stops. -/
@[inline]
def step (p : HostProgram) (f : Frame δ κ) : Progress (Frame δ κ) (Returned δ κ) :=
  match p.ops[f.place]? with
  | none =>
    { f with machine := f.machine.setExit { unknownOp := true } }.leave p.pc
  | some op => perform p.pc f op

/-- Run the program from an instruction offset of its block until it is left, or until
`fuel` steps are done. -/
def call (fuel : Nat) (p : HostProgram) (entry : Nat) (m : Machine δ κ) (b : Block) :
    Progress (Frame δ κ) (Returned δ κ) :=
  match p.entryPoint? entry with
  | none =>
    .finished {
      machine := (m.note (.noEntryPoint entry p.pc)).setExit { unknownOp := true }
      block := b
      tagged := false
      next := p.pc + entry.toUInt32 * 4 }
  | some place => iterate p.step fuel { machine := m, block := b, place }

end Dynarec.HostProgram
