/-
  Dynarec.Host.Lowering

  Generating code for a block, instruction by instruction.

  * Cycles are summed up while code is generated and charged where something
    could look at the clock.
  * Before a call into memory or a coprocessor all values are written back; at
    exits and where a branch inside the block leads the register cache is
    emptied, so every entry starts with an empty cache.
  * The condition of a branch is remembered, and the return address written,
    before its delay slot.
  * A branch that only the interpreter can run becomes an exit to itself.
-/
import Dynarec.Fault
import Dynarec.Host.RegisterCache
import Dynarec.Notice

namespace Dynarec

/-- Why code generation stopped. -/
inductive LoweringError where
  | codegen (error : CodegenError)
  | registersExhausted
deriving DecidableEq, Inhabited

/-- A block as the generator sees it. -/
structure BlockSource where
  pc : UInt32
  ops : Array Op
deriving DecidableEq, Inhabited

/-- Code under construction. -/
structure Lowering where
  program : Array HostOp := #[]
  /-- Places of the instructions that start with an empty register cache. -/
  labels : Array (Option Nat)
  /-- Jumps inside the block: their places and the instructions they lead to. -/
  fixups : Array (Nat × Nat) := #[]
  /-- Cycles not charged yet. -/
  cycles : UInt32 := 0
  cache : RegisterCache
  notices : Array Notice := #[]
deriving Inhabited

namespace Lowering

/-- Longest program the generator agrees to produce. -/
def maxProgram : Nat := 1048576

/-- Cycles charged for one instruction. -/
def cyclesPerOp : UInt32 := 2

/-- Steps of code generation. -/
abbrev LowerM := EStateM LoweringError Lowering

/-- Append one operation. -/
def emit (op : HostOp) : LowerM Unit := modify fun s => { s with program := s.program.push op }

/-- A transfer as an operation. -/
def transferOp : RegisterTransfer → HostOp
  | .load host guest => .load host guest
  | .store host guest => .store host guest

/-- Append transfers. -/
def pushTransfers (program : Array HostOp) (transfers : List RegisterTransfer) : Array HostOp :=
  transfers.foldl (fun p t => p.push (transferOp t)) program

/-- Take a host register from the cache. -/
@[inline]
def allocate (request : RegisterCache → Option RegisterCache.Allocation) : LowerM HostReg := do
  match ← modifyGet fun s =>
    match request s.cache with
    | some a =>
      (some a.host, { s with cache := a.cache, program := pushTransfers s.program a.transfers })
    | none => (none, s) with
  | some host => pure host
  | none => throw .registersExhausted

def allocIn (guest : Reg) : LowerM HostReg := allocate (·.allocIn? guest)

def allocOut (guest : Reg) : LowerM HostReg := allocate (·.allocOut? guest)

def allocTemp : LowerM HostReg := allocate (·.allocTemp?)

def releaseLocks : LowerM Unit := modify fun s => { s with cache := s.cache.releaseLocks }

/-- Charge the cycles summed up so far. -/
def flushCycles : LowerM Unit := modify fun s =>
  if s.cycles = 0 then s else { s with program := s.program.push (.tick s.cycles), cycles := 0 }

/-- Write back all values. -/
def flushAll : LowerM Unit := modify fun s =>
  let (transfers, cache) := s.cache.flushAll
  { s with program := pushTransfers s.program transfers, cache }

/-- Write back all values and empty the register cache. -/
def unloadAll : LowerM Unit := modify fun s =>
  let (transfers, cache) := s.cache.unloadAll
  { s with program := pushTransfers s.program transfers, cache }

/-- Get ready for a call: everything it may look at is up to date. -/
def beforeCall : LowerM Unit := do
  flushCycles
  flushAll

/-- Leave the code through `op`. -/
def exitWith (op : HostOp) : LowerM Unit := do
  flushCycles
  unloadAll
  emit op

/-- Let the code be entered at instruction `index`. -/
def label (index : Nat) : LowerM Unit := do
  flushCycles
  unloadAll
  modify fun s => { s with labels := s.labels.setIfInBounds index (some s.program.size) }

/-- Add cycles to be charged. -/
def charge (cycles : UInt32) : LowerM Unit := modify fun s => { s with cycles := s.cycles + cycles }

/-- Take back cycles to be charged. -/
def uncharge (cycles : UInt32) : LowerM Unit := modify fun s => { s with cycles := s.cycles - cycles }

/-- A word that no instruction has. -/
def lowerUnknown (i : Instruction) (pc : UInt32) : LowerM Unit := do
  modify fun s => { s with notices := s.notices.push (.unknownOpcode .hostCode i.word pc) }
  emit (.raise { unknownOp := true })
  exitWith (.exit pc)

/-- An instruction of the register-register group that is no jump. -/
def lowerSpecial (i : Instruction) (pc : UInt32) : LowerM Unit := do
  match i.funct with
  | 0x00 | 0x02 | 0x03 =>
    match Instruction.aluOfFunct i.funct with
    | some kind =>
      if i.rd ≠ 0 then
        let a ← allocIn i.rt
        let dst ← allocOut i.rd
        emit (.aluImmediate kind dst a i.shamt)
    | none => pure ()
  | 0x04 | 0x06 | 0x07 =>
    match Instruction.aluOfFunct i.funct with
    | some kind =>
      if i.rd ≠ 0 then
        let a ← allocIn i.rt
        let b ← allocIn i.rs
        let dst ← allocOut i.rd
        emit (.alu kind dst a b)
    | none => pure ()
  | 0x0c =>
    emit (.raise { syscall := true })
    exitWith (.exit pc)
  | 0x0d =>
    emit (.raise { breakpoint := true })
    exitWith (.exit pc)
  | 0x10 | 0x12 =>
    if i.rd ≠ 0 then
      let src ← allocIn (if i.funct = 0x10 then .hi else .lo)
      let dst ← allocOut i.rd
      emit (.move dst src)
  | 0x11 | 0x13 =>
    let src ← allocIn i.rs
    let dst ← allocOut (if i.funct = 0x11 then .hi else .lo)
    emit (.move dst src)
  | 0x18 | 0x19 | 0x1a | 0x1b =>
    match Instruction.mulDivOfFunct i.funct with
    | some kind =>
      let a ← allocIn i.rs
      let b ← allocIn i.rt
      let lo ← allocOut .lo
      let hi ← allocOut .hi
      emit (.mulDiv kind a b lo hi)
    | none => pure ()
  | _ =>
    match Instruction.aluOfFunct i.funct with
    | some kind =>
      if i.rd ≠ 0 then
        let a ← allocIn i.rs
        let b ← allocIn i.rt
        let dst ← allocOut i.rd
        emit (.alu kind dst a b)
    | none => lowerUnknown i pc

/-- A coprocessor instruction. -/
def lowerCop (i : Instruction) (pc : UInt32) : LowerM Unit := do
  beforeCall
  if i.rs &&& 0x10 ≠ 0 then emit (.copExecute i)
  else
    match i.rs with
    | 0x00 | 0x02 =>
      let dst ← if i.rt ≠ 0 then allocOut i.rt else allocTemp
      emit (.copRead i i.rd (i.rs == 0x02) dst)
    | 0x04 | 0x06 =>
      let src ← allocIn i.rt
      emit (.copWrite i i.rd (i.rs == 0x06) src)
      if i.isSyscall then exitWith (.exit (pc + 4))
    | _ => lowerUnknown i pc

/-- A load or store of the instruction at `index`. -/
def lowerMemory (index : Nat) (o : Op) : LowerM Unit := do
  beforeCall
  let i := o.instr
  let base ← allocIn i.rs
  let merges := i.op == 0x22 || i.op == 0x26
  let readsData := (i.isStore && i.op != 0x3a) || merges
  let data ← if readsData then some <$> allocIn i.rt else pure none
  let writes := i.isLoad && i.op != 0x32 && i.rt ≠ 0
  let dst ← if writes then some <$> allocOut i.rt else pure none
  emit (.memory (index % 65536) o base data dst)

/-- An instruction that is no branch. -/
def lowerSimple (index : Nat) (o : Op) (pc : UInt32) : LowerM Unit := do
  let i := o.instr
  match i.op with
  | 0x00 => lowerSpecial i pc
  | 0x0f =>
    if i.rt ≠ 0 then
      let dst ← allocOut i.rt
      emit (.const dst (i.imm <<< (16 : UInt32)))
  | 0x10 | 0x12 => lowerCop i pc
  | _ =>
    if i.isMemory then lowerMemory index o
    else
      match i.aluImmediate? with
      | some (kind, imm) =>
        if i.rt ≠ 0 then
          let a ← allocIn i.rs
          let dst ← allocOut i.rt
          emit (.aluImmediate kind dst a imm)
      | none => lowerUnknown i pc

/-- Register that a branch or jump writes its return address to. -/
def linkRegister? (i : Instruction) : Option Reg :=
  if i.op = 0x03 then some .ra
  else if i.op = 0x00 && i.funct == 0x09 then if i.rd ≠ 0 then some i.rd else none
  else if i.isBranchAndLink then some .ra
  else none

/-- Whether a branch or jump leads where a register says. -/
def isRegisterJump (i : Instruction) : Bool := i.op == 0x00

/-- Condition that decides a branch; none for jumps and branches always taken. -/
def decidingCondition? (i : Instruction) : Option Condition :=
  if isRegisterJump i || i.isUnconditionalJump then none else i.condition?

/-- Remember whether a branch is taken, or where a register jump leads. -/
def latch (i : Instruction) : LowerM Unit := do
  if isRegisterJump i then
    let src ← allocIn i.rs
    emit (.setTarget src)
  else
    match decidingCondition? i with
    | some condition =>
      let a ← allocIn i.rs
      let b ← allocIn i.rt
      emit (.setCondition condition a b)
    | none => pure ()

/-- Write the return address of a branch or jump at `pc`. -/
def lowerLink (i : Instruction) (pc : UInt32) : LowerM Unit := do
  match linkRegister? i with
  | some link =>
    let dst ← allocOut link
    emit (.const dst (pc + 8))
  | none => pure ()

/-- The instruction `d` at `index` in the delay slot of `o`. -/
def lowerSlot (index : Nat) (o d : Op) (pc : UInt32) : LowerM Unit := do
  charge cyclesPerOp
  if o.flags.noDelaySlot then pure ()
  else
    lowerSimple index d pc
    releaseLocks

/-- Go where the branch or jump `o` at `pc` leads, after its delay slot. -/
def lowerJump (source : BlockSource) (o : Op) (pc : UInt32) : LowerM Unit := do
  if isRegisterJump o.instr then exitWith .exitToTarget
  else
    match o.instr.branchTarget? pc with
    | none => throw (.codegen (.branchWithoutTarget pc))
    | some target =>
      let conditional := (decidingCondition? o.instr).isSome
      flushCycles
      unloadAll
      if o.flags.localBranch then
        let inside := ((target - source.pc) >>> (2 : UInt32)).toNat
        modify fun s => { s with fixups := s.fixups.push (s.program.size, inside) }
        emit (if conditional then .jumpIf 0 target else .jump 0 target)
      else emit (if conditional then .exitIf target else .exit target)

/-- A branch or jump at `index`, with its delay slot; the result is the instruction
to go on with. -/
def lowerBranch (source : BlockSource) (index : Nat) (o : Op) (pc : UInt32) : LowerM Nat := do
  let slot := source.ops[index + 1]?
  if slot.any fun d => d.instr.hasDelaySlot then
    uncharge cyclesPerOp
    exitWith (.exit pc)
    return index + 2
  else
    latch o.instr
    lowerLink o.instr pc
    releaseLocks
    match slot with
    | some d =>
      lowerSlot (index + 1) o d (pc + 4)
      lowerJump source o pc
      return index + 2
    | none =>
      lowerJump source o pc
      return index + 1

/-- The instruction at `index`; the result is the instruction to go on with. -/
def lowerOp (source : BlockSource) (index : Nat) (o : Op) : LowerM Nat := do
  let pc := source.pc + index.toUInt32 * 4
  if o.flags.emulateBranch then
    exitWith (.exit pc)
    return index + 2
  else
    charge cyclesPerOp
    if o.instr.hasDelaySlot then lowerBranch source index o pc
    else
      lowerSimple index o pc
      return index + 1

/-- Let the code be entered in front of the first instruction and where branches inside the block
lead. -/
def openAt (index : Nat) (o : Op) : LowerM Unit :=
  if index = 0 || o.flags.sync then label index else pure ()

/-- Stop when the program gets too long. -/
def checkSize : LowerM Unit := do
  if maxProgram < (← get).program.size then throw (.codegen .outOfMemory) else pure ()

/-- The instructions from `index` on, at most `fuel` of them. -/
def lowerFrom (source : BlockSource) : Nat → Nat → LowerM Unit
  | 0, _ => pure ()
  | fuel + 1, index => do
    match source.ops[index]? with
    | none => pure ()
    | some o =>
      openAt index o
      let next ← lowerOp source index o
      releaseLocks
      checkSize
      lowerFrom source fuel next

/-- Give a jump inside the block its place. Where the target is no entry, a delay slot
generated with its branch, the jump leaves the block instead. -/
def patchOp (place : Option Nat) : HostOp → HostOp
  | .jump _ pc =>
    match place with
    | some place => .jump place pc
    | none => .exit pc
  | .jumpIf _ pc =>
    match place with
    | some place => .jumpIf place pc
    | none => .exitIf pc
  | other => other

/-- Give the jump of a fixup its place. -/
def patch (labels : Array (Option Nat)) (program : Array HostOp) (fixup : Nat × Nat) : Array HostOp :=
  program.modify fixup.1 (patchOp (labels[fixup.2]?).join)

/-- The entries among the labels. -/
def entries (labels : Array (Option Nat)) : Array (Nat × Nat) :=
  (labels.mapIdx fun index place => (index % 65536, place)).filterMap fun (index, place) =>
    place.map fun place => (index, place)

/-- The whole block. -/
def lowerBlock (source : BlockSource) : LowerM HostProgram := do
  lowerFrom source source.ops.size 0
  exitWith (.exit (source.pc + source.ops.size.toUInt32 * 4))
  modifyGet fun s =>
    let program := s.fixups.foldl (patch s.labels) s.program
    ({ pc := source.pc, ops := program, entries := entries s.labels }, { s with program := #[] })

end Lowering

/-- What code generation leads to. The register cache and the notices come back in
any case. -/
structure Generated where
  result : Except LoweringError HostProgram
  cache : RegisterCache
  notices : List Notice
deriving Inhabited

namespace HostProgram

/-- Code for a block, with an empty register cache to start from. -/
def generate (source : BlockSource) (cache : RegisterCache) : Generated :=
  if source.ops.isEmpty then
    { result := .error (.codegen (.emptyBlock source.pc)), cache, notices := [] }
  else
    match Lowering.lowerBlock source
        { labels := Array.replicate source.ops.size none, cache } with
    | .ok program s =>
      { result := .ok program
        cache := s.cache
        notices := s.notices.toList ++
          [.lowered source.pc source.ops.size program.size s.cache.spills] }
    | .error e s => { result := .error e, cache := s.cache, notices := s.notices.toList }

/-- Instruction offsets other than zero where the program can be entered. -/
def targets (p : HostProgram) : List Nat :=
  p.entries.toList.filterMap fun (offset, _) => if offset = 0 then none else some offset

end HostProgram

end Dynarec
