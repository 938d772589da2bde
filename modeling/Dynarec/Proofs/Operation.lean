/-
  Dynarec.Proofs.Operation

  Tables over words, by operation.

  The interpreter and the classes of words each read the fields of a word in
  their own order. Each of these tables is shown to say of a word what it should
  say of its operation.
-/
import Dynarec.Interpreter
import Dynarec.Proofs.Instruction

namespace Dynarec

/-! ## Classes -/

namespace Operation

/-- Whether an instruction with this operation has no effect because register zero is its
destination. -/
def isNop (operation : Operation) (i : Instruction) : Bool :=
  match operation with
  | .shift _ | .shiftVariable _ | .moveFromHi | .moveFromLo | .alu _ false => i.rd == 0
  | .aluImmediate _ false | .loadUpper => i.rt == 0
  | _ => false

def isSyscall (operation : Operation) (i : Instruction) : Bool :=
  match operation with
  | .syscall | .breakpoint => true
  | .copWrite _ => i.isCop0 && (i.rd == 12 || i.rd == 13)
  | _ => false

def isUnconditionalJump (operation : Operation) (i : Instruction) : Bool :=
  match operation with
  | .jumpRegister | .jumpLinkRegister | .jump | .jumpLink => true
  | .branch .eq _ | .branch .lez _ => i.rs == i.rt
  | .branch .gez _ => i.rs == 0
  | _ => false

def hasDelaySlot : Operation → Bool
  | .jumpRegister | .jumpLinkRegister | .jump | .jumpLink | .branch _ _ => true
  | _ => false

def branchTarget? (operation : Operation) (i : Instruction) (pc : UInt32) : Option UInt32 :=
  match operation with
  | .branch _ _ => some (pc + 4 + (i.simm <<< (2 : UInt32)))
  | .jump | .jumpLink => some (((pc + 4) &&& 0xf0000000) ||| (i.target <<< (2 : UInt32)))
  | _ => none

/-- The load or store, if the operation is one. -/
def memoryAccess? : Operation → Option MemoryAccess
  | .memory access => some access
  | _ => none

def isLoad : Operation → Bool
  | .memory access => !access.isStore
  | _ => false

def isStore : Operation → Bool
  | .memory access => access.isStore
  | _ => false

def isMemory : Operation → Bool
  | .memory _ => true
  | _ => false

/-- The condition of a branch. -/
def condition? : Operation → Option Condition
  | .branch condition _ => some condition
  | _ => none

def isBranchAndLink : Operation → Bool
  | .branch _ link => link
  | _ => false

def destination? (operation : Operation) (i : Instruction) : Option Reg :=
  match operation with
  | .shift _ | .shiftVariable _ | .jumpLinkRegister | .moveFromHi | .moveFromLo | .alu _ _ => some i.rd
  | .mulDiv _ => some .lo
  | .jumpLink | .branch _ true => some .ra
  | .aluImmediate _ _ | .loadUpper | .copRead _ => some i.rt
  | .memory access => if access.isStore || access = .lwc2 then none else some i.rt
  | .unknown =>
    match i.op with
    | 0x00 => some i.rd
    | 0x01 | 0x10 | 0x12 => none
    | _ => some i.rt
  | _ => none

end Operation

namespace Instruction

/-! Each class is a table over the operation code, with a table of its own inside for the
register-register group and one for the coprocessors. -/

/-- A coprocessor command has none of the `rs` fields that stand for a transfer. -/
theorem ne_of_and_sixteen {r : Reg} (h : ¬ r &&& 0x10 = 0) : r ≠ 0 ∧ r ≠ 2 ∧ r ≠ 4 ∧ r ≠ 6 := by
  refine ⟨?_, ?_, ?_, ?_⟩ <;> rintro rfl <;> exact h (by decide)

variable (i : Instruction)

theorem hasDelaySlot_eq : i.hasDelaySlot = i.operation.hasDelaySlot := by
  unfold hasDelaySlot
  fun_cases operation i
  case case1 hop =>
    rw [hop]
    fun_cases specialOperation i.funct <;> simp_all [Operation.hasDelaySlot]
  case case21 hop | case22 hop =>
    rw [hop]
    fun_cases copOperation i.rs <;> simp_all [Operation.hasDelaySlot]
  all_goals simp_all [Operation.hasDelaySlot]

theorem isSyscall_eq : i.isSyscall = i.operation.isSyscall i := by
  unfold isSyscall
  fun_cases operation i
  case case1 hop =>
    rw [hop]
    fun_cases specialOperation i.funct <;> simp_all [Operation.isSyscall]
  case case21 hop | case22 hop =>
    rw [hop]
    fun_cases copOperation i.rs
    case case1 hexecute => simp [ne_of_and_sixteen hexecute, Operation.isSyscall]
    all_goals simp_all [Operation.isSyscall, isCop0]
  all_goals simp_all [Operation.isSyscall]

theorem isUnconditionalJump_eq : i.isUnconditionalJump = i.operation.isUnconditionalJump i := by
  unfold isUnconditionalJump
  fun_cases operation i
  case case1 hop =>
    rw [hop]
    fun_cases specialOperation i.funct <;> simp_all [Operation.isUnconditionalJump]
  case case21 hop | case22 hop =>
    rw [hop]
    fun_cases copOperation i.rs <;> simp_all [Operation.isUnconditionalJump]
  all_goals simp_all [Operation.isUnconditionalJump]

theorem isBranchAndLink_eq : i.isBranchAndLink = i.operation.isBranchAndLink := by
  unfold isBranchAndLink
  fun_cases operation i
  case case1 hop =>
    rw [hop]
    fun_cases specialOperation i.funct <;> simp_all [Operation.isBranchAndLink]
  case case21 hop | case22 hop =>
    rw [hop]
    fun_cases copOperation i.rs <;> simp_all [Operation.isBranchAndLink]
  all_goals simp_all [Operation.isBranchAndLink]

theorem branchTarget?_eq (pc : UInt32) : i.branchTarget? pc = i.operation.branchTarget? i pc := by
  unfold branchTarget? isBranch hasDelaySlot
  fun_cases operation i
  case case1 hop =>
    rw [hop]
    fun_cases specialOperation i.funct <;> simp_all [Operation.branchTarget?]
  case case21 hop | case22 hop =>
    rw [hop]
    fun_cases copOperation i.rs <;> simp_all [Operation.branchTarget?]
  all_goals simp_all [Operation.branchTarget?]

theorem destination?_eq : i.destination? = i.operation.destination? i := by
  unfold destination?
  fun_cases operation i
  case case1 hop =>
    rw [hop]
    fun_cases specialOperation i.funct <;> simp_all [Operation.destination?]
  case case21 hop | case22 hop =>
    rw [hop]
    fun_cases copOperation i.rs
    case case1 hexecute => simp [ne_of_and_sixteen hexecute, Operation.destination?]
    all_goals simp_all [Operation.destination?]
  all_goals simp_all [Operation.destination?, MemoryAccess.isStore]

theorem condition?_eq : i.condition? = i.operation.condition? := by
  unfold condition?
  fun_cases operation i
  case case1 hop =>
    rw [hop]
    fun_cases specialOperation i.funct <;> simp_all [Operation.condition?]
  case case21 hop | case22 hop =>
    rw [hop]
    fun_cases copOperation i.rs <;> simp_all [Operation.condition?]
  all_goals simp_all [Operation.condition?]

theorem memoryAccess?_eq : i.memoryAccess? = i.operation.memoryAccess? := by
  unfold memoryAccess?
  fun_cases operation i
  case case1 hop =>
    rw [hop]
    fun_cases specialOperation i.funct <;> simp_all [Operation.memoryAccess?]
  case case21 hop | case22 hop =>
    rw [hop]
    fun_cases copOperation i.rs <;> simp_all [Operation.memoryAccess?]
  all_goals simp_all [Operation.memoryAccess?]

theorem memoryAccess?_of_operation {i : Instruction} {access : MemoryAccess}
    (h : i.operation = .memory access) : i.memoryAccess? = some access := by
  rw [memoryAccess?_eq, h]
  rfl

theorem operation_of_memoryAccess? {i : Instruction} {access : MemoryAccess}
    (h : i.memoryAccess? = some access) : i.operation = .memory access := by
  rw [memoryAccess?_eq] at h
  cases hop : i.operation with rw [hop] at h
  | memory access' => exact congrArg Operation.memory (Option.some.inj h)
  | _ => cases h

theorem isLoad_eq : i.isLoad = i.operation.isLoad := by
  unfold isLoad
  fun_cases operation i
  case case1 hop =>
    rw [hop]
    fun_cases specialOperation i.funct <;> simp_all [Operation.isLoad]
  case case21 hop | case22 hop =>
    rw [hop]
    fun_cases copOperation i.rs <;> simp_all [Operation.isLoad]
  all_goals simp_all [Operation.isLoad, MemoryAccess.isStore]

theorem isStore_eq : i.isStore = i.operation.isStore := by
  unfold isStore
  fun_cases operation i
  case case1 hop =>
    rw [hop]
    fun_cases specialOperation i.funct <;> simp_all [Operation.isStore]
  case case21 hop | case22 hop =>
    rw [hop]
    fun_cases copOperation i.rs <;> simp_all [Operation.isStore]
  all_goals simp_all [Operation.isStore, MemoryAccess.isStore]

theorem isMemory_eq : i.isMemory = i.operation.isMemory := by
  rw [isMemory, isLoad_eq, isStore_eq]
  cases i.operation with
  | memory access => exact Bool.not_or_self access.isStore
  | _ => rfl

/-- A load writes its register, unless that is one of coprocessor 2. -/
theorem isLoad_and_eq : (i.isLoad && i.op != 0x32) =
    i.operation.memoryAccess?.any fun access => !(access.isStore || access = .lwc2) := by
  unfold isLoad
  fun_cases operation i
  case case1 hop =>
    rw [hop]
    fun_cases specialOperation i.funct <;> rfl
  case case21 hop | case22 hop =>
    rw [hop]
    fun_cases copOperation i.rs <;> rfl
  all_goals simp_all [Operation.memoryAccess?, MemoryAccess.isStore]

theorem isNop_eq : i.isNop = (i.word == 0 || i.operation.isNop i) := by
  unfold isNop
  fun_cases operation i
  case case1 hop =>
    rw [hop]
    fun_cases specialOperation i.funct <;> simp_all [Operation.isNop]
  case case21 hop | case22 hop =>
    rw [hop]
    fun_cases copOperation i.rs <;> simp_all [Operation.isNop]
  all_goals simp_all [Operation.isNop]

end Instruction

/-! ## Interpretation -/

namespace Interpreter

variable {δ κ : Type} [Device δ] [Coprocessor κ]

/-- Run a load or store. -/
def executeAccess (m : Machine δ κ) (i : Instruction) (access : MemoryAccess) (pc rs rt : UInt32) :
    Executed δ κ :=
  let t := m.transfer i rs rt
  let m := t.machine
  if m.clock.exit.segfault then { machine := m, step := .exit pc, access := t.kind }
  else if access.isStore || access = .lwc2 then { machine := m, access := t.kind }
  else { machine := m.setReg i.rt t.value, access := t.kind }

/-- Run an instruction at `pc` that asks for an operation. -/
def executeOperation (m : Machine δ κ) (i : Instruction) (operation : Operation) (pc : UInt32) :
    Executed δ κ :=
  let rs := m.regs.get i.rs
  let rt := m.regs.get i.rt
  match operation with
  | .shift kind => { machine := m.setReg i.rd (kind.apply rt i.shamt) }
  | .shiftVariable kind => { machine := m.setReg i.rd (kind.apply rt rs) }
  | .jumpRegister => { machine := m, step := .branch rs }
  | .jumpLinkRegister => { machine := m.setReg i.rd (pc + 8), step := .branch rs }
  | .syscall => { machine := m.setExit { syscall := true }, step := .exit pc }
  | .breakpoint => { machine := m.setExit { breakpoint := true }, step := .exit pc }
  | .moveFromHi => { machine := m.setReg i.rd (m.regs.get .hi) }
  | .moveFromLo => { machine := m.setReg i.rd (m.regs.get .lo) }
  | .moveToHi => { machine := m.setReg .hi rs }
  | .moveToLo => { machine := m.setReg .lo rs }
  | .mulDiv kind =>
    let result := kind.apply rs rt
    { machine := (m.setReg .lo result.lo).setReg .hi result.hi }
  | .alu kind _ => { machine := m.setReg i.rd (kind.apply rs rt) }
  | .aluImmediate kind _ => { machine := m.setReg i.rt (kind.apply rs (i.extended kind)) }
  | .loadUpper => { machine := m.setReg i.rt (i.imm <<< (16 : UInt32)) }
  | .jump => { machine := m, step := .branch ((i.branchTarget? pc).getD pc) }
  | .jumpLink =>
    { machine := m.setReg .ra (pc + 8), step := .branch ((i.branchTarget? pc).getD pc) }
  | .branch condition link =>
    let m := if link then m.setReg .ra (pc + 8) else m
    if condition.holds rs rt then { machine := m, step := .branch ((i.branchTarget? pc).getD pc) }
    else { machine := m }
  | .copRead control =>
    let (value, m) := m.copRead i i.rd control
    { machine := m.setReg i.rt value }
  | .copWrite control =>
    { machine := m.copWrite i i.rd rt control
      step := if i.isSyscall then .exit (pc + 4) else .next }
  | .copExecute => { machine := m.copExecute i }
  | .memory access => executeAccess m i access pc rs rt
  | .unknown => unknown m i pc

variable (m : Machine δ κ) (i : Instruction)

theorem executeSpecial_eq (pc : UInt32) :
    executeSpecial m i pc (m.regs.get i.rs) (m.regs.get i.rt) =
      executeOperation m i (Instruction.specialOperation i.funct) pc := by
  unfold executeSpecial
  fun_cases Instruction.specialOperation i.funct
  case case29 => simp_all [executeOperation, Instruction.aluOfFunct]
  all_goals rfl

theorem executeCop_eq (pc : UInt32) : executeCop m i pc (m.regs.get i.rt) =
      executeOperation m i (Instruction.copOperation i.rs) pc := by
  unfold executeCop
  fun_cases Instruction.copOperation i.rs <;> simp_all [executeOperation]

theorem executeMemory_eq {m : Machine δ κ} {i : Instruction} {access : MemoryAccess}
    (hop : i.operation = .memory access) (pc rs rt : UInt32) :
    executeMemory m i pc rs rt = executeAccess m i access pc rs rt := by
  unfold executeMemory executeAccess
  rw [Instruction.isLoad_and_eq, hop, Operation.memoryAccess?, Option.any_some]
  cases access.isStore || decide (access = .lwc2) with
  | false | true => rfl

/-- The interpreter does what the operation of a word asks for. -/
theorem execute_eq (pc : UInt32) : execute m i pc = executeOperation m i i.operation pc := by
  unfold execute
  fun_cases Instruction.operation i
  case case1 hop =>
    rw [hop]
    exact executeSpecial_eq m i pc
  case case21 hop | case22 hop =>
    rw [hop]
    exact executeCop_eq m i pc
  case case23 | case24 | case25 | case26 | case27 | case28 | case29 | case30 | case31 | case32
  | case33 | case34 | case35 | case36 =>
    -- loads and stores
    simp only [*, Instruction.isMemory, Instruction.isLoad, Instruction.isStore, Bool.or_true,
      Bool.true_or, if_true]
    exact executeMemory_eq (by simp [*, Instruction.operation]) pc _ _
  all_goals simp_all [executeOperation, Instruction.condition?, Instruction.isBranchAndLink,
    Instruction.aluImmediate?, Instruction.extended, Instruction.isMemory, Instruction.isLoad,
    Instruction.isStore]

end Interpreter

end Dynarec
