/-
  Dynarec.Proofs.Host.Operation

  Code generation by the operation of a word.

  The generator has tables of its own over the fields of a word, one for
  instructions that are no branches and some for what it asks of a branch. They
  agree with the decoded operation, so that later proofs go by operations.
-/
import Dynarec.Host.Lowering
import Dynarec.Proofs.Operation

namespace Dynarec

namespace Operation

/-- Register that a branch or jump writes its return address to. -/
def linkRegister? (operation : Operation) (i : Instruction) : Option Reg :=
  match operation with
  | .jumpLink | .branch _ true => some .ra
  | .jumpLinkRegister => if i.rd ≠ 0 then some i.rd else none
  | _ => none

/-- Whether the jump leads where a register says. -/
def isRegisterJump : Operation → Bool
  | .jumpRegister | .jumpLinkRegister => true
  | _ => false

/-- Condition that decides a branch; none for jumps and branches always taken. -/
def decidingCondition? (operation : Operation) (i : Instruction) : Option Condition :=
  match operation with
  | .branch condition _ => if operation.isUnconditionalJump i then none else some condition
  | _ => none

end Operation

namespace Lowering

/-- A load or store of the instruction at `index`. -/
def lowerAccess (index : Nat) (o : Op) (access : MemoryAccess) : LowerM Unit := do
  beforeCall
  let i := o.instr
  let base ← allocIn i.rs
  let readsData := (access.isStore && access ≠ .swc2) || access = .lwl || access = .lwr
  let data ← if readsData then some <$> allocIn i.rt else pure none
  let writes := !access.isStore && access ≠ .lwc2 && i.rt ≠ 0
  let dst ← if writes then some <$> allocOut i.rt else pure none
  emit (.memory (index % 65536) o base data dst)

/-- An instruction that is no branch and asks for an operation. -/
def lowerOperation (index : Nat) (o : Op) (operation : Operation) (pc : UInt32) : LowerM Unit := do
  let i := o.instr
  match operation with
  | .shift kind =>
    if i.rd ≠ 0 then
      let a ← allocIn i.rt
      let dst ← allocOut i.rd
      emit (.aluImmediate kind dst a i.shamt)
  | .shiftVariable kind =>
    if i.rd ≠ 0 then
      let a ← allocIn i.rt
      let b ← allocIn i.rs
      let dst ← allocOut i.rd
      emit (.alu kind dst a b)
  | .syscall =>
    emit (.raise { syscall := true })
    exitWith (.exit pc)
  | .breakpoint =>
    emit (.raise { breakpoint := true })
    exitWith (.exit pc)
  | .moveFromHi =>
    if i.rd ≠ 0 then
      let src ← allocIn .hi
      let dst ← allocOut i.rd
      emit (.move dst src)
  | .moveFromLo =>
    if i.rd ≠ 0 then
      let src ← allocIn .lo
      let dst ← allocOut i.rd
      emit (.move dst src)
  | .moveToHi =>
    let src ← allocIn i.rs
    let dst ← allocOut .hi
    emit (.move dst src)
  | .moveToLo =>
    let src ← allocIn i.rs
    let dst ← allocOut .lo
    emit (.move dst src)
  | .mulDiv kind =>
    let a ← allocIn i.rs
    let b ← allocIn i.rt
    let lo ← allocOut .lo
    let hi ← allocOut .hi
    emit (.mulDiv kind a b lo hi)
  | .alu kind _ =>
    if i.rd ≠ 0 then
      let a ← allocIn i.rs
      let b ← allocIn i.rt
      let dst ← allocOut i.rd
      emit (.alu kind dst a b)
  | .aluImmediate kind _ =>
    if i.rt ≠ 0 then
      let a ← allocIn i.rs
      let dst ← allocOut i.rt
      emit (.aluImmediate kind dst a (i.extended kind))
  | .loadUpper =>
    if i.rt ≠ 0 then
      let dst ← allocOut i.rt
      emit (.const dst (i.imm <<< (16 : UInt32)))
  | .copExecute =>
    beforeCall
    emit (.copExecute i)
  | .copRead control =>
    beforeCall
    let dst ← if i.rt ≠ 0 then allocOut i.rt else allocTemp
    emit (.copRead i i.rd control dst)
  | .copWrite control =>
    beforeCall
    let src ← allocIn i.rt
    emit (.copWrite i i.rd control src)
    if i.isSyscall then exitWith (.exit (pc + 4))
  | .memory access => lowerAccess index o access
  | .unknown =>
    if i.op = 0x10 || i.op = 0x12 then beforeCall
    lowerUnknown i pc
  | .jumpRegister | .jumpLinkRegister | .jump | .jumpLink | .branch _ _ => lowerUnknown i pc

theorem lowerSpecial_eq (index : Nat) (o : Op) (pc : UInt32) (hop : o.instr.op = 0) :
    lowerSpecial o.instr pc =
      lowerOperation index o (Instruction.specialOperation o.instr.funct) pc := by
  unfold lowerSpecial
  fun_cases Instruction.specialOperation o.instr.funct
  case case29 => simp_all [lowerOperation, Instruction.aluOfFunct]
  all_goals rfl

theorem lowerCop_eq (index : Nat) (o : Op) (pc : UInt32)
    (hop : o.instr.op = 0x10 ∨ o.instr.op = 0x12) :
    lowerCop o.instr pc = lowerOperation index o (Instruction.copOperation o.instr.rs) pc := by
  unfold lowerCop
  fun_cases Instruction.copOperation o.instr.rs <;> simp_all [lowerOperation]

variable (i : Instruction)

/-- Whether an access reads the register that it names. -/
theorem readsData_eq :
    (i.isStore && i.op != 0x3a || (i.op == 0x22 || i.op == 0x26)) = i.operation.memoryAccess?.any
      fun access => access.isStore && access ≠ .swc2 || access = .lwl || access = .lwr := by
  unfold Instruction.isStore
  fun_cases Instruction.operation i
  case case1 h =>
    rw [h]
    fun_cases Instruction.specialOperation i.funct <;> rfl
  case case21 h | case22 h =>
    rw [h]
    fun_cases Instruction.copOperation i.rs <;> rfl
  all_goals simp_all [Operation.memoryAccess?, MemoryAccess.isStore]

theorem lowerMemory_eq {index : Nat} {o : Op} {access : MemoryAccess}
    (hop : o.instr.operation = .memory access) : lowerMemory index o = lowerAccess index o access := by
  have hreads := readsData_eq o.instr
  have hwrites := Instruction.isLoad_and_eq o.instr
  rw [hop, Operation.memoryAccess?, Option.any_some] at hreads hwrites
  unfold lowerMemory lowerAccess
  simp only [hreads, hwrites, Bool.not_or, decide_not]

/-- The generator produces what the operation of a word asks for. -/
theorem lowerSimple_eq (index : Nat) (o : Op) (pc : UInt32) :
    lowerSimple index o pc = lowerOperation index o o.instr.operation pc := by
  unfold lowerSimple
  dsimp only
  fun_cases Instruction.operation o.instr
  case case1 hop =>
    rw [hop]
    exact lowerSpecial_eq index o pc hop
  case case21 hop | case22 hop =>
    rw [hop]
    exact lowerCop_eq index o pc (by simp [hop])
  case case23 | case24 | case25 | case26 | case27 | case28 | case29 | case30 | case31 | case32
  | case33 | case34 | case35 | case36 =>
    -- loads and stores
    simp only [*, Instruction.isMemory, Instruction.isLoad, Instruction.isStore, Bool.or_true,
      Bool.true_or, if_true]
    exact lowerMemory_eq (by simp [*, Instruction.operation])
  all_goals simp_all [lowerOperation, Instruction.aluImmediate?, Instruction.extended,
    Instruction.isMemory, Instruction.isLoad, Instruction.isStore]

/-! ## Branches and jumps -/

theorem linkRegister?_eq : linkRegister? i = i.operation.linkRegister? i := by
  unfold linkRegister?
  rw [Instruction.isBranchAndLink_eq]
  fun_cases Instruction.operation i
  case case1 h =>
    rw [h]
    fun_cases Instruction.specialOperation i.funct <;>
      simp_all [Operation.isBranchAndLink, Operation.linkRegister?]
  case case21 h | case22 h =>
    rw [h]
    fun_cases Instruction.copOperation i.rs <;>
      simp [Operation.isBranchAndLink, Operation.linkRegister?]
  all_goals simp_all [Operation.isBranchAndLink, Operation.linkRegister?]

/-- Of the words with a delay slot, the register jumps are those of the register-register group. -/
theorem isRegisterJump_eq {i : Instruction} (hslot : i.hasDelaySlot = true) :
    isRegisterJump i = i.operation.isRegisterJump := by
  unfold isRegisterJump
  rw [Instruction.hasDelaySlot_eq] at hslot
  revert hslot
  fun_cases Instruction.operation i
  case case1 h =>
    rw [h]
    fun_cases Instruction.specialOperation i.funct <;>
      simp [Operation.hasDelaySlot, Operation.isRegisterJump]
  case case21 h | case22 h =>
    rw [h]
    fun_cases Instruction.copOperation i.rs <;>
      simp [Operation.hasDelaySlot, Operation.isRegisterJump]
  all_goals simp_all [Operation.hasDelaySlot, Operation.isRegisterJump]

theorem decidingCondition?_eq : decidingCondition? i = i.operation.decidingCondition? i := by
  unfold decidingCondition? isRegisterJump
  rw [Instruction.condition?_eq, Instruction.isUnconditionalJump_eq]
  fun_cases Instruction.operation i
  case case1 h =>
    rw [h]
    fun_cases Instruction.specialOperation i.funct <;> simp [Operation.decidingCondition?]
  case case21 h | case22 h =>
    rw [h]
    fun_cases Instruction.copOperation i.rs <;> simp [Operation.condition?, Operation.decidingCondition?]
  all_goals simp_all [Operation.condition?, Operation.decidingCondition?]

end Lowering

end Dynarec
