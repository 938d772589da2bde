/-
  Dynarec.Proofs.UnknownWords

  Words that no instruction has.

  Which words the instruction set leaves out is read off their fields: the
  function code in the register-register group, `rt` in the group of branches
  that test a sign, `rs` in the coprocessor groups, and the operation code
  everywhere else. These are the words over which the interpreter leaves guest
  code, which code generation reports, and which a listing shows as such. What
  accesses memory is known to be an access wherever it is run.
-/
import Dynarec.Proofs.Faults
import Dynarec.Proofs.Host.Reports

namespace Dynarec

namespace Instruction

/-! ## Fields -/

/-- Function codes of the register-register group. -/
def functCodes : List UInt8 :=
  [0x00, 0x02, 0x03, 0x04, 0x06, 0x07, 0x08, 0x09, 0x0c, 0x0d, 0x10, 0x11, 0x12, 0x13, 0x18, 0x19,
    0x1a, 0x1b, 0x20, 0x21, 0x22, 0x23, 0x24, 0x25, 0x26, 0x27, 0x2a, 0x2b]

/-- Operation codes of the instructions that have one of their own. -/
def opCodes : List UInt8 :=
  [0x02, 0x03, 0x04, 0x05, 0x06, 0x07, 0x08, 0x09, 0x0a, 0x0b, 0x0c, 0x0d, 0x0e, 0x0f, 0x20, 0x21,
    0x22, 0x23, 0x24, 0x25, 0x26, 0x28, 0x29, 0x2a, 0x2b, 0x2e, 0x32, 0x3a]

/-- The instruction set has no instruction with this word. -/
def isUndefined (i : Instruction) : Bool :=
  if i.op = 0x00 then i.funct ∉ functCodes
  else if i.op = 0x01 then i.rt ∉ [0x00, 0x01, 0x10, 0x11]
  else if i.op = 0x10 || i.op = 0x12 then i.rs &&& 0x10 = 0 && i.rs ∉ [0x00, 0x02, 0x04, 0x06]
  else i.op ∉ opCodes

theorem specialOperation_eq_unknown_iff (f : UInt8) :
    specialOperation f = .unknown ↔ f ∉ functCodes := by
  unfold specialOperation functCodes
  split <;> simp_all

theorem copOperation_eq_unknown_iff (r : Reg) :
    copOperation r = .unknown ↔ r &&& 0x10 = 0 ∧ r ∉ [0x00, 0x02, 0x04, 0x06] := by
  unfold copOperation
  by_cases h : r &&& 0x10 = 0
  · rw [if_neg (not_not_intro h)]
    split <;> simp_all
  · simp [h]

theorem operation_eq_unknown_iff (i : Instruction) :
    i.operation = .unknown ↔ i.isUndefined = true := by
  -- one case for each operation code; those that look at a second field have a lemma of their own
  unfold operation isUndefined
  split
  · rename_i hop
    rw [if_pos hop, decide_eq_true_iff]
    exact specialOperation_eq_unknown_iff i.funct
  · rename_i hop
    rw [if_neg (by rw [hop]; decide), if_pos hop]
    split <;> simp_all
  all_goals simp_all [copOperation_eq_unknown_iff, opCodes]

theorem isSome_memoryAccess? (i : Instruction) : i.memoryAccess?.isSome = i.isMemory := by
  rw [memoryAccess?_eq, isMemory_eq]
  cases i.operation <;> rfl

theorem isStore_memoryAccess? {i : Instruction} {access : MemoryAccess}
    (hk : i.memoryAccess? = some access) : access.isStore = i.isStore := by
  rw [isStore_eq, operation_of_memoryAccess? hk]
  rfl

end Instruction

/-! ## Interpretation -/

/-- Nothing is said about an unknown word. -/
def Request.IsDiscreet : Request → Prop
  | .exit flags => flags.unknownOp = false
  | .resetCycle _ | .note _ => True

theorem Clock.unknownOp_setExit (c : Clock) (flags : ExitFlags) :
    (c.setExit flags).exit.unknownOp = (c.exit.unknownOp || flags.unknownOp) := by
  unfold setExit
  split
  · rename_i h
    unfold ExitFlags.isNormal at h
    simp_all
  · rfl

theorem Clock.outlasts_unknownOp :
    Outlasts (fun c c' => c'.exit.unknownOp = c.exit.unknownOp) Request.IsDiscreet where
  refl _ := rfl
  trans h h' := h'.trans h
  reset _ _ := rfl
  setExit h c := by rw [unknownOp_setExit, h, Bool.or_false]

namespace Interpreter

variable {δ κ : Type} [Device δ] [Coprocessor κ]

/-- An instruction asks to leave over an unknown word exactly if it is one. -/
theorem unknownOp_execute (ha : AsksOnly Request.IsDiscreet δ κ) (m : Machine δ κ) (i : Instruction)
    (pc : UInt32) : (execute m i pc).machine.clock.exit.unknownOp =
      (m.clock.exit.unknownOp || decide (i.operation = .unknown)) := by
  have hkept {c : Clock} (h : c.exit.unknownOp = m.clock.exit.unknownOp) :
      c.exit.unknownOp = (m.clock.exit.unknownOp || false) := by rw [h, Bool.or_false]
  rw [execute_eq]
  unfold executeOperation
  cases hop : i.operation with
  | syscall | breakpoint | unknown => exact Clock.unknownOp_setExit m.clock _
  | branch condition link =>
    dsimp only
    split
    · cases link <;> exact hkept rfl
    · cases link <;> exact hkept rfl
  | copRead control => exact hkept (Clock.outlasts_unknownOp.copRead ha m i _ _)
  | copWrite control => exact hkept (Clock.outlasts_unknownOp.copWrite ha m i _ _ _)
  | copExecute => exact hkept (Clock.outlasts_unknownOp.copExecute ha m i)
  | memory access =>
    -- the word is known to be an access, so the clock is left to requests and a fault
    obtain ⟨c, hc, h⟩ := Clock.outlasts_unknownOp.transfer ha
      (Instruction.memoryAccess?_of_operation hop) m (m.regs.get i.rs) (m.regs.get i.rt)
    have hkeep : (m.transfer i (m.regs.get i.rs) (m.regs.get i.rt)).machine.clock.exit.unknownOp =
        m.clock.exit.unknownOp := by
      rcases h with h | h
      · rw [h, hc]
      · rw [h, Clock.unknownOp_setExit, hc]
        exact Bool.or_false _
    dsimp only [executeAccess]
    split
    · exact hkept hkeep
    · split
      · exact hkept hkeep
      · exact hkept hkeep
  | _ => exact hkept rfl

end Interpreter

/-! ## Listing -/

/-- The text does not start with a dot. -/
def Text.startsPlain (s : String) : Bool := s.toList.head?.any (· != '.')

namespace Instruction

theorem toList_asm (name : String) (operands : List String) :
    (asm name operands).toList = name.toList ++ ' ' :: (", ".intercalate operands).toList := by
  rw [asm, String.append_assoc, String.toList_append, String.toList_append]
  rfl

/-- The text of an instruction starts with a name, which is made of letters; the text of a word that no
instruction has is that word. -/
def Shows (i : Instruction) (operation : Operation) (text : String) : Prop :=
  if operation = .unknown then text = i.wordText else Text.startsPlain text = true

variable (i : Instruction)

theorem shows_renderSpecial : i.Shows (specialOperation i.funct) i.renderSpecial := by
  unfold renderSpecial
  fun_cases specialOperation i.funct
  all_goals simp_all [Shows, Text.startsPlain, toList_asm]

theorem shows_renderCop : i.Shows (copOperation i.rs) i.renderCop := by
  unfold renderCop
  dsimp only
  fun_cases copOperation i.rs
  case case1 hexecute =>
    rw [if_pos hexecute]
    split
    · simp [Shows, Text.startsPlain]
    · simp [Shows, Text.startsPlain, toList_asm]
  all_goals simp_all [Shows, Text.startsPlain, toList_asm]

/-- The listing shows what the operation of a word is. -/
theorem shows_render (pc : UInt32) : i.Shows i.operation (i.render pc) := by
  unfold render
  dsimp only
  split
  · -- the word of all zeros has a name of its own, but it is a shift
    rename_i hword
    obtain ⟨w⟩ := i
    obtain rfl : w = 0 := hword
    rw [Shows, if_neg (by decide)]
    decide
  · fun_cases operation i
    case case1 hop =>
      rw [hop]
      exact shows_renderSpecial i
    case case21 hop | case22 hop =>
      rw [hop]
      exact shows_renderCop i
    all_goals simp_all [Shows, renderSignBranch, Text.startsPlain, toList_asm]

theorem render_of_unknown {i : Instruction} (h : i.operation = .unknown) (pc : UInt32) :
    i.render pc = ".word " ++ Text.hexWord i.word := by
  have htext := i.shows_render pc
  rwa [Shows, if_pos h] at htext

/-- A listing shows a word as such exactly if there is no instruction with it. -/
theorem render_word_iff (pc : UInt32) :
    (∃ rest, i.render pc = ".word" ++ rest) ↔ i.operation = .unknown := by
  by_cases h : i.operation = .unknown
  · refine iff_of_true ⟨" " ++ Text.hexWord i.word, ?_⟩ h
    rw [render_of_unknown h, ← String.append_assoc]
    rfl
  · refine iff_of_false (fun htext => ?_) h
    obtain ⟨rest, htext⟩ := htext
    have hplain := i.shows_render pc
    rw [Shows, if_neg h, htext] at hplain
    simp [Text.startsPlain] at hplain

end Instruction

/-! ## Code generation -/

/-- Generated code accesses memory for loads and stores. -/
theorem HostProgram.isSome_memoryAccess?_of_generate {source : BlockSource} {cache : RegisterCache}
    {p : HostProgram} (h : (generate source cache).result = .ok p) {index : Nat} {o : Op}
    {base : HostReg} {data dst : Option HostReg} (hop : .memory index o base data dst ∈ p.ops) :
    o.instr.memoryAccess?.isSome = true := by
  have hall := (generate_holds (N := fun _ => True) (P := fun op => ∀ index o base data dst,
    op = .memory index o base data dst → o.instr.memoryAccess?.isSome = true) ?_ ?_ cache).1 p h
  · exact hall _ hop index o base data dst rfl
  · intro op hplain _ _ _ _ _ heq
    rw [heq] at hplain
    cases hplain
  · refine fun _ o _ => ⟨fun hmemory _ _ _ _ _ o' _ _ _ heq => ?_, fun _ => trivial⟩
    cases heq
    rw [Instruction.memoryAccess?_of_operation hmemory, Option.isSome_some]

/-- What code generation reports as unknown is a word of the block that no instruction has. -/
theorem HostProgram.isUndefined_of_generate {source : BlockSource} {cache : RegisterCache}
    {word addr : UInt32}
    (h : .unknownOpcode .hostCode word addr ∈ (generate source cache).notices) :
    ∃ (index : Nat) (o : Op), source.ops[index]? = some o ∧ word = o.instr.word ∧
      addr = source.pc + index.toUInt32 * 4 ∧ o.instr.isUndefined = true := by
  refine (generate_holds (P := fun _ => True) (N := fun n => ∀ word addr,
    n = .unknownOpcode .hostCode word addr → ∃ (index : Nat) (o : Op), source.ops[index]? = some o ∧
      word = o.instr.word ∧ addr = source.pc + index.toUInt32 * 4 ∧ o.instr.isUndefined = true)
    (fun _ _ => trivial) ?_ cache).2 word addr h word addr rfl
  refine fun index o ho => ⟨fun _ _ _ _ _ => trivial, fun hunknown word addr heq => ?_⟩
  cases heq
  exact ⟨index, o, ho, rfl, rfl, o.instr.operation_eq_unknown_iff.mp hunknown⟩

/-! ## Agreement -/

namespace Instruction

/-- The interpreter, code generation and the listing take the same words for unknown, whatever the
machine, the block around the word and its annotations: those whose fields the instruction set
leaves out. Loads and stores are told apart from other words, and from each other, the same way
everywhere, and the code of a block accesses memory for no other instructions. -/
theorem undefined_words_agree (i : Instruction) :
    (∀ {δ κ : Type} [Device δ] [Coprocessor κ] (m : Machine δ κ) (pc : UInt32),
      (i.isUndefined = true → Interpreter.execute m i pc = Interpreter.unknown m i pc) ∧
      (AsksOnly Request.IsDiscreet δ κ → m.clock.exit.unknownOp = false →
        ((Interpreter.execute m i pc).machine.clock.exit.unknownOp = true ↔
          i.isUndefined = true))) ∧
    (∀ (source : BlockSource) (index : Nat) (flags : OpFlags) (s : Lowering),
      flags.emulateBranch = false →
      .unknownOpcode .hostCode i.word (source.pc + index.toUInt32 * 4) ∉ s.notices →
      (.unknownOpcode .hostCode i.word (source.pc + index.toUInt32 * 4) ∈
          (Lowering.stateOf (Lowering.lowerOp source index { instr := i, flags } s)).notices ↔
        i.isUndefined = true)) ∧
    (∀ pc, ((∃ rest, i.render pc = ".word" ++ rest) ↔ i.isUndefined = true) ∧
      (i.isUndefined = true → i.render pc = ".word " ++ Text.hexWord i.word)) ∧
    (i.memoryAccess?.isSome = i.isMemory ∧
      ∀ access, i.memoryAccess? = some access → access.isStore = i.isStore) ∧
    ∀ (source : BlockSource) (cache : RegisterCache),
      (∀ p, (HostProgram.generate source cache).result = .ok p →
        ∀ index o base data dst, .memory index o base data dst ∈ p.ops → o.instr = i →
          i.memoryAccess?.isSome = true) ∧
      ∀ addr, .unknownOpcode .hostCode i.word addr ∈ (HostProgram.generate source cache).notices →
        i.isUndefined = true ∧ ∃ (index : Nat) (o : Op), source.ops[index]? = some o ∧ o.instr = i ∧
          addr = source.pc + index.toUInt32 * 4 := by
  refine ⟨fun m pc => ⟨fun h => ?_, fun ha hm => ?_⟩, fun source index flags s hflag hnew => ?_,
    fun pc => ⟨?_, fun h => ?_⟩,
    ⟨isSome_memoryAccess? i, fun access hk => isStore_memoryAccess? hk⟩,
    fun source cache => ⟨fun p h index o base data dst hop ho => ?_, fun addr h => ?_⟩⟩
  · rw [← operation_eq_unknown_iff] at h
    rw [Interpreter.execute_eq, h]
    rfl
  · rw [Interpreter.unknownOp_execute ha, hm, Bool.false_or, decide_eq_true_iff]
    exact operation_eq_unknown_iff i
  · rw [← operation_eq_unknown_iff]
    exact Lowering.lowerOp_reports_iff (o := { instr := i, flags }) rfl hflag hnew
  · rw [← operation_eq_unknown_iff]
    exact render_word_iff i pc
  · exact render_of_unknown ((operation_eq_unknown_iff i).mpr h) pc
  · rw [← ho]
    exact HostProgram.isSome_memoryAccess?_of_generate h hop
  · obtain ⟨index, o, hget, hword, haddr, hundefined⟩ := HostProgram.isUndefined_of_generate h
    have ho : o.instr = i := congrArg Instruction.mk hword.symm
    exact ⟨ho ▸ hundefined, index, o, hget, ho, haddr⟩

/-- A coprocessor word with an `rs` field that means nothing, on a machine with the devices of the
library: the interpreter leaves guest code over it. -/
theorem undefined_words_agree_cop : AsksOnly Request.IsDiscreet RegisterBank StandardCoprocessor ∧
    (Instruction.mk 0x40200000).isUndefined = true ∧
    (Interpreter.execute (Machine.withBudget 8) ⟨0x40200000⟩ 0).machine.clock.exit.unknownOp =
      true ∧
    ∃ rest, (Instruction.mk 0x40200000).render 0 = ".word" ++ rest := by
  have hasks : AsksOnly Request.IsDiscreet RegisterBank StandardCoprocessor :=
    keepsTime_standard.asksOnly.mono fun r h => by
      cases r with
      | note n => trivial
      | resetCycle | exit => cases h
  have hundefined : (Instruction.mk 0x40200000).isUndefined = true := by decide
  obtain ⟨hrun, -, hlist, -⟩ := undefined_words_agree ⟨0x40200000⟩
  exact ⟨hasks, hundefined, ((hrun (Machine.withBudget 8) 0).2 hasks rfl).mpr hundefined,
    (hlist 0).1.mpr hundefined⟩

end Instruction

end Dynarec
