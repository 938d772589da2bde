/-
  Dynarec.Proofs.FreedBlocks

  Freeing the instructions of a block cannot be noticed.

  Interpretation reads the words of a block and never its marks. So two
  cursors over the same words stay together step by step, whatever marks the
  one has and the other has not, and what a block leaves behind is the same
  whether its instructions were kept or are decoded again.
-/
import Dynarec.Proofs.Decode
import Dynarec.Proofs.Execution

namespace Dynarec

/-! ## Loops in step -/

/-- The result of a loop that is over. -/
def Progress.result? {σ ρ : Type} : Progress σ ρ → Option ρ
  | .running _ => none
  | .finished r => some r

/-- Both loops go on, from related states, or both are over, with related results. -/
inductive Progress.InStep {σ τ ρ π : Type} (S : σ → τ → Prop) (R : ρ → π → Prop) :
    Progress σ ρ → Progress τ π → Prop
  | running {s : σ} {t : τ} : S s t → InStep S R (.running s) (.running t)
  | finished {r : ρ} {q : π} : R r q → InStep S R (.finished r) (.finished q)

/-- Loops whose steps keep together keep together. -/
theorem iterate_inStep {σ τ ρ π : Type} {S : σ → τ → Prop} {R : ρ → π → Prop}
    {step : σ → Progress σ ρ} {step' : τ → Progress τ π}
    (hstep : ∀ {s t}, S s t → Progress.InStep S R (step s) (step' t)) (n : Nat) {s : σ} {t : τ}
    (h : S s t) : Progress.InStep S R (iterate step n s) (iterate step' n t) := by
  induction n generalizing s t with
  | zero => exact .running h
  | succ n ih =>
    rw [iterate_succ, iterate_succ]
    have hnext := hstep h
    cases hs : step s with
    | running s' =>
      rw [hs] at hnext
      cases ht : step' t with
      | running t' =>
        rw [ht] at hnext
        cases hnext with
        | running hnext => exact ih hnext
      | finished q =>
        rw [ht] at hnext
        cases hnext
    | finished r =>
      rw [hs] at hnext
      cases ht : step' t with
      | running t' =>
        rw [ht] at hnext
        cases hnext
      | finished q =>
        rw [ht] at hnext
        exact hnext

namespace Interpreter

variable {δ κ : Type}

/-! ## Marks -/

theorem instr_getD_of_opWords_eq {ops ops' : Array Op} (h : opWords ops = opWords ops') (index : Nat) :
    (ops.getD index default).instr = (ops'.getD index default).instr := by
  have hword := congrArg (·[index]?) h
  simp only [opWords, List.getElem?_map, Array.getElem?_toList] at hword
  rw [Array.getD_eq_getD_getElem?, Array.getD_eq_getD_getElem?]
  cases ho : ops[index]? with
  | none =>
    rw [ho] at hword
    rw [Option.map_eq_none_iff.mp hword.symm]
  | some o =>
    rw [ho] at hword
    obtain ⟨o', ho', hinstr⟩ := Option.map_eq_some_iff.mp hword.symm
    rw [ho']
    exact congrArg Instruction.mk hinstr.symm

/-- The cursors differ at most in the marks of their instructions. -/
structure Cursor.SameButMarks (c d : Cursor δ κ) : Prop where
  machine : c.machine = d.machine
  words : opWords c.ops = opWords d.ops
  pc : c.pc = d.pc
  pending : c.pending = d.pending

/-- The blocks were left with the same, marks apart. -/
structure Outcome.SameButMarks (o o' : Outcome δ κ) : Prop where
  machine : o.machine = o'.machine
  next : o.next = o'.next

variable [Device δ] [Coprocessor κ]

/-- Marks do not change what an instruction does. -/
theorem inStep_step (base : UInt32) {c d : Cursor δ κ} (h : c.SameButMarks d) :
    Progress.InStep Cursor.SameButMarks Outcome.SameButMarks (step base c) (step base d) := by
  obtain ⟨hmachine, hwords, hpc, hpending⟩ := h
  have hsize : c.ops.size = d.ops.size := by
    rw [← length_opWords, hwords, length_opWords]
  unfold step
  rw [hsize, hpc, hpending, hmachine]
  cases indexIn? base d.ops.size d.pc with
  | none =>
    cases d.pending with
    | some target => exact .finished ⟨rfl, rfl⟩
    | none => exact .finished ⟨rfl, rfl⟩
  | some index =>
    dsimp only
    rw [instr_getD_of_opWords_eq hwords index]
    generalize execute (d.machine.tick cyclesPerOp) (d.ops.getD index default).instr d.pc = e
    -- tagging the access leaves the words alone
    have htags : opWords (tagAccess c.ops c.tagged index (c.ops.getD index default) e.access).1 =
        opWords (tagAccess d.ops d.tagged index (d.ops.getD index default) e.access).1 :=
      (annotates_tagAccess 0 c.ops c.tagged index e.access).opWords_eq.trans
        (hwords.trans (annotates_tagAccess 0 d.ops d.tagged index e.access).opWords_eq.symm)
    cases e.step with
    | exit next => exact .finished ⟨rfl, rfl⟩
    | branch target => exact .running ⟨rfl, htags, rfl, rfl⟩
    | next =>
      cases d.pending with
      | none => exact .running ⟨rfl, htags, rfl, rfl⟩
      | some target =>
        dsimp only
        split
        · exact .finished ⟨rfl, rfl⟩
        · exact .running ⟨rfl, htags, rfl, rfl⟩

theorem inStep_run (fuel : Nat) (m : Machine δ κ) (base : UInt32) {ops ops' : Array Op}
    (h : opWords ops = opWords ops') (start : Nat) :
    Progress.InStep Cursor.SameButMarks Outcome.SameButMarks (run fuel m base ops start)
      (run fuel m base ops' start) :=
  iterate_inStep (fun hs => inStep_step base hs) fuel ⟨rfl, h, rfl, rfl⟩

/-! ## Freed blocks -/

omit [Device δ] [Coprocessor κ] in
/-- The blocks were left for the same address with the same registers, clock, memory, devices and
coprocessors. -/
structure Emulated.SameEffect (a b : Emulated δ κ) : Prop where
  next : a.next = b.next
  regs : a.machine.regs = b.machine.regs
  clock : a.machine.clock = b.machine.clock
  memory : a.machine.memory = b.machine.memory
  cop0 : a.machine.cop0 = b.machine.cop0
  cop2 : a.machine.cop2 = b.machine.cop2

/-- A block whose instructions are decoded again does what it did, as long as its words are found. -/
theorem inStep_emulate {b : Block} {marked ops again : Array Op} (hops : b.ops = some marked)
    (hcount : b.opCount = ops.size) (hwords : opWords marked = opWords ops) {m : Machine δ κ}
    (hdecode : Block.decode m.memory b.pc ops.size = .ok again)
    (hagain : again.extract 0 ops.size = ops) (fuel : Nat) (pc : UInt32) :
    Progress.InStep Cursor.SameButMarks Emulated.SameEffect (emulate fuel m b pc)
      (emulate fuel m b.freeOps.2 pc) := by
  rw [← hcount] at hdecode hagain
  have hrun := inStep_run fuel m b.pc (hwords.trans (congrArg opWords hagain.symm))
    ((pc - b.pc) >>> (2 : UInt32)).toNat
  unfold emulate
  dsimp only [Block.freeOps]
  rw [hops, hdecode]
  dsimp only
  generalize run fuel m b.pc marked ((pc - b.pc) >>> (2 : UInt32)).toNat = first at hrun ⊢
  generalize run fuel m b.pc (again.extract 0 b.opCount) ((pc - b.pc) >>> (2 : UInt32)).toNat = second
    at hrun ⊢
  cases hrun with
  | running hsame => exact .running hsame
  | @finished o o' hsame =>
    obtain ⟨hmachine, hnext⟩ := hsame
    dsimp only
    rw [← hmachine, ← hnext]
    split
    · -- only entries and the log are touched for new tags
      exact .finished ⟨rfl, rfl, rfl, rfl, rfl, rfl⟩
    · exact .finished ⟨rfl, rfl, rfl, rfl, rfl, rfl⟩

/-- Freeing the instructions of a decoded block cannot be noticed. The block found with its own length
as the limit starts with it. So from any instruction on, and for any number of steps, the freed block
does what it does with its instructions, however they are marked, as long as its words stand in
memory. -/
theorem emulate_freed_same_effect {memory : Memory δ} {base : UInt32} {maxOps : Nat}
    (hmost : maxOps ≤ 65534) {ops : Array Op} (hdecode : Block.decode memory base maxOps = .ok ops) :
    (∃ again, Block.decode memory base ops.size = .ok again ∧ again.extract 0 ops.size = ops) ∧
    ∀ {marked : Array Op} {flags : BlockFlags} {code : Option CompiledCode} {m : Machine δ κ},
      opWords marked = opWords ops → (∃ r data, m.memory.Supplies base (opWords ops) r data) →
      ∀ (fuel : Nat) (pc : UInt32),
        Progress.InStep Cursor.SameButMarks Emulated.SameEffect
          (emulate fuel m { Block.ofOps base marked flags with code } pc)
          (emulate fuel m (Block.freeOps { Block.ofOps base marked flags with code }).2 pc) := by
  obtain ⟨⟨r, data, hsupplies⟩, -, hsize, -⟩ := Block.supplies_of_decode hdecode
  refine ⟨Block.decode_again_of_supplies hdecode hsupplies, ?_⟩
  rintro marked flags code m hwords ⟨r', data', hsupplies'⟩ fuel pc
  obtain ⟨again, hagain, hextract⟩ := Block.decode_again_of_supplies hdecode hsupplies'
  have hcount : marked.size = ops.size := by
    rw [← length_opWords, hwords, length_opWords]
  -- the number of instructions fits into its sixteen bits
  have hfits : marked.size % 65536 = ops.size := by omega
  exact inStep_emulate (b := { Block.ofOps base marked flags with code }) rfl hfits hwords hagain
    hextract fuel pc

/-- A load, and a return that adds one to what was loaded. -/
def loadAndReturn : Memory RegisterBank :=
  match Memory.ofRegions #[.ram 0 0x10] with
  | .ok memory => (memory.writeWords 0 [0x8ca20000, 0x03e00008, 0x24420001, 0]).2
  | .error _ => default

/-- A machine over that memory that returns to `0x20`. -/
def loading : Machine RegisterBank StandardCoprocessor :=
  { HostProgram.countdownMachine with memory := loadAndReturn, regs := ({} : Registers).set .ra 0x20 }

/-- The block there, marked, with the load still to be tagged. -/
def loadingBlock (ops : Array Op) : Block :=
  { Block.ofOps 0 (annotate loadAndReturn.layout {} 0 ops).ops {} with code := none }

/-- What the block leaves behind with its instructions and without. -/
theorem emulate_freed_same_effect_load : ∃ ops a b, Block.decode loadAndReturn 0 8 = .ok ops ∧
      emulate 9 loading (loadingBlock ops) 0 = .finished a ∧
      emulate 9 loading (loadingBlock ops).freeOps.2 0 = .finished b ∧ a.SameEffect b ∧
      b.next = 0x20 ∧ b.machine.regs.get 2 = 0x8ca20001 := by
  obtain ⟨ops, hops, hends⟩ := (Option.any_eq_true _ _).mp (show
    (Block.decode loadAndReturn 0 8).toOption.any (fun ops =>
      (emulate 9 loading (loadingBlock ops).freeOps.2 0).result?.any fun b =>
        decide (b.next = 0x20 ∧ b.machine.regs.get 2 = 0x8ca20001)) = true by decide +kernel)
  obtain ⟨b, hb, hnext⟩ := (Option.any_eq_true _ _).mp hends
  have hdecode := Block.eq_ok_of_toOption hops
  have hsame : Progress.InStep Cursor.SameButMarks Emulated.SameEffect
      (emulate 9 loading (loadingBlock ops) 0) (emulate 9 loading (loadingBlock ops).freeOps.2 0) :=
    (emulate_freed_same_effect (by decide) hdecode).2
      (annotates_annotate loadAndReturn.layout {} 0 ops).opWords_eq
      (Block.supplies_of_decode hdecode).1 9 0
  generalize hkept : emulate 9 loading (loadingBlock ops) 0 = kept at hsame
  generalize hfreed : emulate 9 loading (loadingBlock ops).freeOps.2 0 = freed at hsame hb
  cases hsame with
  | running _ => cases hb
  | @finished a _ heffect =>
    cases hb
    exact ⟨ops, a, b, hdecode, hkept, hfreed, heffect, of_decide_eq_true hnext⟩

end Interpreter

end Dynarec
