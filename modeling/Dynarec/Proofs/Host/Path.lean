/-
  Dynarec.Proofs.Host.Path

  Runs of the interpreter through the block that code was generated from.

  Code knows nothing but its block, so it takes the steps of `stepClipped`: a
  delay slot behind the end of the block is left out. `Path` is a run of such
  steps, with the positions of the instructions it runs, and `Reaches` says
  that code which was left agrees with the end of one. How well code can follow
  the interpreter depends on the marks of the block, which `Faithful` says are
  true.
-/
import Dynarec.Proofs.Host.Correspondence

namespace Dynarec

namespace Interpreter

/-! ## Positions and addresses -/

theorem toNat_mul_four {index : Nat} (h : index < 65536) :
    (index.toUInt32 * 4).toNat = index * 4 := by
  have h1 : index.toUInt32.toNat = index := UInt32.toNat_ofNat_of_lt' (by
    rw [UInt32.size]
    omega)
  rw [UInt32.toNat_mul, h1]
  exact Nat.mod_eq_of_lt (by
    show index * 4 < 2 ^ 32
    omega)

theorem toUInt32_add (k n : Nat) : (k + n).toUInt32 = k.toUInt32 + n.toUInt32 := by
  simp [Nat.toUInt32, UInt32.ofNat_add]

theorem toUInt32_succ (n : Nat) : (n + 1).toUInt32 = n.toUInt32 + 1 := toUInt32_add n 1

theorem address_succ (base : UInt32) (index : Nat) :
    base + index.toUInt32 * 4 + 4 = base + (index + 1).toUInt32 * 4 := by
  rw [toUInt32_succ, UInt32.add_mul, UInt32.add_assoc]
  rfl

theorem indexIn?_address (base : UInt32) {count index : Nat} (hi : index < count)
    (hc : count ≤ 65536) : indexIn? base count (base + index.toUInt32 * 4) = some index := by
  have hd : (base + index.toUInt32 * 4 - base).toNat = index * 4 := by
    rw [UInt32.add_comm, UInt32.add_sub_cancel, toNat_mul_four (by omega)]
  unfold indexIn?
  dsimp only
  rw [hd, if_pos (by simp; omega)]
  congr 1
  omega

theorem address_of_indexIn? {base pc : UInt32} {count index : Nat}
    (h : indexIn? base count pc = some index) :
    index < count ∧ pc = base + index.toUInt32 * 4 ∧ ((pc - base) >>> (2 : UInt32)).toNat = index := by
  unfold indexIn? at h
  dsimp only at h
  split at h
  · rename_i hd
    simp only [Bool.and_eq_true, decide_eq_true_eq] at hd
    cases h
    have hlt := (pc - base).toNat_lt
    refine ⟨hd.2, ?_, ?_⟩
    · have hpc : pc - base = ((pc - base).toNat / 4).toUInt32 * 4 := by
        rw [← UInt32.toNat_inj, UInt32.toNat_mul, UInt32.toNat_ofNat_of_lt' (by
          rw [UInt32.size]
          omega)]
        show _ = (pc - base).toNat / 4 * 4 % 2 ^ 32
        omega
      rw [← hpc, UInt32.add_comm, UInt32.sub_add_cancel]
    · rw [UInt32.toNat_shiftRight]
      show (pc - base).toNat >>> 2 = _
      rw [Nat.shiftRight_eq_div_pow]
  · cases h

/-- A branch on zero or less of a register other than zero with itself: code takes it always,
the interpreter only if the register is not positive. -/
def isSelfLez (i : Instruction) : Bool :=
  match i.operation with
  | .branch .lez _ => i.rs == i.rt && i.rs != 0
  | _ => false

/-! ## Steps inside a block -/

variable {δ κ : Type} [Device δ] [Coprocessor κ] {base : UInt32} {c c' : Cursor δ κ} {index : Nat}

theorem stepFreely_of_next (hindex : indexIn? base c.ops.size c.pc = some index)
    (hstep : (c.effect index).step = .next) :
    stepFreely base c = .running { c.ran index (c.effect index) with
      pc := c.pending.getD (c.pc + 4), pending := none } := by
  rw [stepFreely, hindex]
  dsimp only
  rw [hstep]

theorem stepFreely_of_branch {target : UInt32} (hindex : indexIn? base c.ops.size c.pc = some index)
    (hstep : (c.effect index).step = .branch target) :
    stepFreely base c = .running { c.ran index (c.effect index) with
      pc := c.pending.getD (c.pc + 4), pending := some target } := by
  rw [stepFreely, hindex]
  dsimp only
  rw [hstep]

/-- Where a step branches to. -/
def Step.target? : Step → Option UInt32
  | .branch target => some target
  | .next | .exit _ => none

/-- Where code goes from the branch at `index`, if it takes it. A branch that is taken for granted is
taken whatever the registers say. -/
def Cursor.departure? (c : Cursor δ κ) (index : Nat) : Option UInt32 :=
  let i := (c.ops.getD index default).instr
  (c.effect index).step.target?.or (if i.isUnconditionalJump then i.branchTarget? c.pc else none)

/-- Run one instruction of a block at `base`, as code does that knows nothing but the block. The
delay slot of a branch at the end is not there to be run. -/
def stepClipped (base : UInt32) (c : Cursor δ κ) : Progress (Cursor δ κ) (Outcome δ κ) :=
  match indexIn? base c.ops.size c.pc with
  | none => stepFreely base c
  | some index =>
    if (c.ops.getD index default).instr.hasDelaySlot && c.pending.isNone then
      let c' := c.ran index (c.effect index)
      if index + 1 < c.ops.size then
        .running { c' with pc := c.pc + 4, pending := c.departure? index }
      else .running { c' with pc := (c.departure? index).getD (c.pc + 4), pending := none }
    else stepFreely base c

/-- An instruction that is no branch is run as the interpreter does. -/
theorem stepClipped_of_not_hasDelaySlot (hindex : indexIn? base c.ops.size c.pc = some index)
    (hi : (c.ops.getD index default).instr.hasDelaySlot = false) :
    stepClipped base c = stepFreely base c := by
  rw [stepClipped, hindex]
  dsimp only
  rw [hi, Bool.false_and, if_neg Bool.false_ne_true]

/-- A branch goes where code takes it, behind its delay slot if that is in the block. -/
theorem stepClipped_of_hasDelaySlot (hindex : indexIn? base c.ops.size c.pc = some index)
    (hi : (c.ops.getD index default).instr.hasDelaySlot = true) (hpending : c.pending = none) :
    stepClipped base c =
      if index + 1 < c.ops.size then
        .running { c.ran index (c.effect index) with pc := c.pc + 4, pending := c.departure? index }
      else
        .running { c.ran index (c.effect index) with
          pc := (c.departure? index).getD (c.pc + 4), pending := none } := by
  rw [stepClipped, hindex]
  dsimp only
  rw [hi, hpending]
  rfl

/-- The instruction has run, wherever control goes. -/
theorem ran_of_stepClipped (hindex : indexIn? base c.ops.size c.pc = some index)
    (h : stepClipped base c = .running c') :
    c'.machine = (c.effect index).machine ∧ c'.ops = (c.ran index (c.effect index)).ops := by
  have hfree : stepFreely base c = .running c' →
      c'.machine = (c.effect index).machine ∧ c'.ops = (c.ran index (c.effect index)).ops := by
    intro h
    rw [stepFreely, hindex] at h
    dsimp only at h
    split at h
    · cases h
    · cases h
      exact ⟨rfl, rfl⟩
    · cases h
      exact ⟨rfl, rfl⟩
  rw [stepClipped, hindex] at h
  dsimp only at h
  split at h
  · split at h
    · cases h
      exact ⟨rfl, rfl⟩
    · cases h
      exact ⟨rfl, rfl⟩
  · exact hfree h

end Interpreter

namespace HostProgram

open Interpreter (Cursor stepFreely stepClipped indexIn?)

variable {δ κ : Type} [Device δ] [Coprocessor κ]

/-! ## Runs of the interpreter through a block -/

omit [Device δ] [Coprocessor κ] in
/-- Address of instruction `index` of the block. -/
def Site.address (σ : Site δ κ) (index : Nat) : UInt32 := σ.source.pc + index.toUInt32 * 4

/-- One iteration runs the instruction at `index`, which is no branch in a delay slot. -/
structure Moves (σ : Site δ κ) (index : Nat) (c c' : Cursor δ κ) : Prop where
  stands : indexIn? σ.source.pc c.ops.size c.pc = some index
  clipped : stepClipped σ.source.pc c = .running c'
  /-- Where the code has to be exact the iteration is one of the interpreter's own. -/
  free : σ.exact → stepFreely σ.source.pc c = .running c'
  parted : (c.ops.getD index default).instr.hasDelaySlot = true → c.pending = none

/-- Iterations run the instructions at these positions. -/
def Path (σ : Site δ κ) : List Nat → Cursor δ κ → Cursor δ κ → Prop
  | [], c, c' => c' = c
  | index :: rest, c, c' => ∃ d, Moves σ index c d ∧ Path σ rest d c'

/-- The code was left with `r`, where running the instructions at these positions leads. -/
inductive Reaches (σ : Site δ κ) : List Nat → Cursor δ κ → Returned δ κ → Prop
  /-- The instructions lead to the address that guest code goes on at. -/
  | arrives {path : List Nat} {c c' : Cursor δ κ} {r : Returned δ κ} (hpath : Path σ path c c')
      (hpending : c'.pending = none) (hend : Ends σ r c' c'.pc) : Reaches σ path c r
  /-- The last of them leaves guest code. -/
  | exits {path : List Nat} {index : Nat} {c c' : Cursor δ κ} {r : Returned δ κ} {next : UInt32}
      (hpath : Path σ path c c') (hindex : indexIn? σ.source.pc c'.ops.size c'.pc = some index)
      (hstep : (c'.effect index).step = .exit next)
      (hend : Ends σ r (c'.ran index (c'.effect index)) next) : Reaches σ (path ++ [index]) c r

variable {σ : Site δ κ}

theorem Path.append {path rest : List Nat} {c c' c'' : Cursor δ κ} (h1 : Path σ path c c')
    (h2 : Path σ rest c' c'') : Path σ (path ++ rest) c c'' := by
  induction path generalizing c with
  | nil =>
    cases h1
    exact h2
  | cons index path ih =>
    obtain ⟨d, hm, hp⟩ := h1
    exact ⟨d, hm, ih hp⟩

theorem Path.reaches {path rest : List Nat} {c c' : Cursor δ κ} {r : Returned δ κ}
    (h1 : Path σ path c c') (h2 : Reaches σ rest c' r) : Reaches σ (path ++ rest) c r := by
  cases h2 with
  | arrives hpath hpending hend => exact .arrives (h1.append hpath) hpending hend
  | exits hpath hindex hstep hend =>
    rw [← List.append_assoc]
    exact .exits (h1.append hpath) hindex hstep hend

omit [Device δ] [Coprocessor κ] in
/-- The address of an instruction of the block leads to it. -/
theorem Site.indexIn?_address {ops : Array Op} (hr : Retags σ.source.ops ops)
    (hsize : σ.source.ops.size ≤ 65535) {index : Nat} (hi : index < σ.source.ops.size) :
    indexIn? σ.source.pc ops.size (σ.address index) = some index := by
  rw [hr.size]
  exact Interpreter.indexIn?_address _ hi (by omega)

/-- What runs at an instruction of the block. -/
theorem Site.effect {c : Cursor δ κ} (hr : Retags σ.source.ops c.ops) {index : Nat} {o : Op}
    (ho : σ.source.ops[index]? = some o) :
    c.effect index = Interpreter.execute (c.machine.tick Interpreter.cyclesPerOp) o.instr c.pc := by
  have hi : (c.ops.getD index default).instr = o.instr := by
    rw [hr.instr, Array.getD_eq_getD_getElem?, ho, Option.getD_some]
  rw [Cursor.effect, hi]

/-- The move of an instruction that goes on. -/
theorem moves_next {c : Cursor δ κ} {index : Nat}
    (hindex : indexIn? σ.source.pc c.ops.size c.pc = some index)
    (hi : (c.ops.getD index default).instr.hasDelaySlot = false)
    (hstep : (c.effect index).step = .next) :
    Moves σ index c { c.ran index (c.effect index) with
      pc := c.pending.getD (c.pc + 4), pending := none } := by
  have hfree := Interpreter.stepFreely_of_next hindex hstep
  refine ⟨hindex, ?_, fun _ => hfree, fun hbranch => ?_⟩
  · rw [Interpreter.stepClipped_of_not_hasDelaySlot hindex hi, hfree]
  · rw [hi] at hbranch
    cases hbranch

end HostProgram

/-! ## The marks of a block -/

/-- The branch at `index` is marked as leading to the instruction at `inside`, at `target`. -/
def BlockSource.JumpsTo (source : BlockSource) (index : Nat) (target : UInt32) (inside : Nat) : Prop :=
  ∃ o, source.ops[index]? = some o ∧ o.flags.localBranch = true ∧
    o.instr.branchTarget? (source.pc + index.toUInt32 * 4) = some target ∧
    Interpreter.indexIn? source.pc source.ops.size target = some inside

/-- The instruction at `index` is left to the interpreter. -/
def BlockSource.LeavesAlone (source : BlockSource) (index : Nat) : Prop :=
  ∃ o, source.ops[index]? = some o ∧ (o.flags.emulateBranch = true ∨
    o.instr.hasDelaySlot = true ∧
      ∃ d, source.ops[index + 1]? = some d ∧ d.instr.hasDelaySlot = true)

theorem BlockSource.not_leavesAlone {source : BlockSource} {index : Nat} {o : Op}
    (ho : source.ops[index]? = some o) (hflag : ¬ o.flags.emulateBranch = true)
    (hslot : o.instr.hasDelaySlot = true → ∀ {d}, source.ops[index + 1]? = some d →
      d.instr.hasDelaySlot = false) : ¬ source.LeavesAlone index := by
  rintro ⟨o', ho', h⟩
  cases ho.symm.trans ho'
  rcases h with hmarked | ⟨hi, d, hd, hdi⟩
  · exact hflag hmarked
  · rw [hslot hi hd] at hdi
    cases hdi

/-- The marks of a block are true. For code to be exact, every branch has its delay slot in the
block and is taken when code takes it. -/
structure BlockSource.Faithful (source : BlockSource) (exact : Prop) : Prop where
  size : source.ops.size ≤ 65535
  noDelaySlot : ∀ {index : Nat} {o d : Op}, source.ops[index]? = some o →
    o.flags.noDelaySlot = true → source.ops[index + 1]? = some d → d.instr.isNop = true
  localBranch : ∀ {index : Nat} {o : Op}, source.ops[index]? = some o →
    o.flags.localBranch = true → ∃ target inside, source.JumpsTo index target inside
  slot : exact → ∀ {index : Nat} {o : Op}, source.ops[index]? = some o →
    o.instr.hasDelaySlot = true → index + 1 < source.ops.size
  decided : exact → ∀ {index : Nat} {o : Op}, source.ops[index]? = some o →
    Interpreter.isSelfLez o.instr = false

/-- A marked branch leads where its jump does. -/
theorem BlockSource.Faithful.jumpsTo {source : BlockSource} {exact : Prop}
    (hF : source.Faithful exact) {index : Nat} {o : Op} (ho : source.ops[index]? = some o)
    (hlocal : o.flags.localBranch = true) {target : UInt32}
    (ht : o.instr.branchTarget? (source.pc + index.toUInt32 * 4) = some target) :
    source.JumpsTo index target ((target - source.pc) >>> (2 : UInt32)).toNat := by
  obtain ⟨target', inside, o', ho', hl, ht', hi⟩ := hF.localBranch ho hlocal
  rw [ho] at ho'
  cases ho'
  rw [ht] at ht'
  cases ht'
  refine ⟨o, ho, hl, ht, ?_⟩
  rw [(Interpreter.address_of_indexIn? hi).2.2]
  exact hi

end Dynarec
