/-
  Dynarec.Proofs.Host.Branches

  Branches, and the code of a whole instruction.

  A branch is decided and its return address written in front of the delay
  slot; behind the slot the code leaves or jumps. `lowerOp_ok` puts the pieces
  together: the code of an instruction, a branch with its delay slot included,
  leaves as the interpreter does, or goes on where the interpreter goes on.
-/
import Dynarec.Proofs.Host.Instructions
import Dynarec.Proofs.Host.Path

namespace Dynarec

namespace Interpreter

/-! ## What a branch does -/

open Lowering (linkRegister? linkRegister?_eq decidingCondition? decidingCondition?_eq isRegisterJump
  isRegisterJump_eq)

variable {δ κ : Type} [Device δ] [Coprocessor κ] {i : Instruction}

/-- Branches access no memory and write nothing but the return address. -/
theorem execute_branch (hi : i.hasDelaySlot = true) (m : Machine δ κ) (pc : UInt32) :
    (execute m i pc).access = none ∧
      (execute m i pc).machine =
        match linkRegister? i with
        | some link => m.setReg link (pc + 8)
        | none => m := by
  rw [Instruction.hasDelaySlot_eq] at hi
  rw [execute_eq, linkRegister?_eq]
  unfold executeOperation Operation.linkRegister?
  cases hop : i.operation with
  | jumpRegister | jump | jumpLink => exact ⟨rfl, rfl⟩
  | jumpLinkRegister =>
    refine ⟨rfl, ?_⟩
    dsimp only
    by_cases h0 : i.rd = 0
    · rw [h0, setReg_zero]
      rfl
    · rw [if_pos h0]
  | branch condition link =>
    cases link with
    | false =>
      dsimp only
      split <;> exact ⟨rfl, rfl⟩
    | true =>
      dsimp only
      split <;> exact ⟨rfl, rfl⟩
  | _ =>
    rw [hop] at hi
    cases hi

theorem step_registerJump (hi : i.hasDelaySlot = true) (hj : isRegisterJump i = true)
    (m : Machine δ κ) (pc : UInt32) : (execute m i pc).step = .branch (m.regs.get i.rs) := by
  rw [isRegisterJump_eq hi] at hj
  unfold Operation.isRegisterJump at hj
  rw [execute_eq]
  split at hj
  · rename_i hop
    rw [hop]
    rfl
  · rename_i hop
    rw [hop]
    rfl
  · cases hj

variable {pc target : UInt32}

/-- A branch that has to be decided goes where its condition says. -/
theorem step_decided {condition : Condition} (hi : decidingCondition? i = some condition)
    (ht : i.branchTarget? pc = some target) (m : Machine δ κ) :
    (execute m i pc).step =
      if condition.holds (m.regs.get i.rs) (m.regs.get i.rt) then .branch target else .next := by
  rw [decidingCondition?_eq] at hi
  unfold Operation.decidingCondition? at hi
  split at hi
  · rename_i condition' link hop
    split at hi
    · cases hi
    · cases hi
      simp only [execute_eq, executeOperation, hop, ht, Option.getD_some]
      split <;> rfl
  · cases hi

/-- What is taken for granted of a branch is true, but for one kind of branch. -/
theorem holds_of_isUnconditionalJump {condition : Condition} {link : Bool}
    (hop : i.operation = .branch condition link) (hu : i.isUnconditionalJump = true)
    (hl : isSelfLez i = false) {regs : Registers} (h0 : regs.get 0 = 0) :
    condition.holds (regs.get i.rs) (regs.get i.rt) = true := by
  rw [Instruction.isUnconditionalJump_eq, hop] at hu
  unfold Operation.isUnconditionalJump at hu
  cases condition with
  | eq =>
    have hr : i.rs = i.rt := by simpa using hu
    rw [hr]
    simp [Condition.holds]
  | lez =>
    have hr : i.rs = i.rt := by simpa using hu
    have hz : i.rs = 0 := by simpa [isSelfLez, hop, hr] using hl
    rw [hz, h0]
    simp only [Condition.holds]
    decide
  | gez =>
    have hz : i.rs = 0 := by simpa using hu
    rw [hz, h0]
    simp only [Condition.holds]
    decide
  | ne | gtz | ltz => cases hu

section

variable (hi : i.hasDelaySlot = true)
include hi

/-- A branch that is no register jump says where it leads. -/
theorem direct_cases (hj : isRegisterJump i = false) :
    i.operation = .jump ∨ i.operation = .jumpLink ∨
      ∃ condition link, i.operation = .branch condition link := by
  rw [isRegisterJump_eq hi] at hj
  rw [Instruction.hasDelaySlot_eq] at hi
  cases hop : i.operation with
  | jump => exact .inl rfl
  | jumpLink => exact .inr (.inl rfl)
  | branch condition link => exact .inr (.inr ⟨condition, link, rfl⟩)
  | jumpRegister | jumpLinkRegister =>
    rw [hop] at hj
    cases hj
  | _ =>
    rw [hop] at hi
    cases hi

theorem branchTarget?_isSome (hj : isRegisterJump i = false)
    (pc : UInt32) : ∃ target, i.branchTarget? pc = some target := by
  rw [Instruction.branchTarget?_eq]
  obtain hop | hop | ⟨condition, link, hop⟩ := direct_cases hi hj
  all_goals
    rw [hop]
    exact ⟨_, rfl⟩

/-- A branch that need not be decided is taken. -/
theorem step_undecided (hj : isRegisterJump i = false) (hd : decidingCondition? i = none)
    (hl : isSelfLez i = false) (ht : i.branchTarget? pc = some target) {m : Machine δ κ}
    (h0 : m.regs.get 0 = 0) :
    (execute m i pc).step = .branch target := by
  obtain hop | hop | ⟨condition, link, hop⟩ := direct_cases hi hj
  · simp only [execute_eq, executeOperation, hop, ht, Option.getD_some]
  · simp only [execute_eq, executeOperation, hop, ht, Option.getD_some]
  · rw [decidingCondition?_eq, hop, Operation.decidingCondition?] at hd
    have hu : i.isUnconditionalJump = true := by
      rw [Instruction.isUnconditionalJump_eq, hop]
      simpa using hd
    simp only [execute_eq, executeOperation, hop, ht, Option.getD_some,
      holds_of_isUnconditionalJump hop hu hl h0, if_true]

/-- A branch that is no register jump goes to its target or on. -/
theorem step_direct (hj : isRegisterJump i = false) (ht : i.branchTarget? pc = some target)
    (m : Machine δ κ) :
    (execute m i pc).step = .branch target ∨ (execute m i pc).step = .next := by
  obtain hop | hop | ⟨condition, link, hop⟩ := direct_cases hi hj
  · exact .inl (by simp only [execute_eq, executeOperation, hop, ht, Option.getD_some])
  · exact .inl (by simp only [execute_eq, executeOperation, hop, ht, Option.getD_some])
  · simp only [execute_eq, executeOperation, hop, ht, Option.getD_some]
    split
    · exact .inl rfl
    · exact .inr rfl

/-- What need not be decided is taken for granted, and the other way round. -/
theorem isUnconditionalJump_eq (hj : isRegisterJump i = false) :
    i.isUnconditionalJump = (decidingCondition? i).isNone := by
  rw [Instruction.isUnconditionalJump_eq, decidingCondition?_eq]
  obtain hop | hop | ⟨condition, link, hop⟩ := direct_cases hi hj
  · rw [hop]
    rfl
  · rw [hop]
    rfl
  · rw [hop, Operation.decidingCondition?]
    cases (Operation.branch condition link).isUnconditionalJump i with
    | true => rfl
    | false => rfl

end

/-- Code steps as the interpreter does where a branch has its delay slot in the block and what is
taken for granted of it is true. -/
theorem stepClipped_eq_stepFreely {base : UInt32} {c : Cursor δ κ} {index : Nat}
    (hindex : indexIn? base c.ops.size c.pc = some index)
    (hslot : (c.ops.getD index default).instr.hasDelaySlot = true → index + 1 < c.ops.size)
    (hself : isSelfLez (c.ops.getD index default).instr = false) (hzero : c.machine.regs.get 0 = 0) :
    stepClipped base c = stepFreely base c := by
  cases hi : (c.ops.getD index default).instr.hasDelaySlot with
  | false => exact stepClipped_of_not_hasDelaySlot hindex hi
  | true =>
    -- Only a branch that is not in a delay slot itself is looked at more closely.
    cases hpending : c.pending with
    | some target =>
      rw [stepClipped, hindex]
      dsimp only
      rw [hi, hpending]
      rfl
    | none =>
      rw [stepClipped_of_hasDelaySlot hindex hi hpending, if_pos (hslot hi)]
      cases hj : isRegisterJump (c.ops.getD index default).instr with
      | true =>
        have hstep : (c.effect index).step = .branch _ := step_registerJump hi hj _ _
        rw [stepFreely_of_branch hindex hstep, hpending, Cursor.departure?, hstep]
        rfl
      | false =>
        obtain ⟨target, ht⟩ := branchTarget?_isSome hi hj c.pc
        rcases step_direct hi hj ht (c.machine.tick cyclesPerOp) with hstep | hstep
        · change (c.effect index).step = _ at hstep
          rw [stepFreely_of_branch hindex hstep, hpending, Cursor.departure?, hstep]
          rfl
        · -- a branch that is not taken was not taken for granted
          have hdecided : decidingCondition? (c.ops.getD index default).instr ≠ none := by
            intro hd
            rw [step_undecided hi hj hd hself ht (m := c.machine.tick cyclesPerOp) hzero] at hstep
            cases hstep
          have hcondition : (c.ops.getD index default).instr.isUnconditionalJump = false := by
            rw [isUnconditionalJump_eq hi hj]
            cases hd : decidingCondition? (c.ops.getD index default).instr with
            | none => exact absurd hd hdecided
            | some condition => rfl
          change (c.effect index).step = _ at hstep
          rw [stepFreely_of_next hindex hstep, hpending, Cursor.departure?, hstep]
          dsimp only
          rw [hcondition]
          rfl

end Interpreter

namespace Lowering

open HostProgram
open Interpreter (Cursor)

variable {δ κ : Type} [Device δ] [Coprocessor κ] {σ : Site δ κ} {s s' s'' : Lowering}
  {i : Instruction} {index : Nat} {o : Op} {addr : UInt32}

/-! ## In front of the delay slot -/

/-- The frame remembers how branch `i` was decided when the registers were `regs`. -/
structure Latched (i : Instruction) (regs : Registers) (f : Frame δ κ) : Prop where
  target : isRegisterJump i = true → f.target = regs.get i.rs
  condition : ∀ {condition : Condition}, decidingCondition? i = some condition →
    f.condition = condition.holds (regs.get i.rs) (regs.get i.rt)

theorem not_isRegisterJump_of_decidingCondition? {condition : Condition}
    (h : decidingCondition? i = some condition) : isRegisterJump i = false := by
  cases hj : isRegisterJump i with
  | false => rfl
  | true =>
    rw [decidingCondition?, hj, Bool.true_or, if_pos rfl] at h
    cases h

/-- From `s` to `s'` a branch was decided. -/
def Latches (σ : Site δ κ) (s s' : Lowering) (i : Instruction) : Prop :=
  ∃ ops, s.Extends s' ops ∧ ∀ {f : Frame δ κ} {c : Cursor δ κ},
    Stands σ s.cache s.cycles f c →
      ∃ f', runLine σ.source.pc ops f = .running f' ∧ Stands σ s'.cache s'.cycles f' c ∧
        Latched i c.machine.regs f'

/-- Deciding a branch takes one operation behind its operands. -/
theorem Reading.latches {operands : List (HostReg × Reg)} (hr : Reading σ s s' operands)
    {op : HostOp} (hs : op.IsStraight) {φ : Cells 8 UInt32 → Bool → Bool}
    {ψ : Cells 8 UInt32 → UInt32 → UInt32}
    (hop : ∀ f : Frame δ κ, perform σ.source.pc f op =
      { f with condition := φ f.host f.condition, target := ψ f.host f.target }.goOn)
    (hl : ∀ {f : Frame δ κ} {m : Machine δ κ}, (∀ k ∈ operands, f.host[k.1] = m.regs.get k.2) →
      Latched i m.regs { f with condition := φ f.host f.condition, target := ψ f.host f.target }) :
    Latches σ s { s' with program := s'.program.push op } i := by
  obtain ⟨ops, he, hrun⟩ := hr.line
  refine ⟨ops ++ [op], he.trans (Extends.push hs hr.wellFormed), ?_⟩
  intro f c hst
  obtain ⟨f1, hr1, hst1, hval, -⟩ := hrun hst
  refine ⟨_, (runLine_append_of_running hr1 _).trans (runLine_cons_of_running (hop f1) []),
    hst1.withControl _ _ _, ?_⟩
  have h := hl hval
  exact ⟨h.target, h.condition⟩

variable {u : Unit}

theorem latch_ok (σ : Site δ κ) (hw : s.cache.WellFormed) (h : latch i s = .ok u s') :
    Latches σ s s' i := by
  unfold latch at h
  split at h
  · -- a register jump remembers where it leads
    rename_i hj
    obtain ⟨src, s1, h1, h2⟩ := bind_ok h
    cases h2
    refine ((reading_nil σ hw).read i.isOwn_rs h1).latches (by trivial)
      (φ := fun _ condition => condition) (ψ := fun host _ => host[src]) (fun _ => rfl) ?_
    intro f m hval
    refine ⟨fun _ => hval (src, i.rs) (by simp), fun hd => ?_⟩
    rw [not_isRegisterJump_of_decidingCondition? hd] at hj
    cases hj
  · rename_i hj
    cases hd : decidingCondition? i with
    | some condition =>
      -- a branch remembers whether it is taken
      rw [hd] at h
      obtain ⟨a, s1, h1, h⟩ := bind_ok h
      obtain ⟨b, s2, h2, h3⟩ := bind_ok h
      cases h3
      refine (((reading_nil σ hw).read i.isOwn_rs h1).read i.isOwn_rt h2).latches (by trivial)
        (φ := fun host _ => condition.holds host[a] host[b]) (ψ := fun _ target => target)
        (fun _ => rfl) ?_
      intro f m hval
      refine ⟨fun hj' => absurd hj' hj, ?_⟩
      intro condition' hd'
      rw [hd] at hd'
      cases hd'
      dsimp only
      rw [hval (a, i.rs) (by simp), hval (b, i.rt) (by simp)]
    | none =>
      rw [hd] at h
      cases h
      refine ⟨[], Extends.refl hw, fun hst => ⟨_, rfl, hst, fun hj' => absurd hj' hj, ?_⟩⟩
      intro condition hd'
      rw [hd] at hd'
      cases hd'

theorem isOwn_linkRegister? {link : Reg} (h : linkRegister? i = some link) :
    link.IsOwn ∧ link ≠ 0 := by
  have hra {link : Reg} (h : some Reg.ra = some link) : link.IsOwn ∧ link ≠ 0 := by
    cases h
    exact ⟨Reg.isOwn_ra, by decide⟩
  unfold linkRegister? at h
  split at h
  · exact hra h
  · split at h
    · split at h
      · rename_i h0
        cases h
        exact ⟨i.isOwn_rd, h0⟩
      · cases h
    · split at h
      · exact hra h
      · cases h

/-- The return address is written. -/
theorem lowerLink_ok (σ : Site δ κ) (hw : s.cache.WellFormed) (h : lowerLink i addr s = .ok u s') :
    Realizes σ s s' fun m =>
      match linkRegister? i with
      | some link => m.setReg link (addr + 8)
      | none => m := by
  unfold lowerLink at h
  cases hl : linkRegister? i with
  | some link =>
    rw [hl] at h
    obtain ⟨hown, h0⟩ := isOwn_linkRegister? hl
    exact const_ok σ hown h0 hw h
  | none =>
    rw [hl] at h
    cases h
    exact realizes_refl σ hw

/-- From `s` to `s'` branch `i` at `addr` was run up to its delay slot. -/
def Prepares (σ : Site δ κ) (s s' : Lowering) (i : Instruction) (addr : UInt32) : Prop :=
  ∃ ops, s.Extends s' ops ∧ ∀ {f : Frame δ κ} {c : Cursor δ κ},
    Stands σ s.cache s.cycles f c →
      ∃ f', runLine σ.source.pc ops f = .running f' ∧
        Stands σ s'.cache s'.cycles f'
          { c with machine := (Interpreter.execute (c.machine.tick cyclesPerOp) i addr).machine } ∧
        Latched i c.machine.regs f'

theorem prepares_of_ok (σ : Site δ κ) (hi : i.hasDelaySlot = true) {u v w x : Unit}
    {s0 s1 s2 s3 s4 : Lowering} (hw : s0.cache.WellFormed)
    (hcharge : charge cyclesPerOp s0 = .ok u s1) (hlatch : latch i s1 = .ok v s2)
    (hlink : lowerLink i addr s2 = .ok w s3) (hrelease : releaseLocks s3 = .ok x s4) :
    Prepares σ s0 s4 i addr := by
  obtain ⟨ops1, he1, hrun1⟩ := charge_ok σ hw hcharge
  obtain ⟨ops2, he2, hrun2⟩ := latch_ok σ he1.wellFormed hlatch
  obtain ⟨ops3, he3, hrun3⟩ :=
    (lowerLink_ok σ he2.wellFormed hlink).trans
      (releaseLocks_ok σ (lowerLink_ok σ he2.wellFormed hlink).wellFormed hrelease).1
  refine ⟨ops1 ++ (ops2 ++ ops3), he1.trans (he2.trans he3), ?_⟩
  intro f c hst
  obtain ⟨f1, hr1, hst1, -⟩ := hrun1 hst
  obtain ⟨f2, hr2, hst2, hl⟩ := hrun2 hst1
  obtain ⟨f3, hr3, hst3, hcond, htar⟩ := hrun3 hst2
  refine ⟨f3, ?_, ?_, fun hj => htar.trans (hl.target hj), fun hd => hcond.trans (hl.condition hd)⟩
  · rw [runLine_append_of_running hr1, runLine_append_of_running hr2, hr3]
  · rw [(Interpreter.execute_branch hi _ _).2]
    exact hst3

/-! ## The delay slot -/

/-- The code of a delay slot does what the interpreter does for it; for one without effect there
is none. -/
theorem lowerSlot_ok (hw : s.cache.WellFormed) {d : Op} (hd : σ.source.ops[index]? = some d)
    (hidx : index < 65536) (hslot : d.instr.hasDelaySlot = false) (haddr : addr = σ.address index)
    (hnop : o.flags.noDelaySlot = true → d.instr.isNop = true)
    (h : lowerSlot index o d addr s = .ok u s') :
    Executes σ s s' (·.tick cyclesPerOp) index d.instr addr := by
  obtain ⟨_, s1, h1, h2⟩ := bind_ok h
  have hcharge := charge_ok σ hw h1
  split at h2
  · rename_i hflag
    cases h2
    exact hcharge.executes fun m => Interpreter.execute_of_isNop (hnop hflag) _ _
  · obtain ⟨_, s2, h2, h3⟩ := bind_ok h2
    have hsimple := lowerSimple_ok hcharge.wellFormed hd (fun _ _ => hidx) hslot haddr h2
    exact (hcharge.thenExecutes hsimple).thenRealizes
      (releaseLocks_ok σ hsimple.wellFormed h3).1

/-! ## Behind the delay slot -/

/-- A jump inside the block at the end of the code of a branch. -/
structure LocalJump where
  conditional : Bool
  target : UInt32
  /-- The instruction it leads to. -/
  inside : Nat

namespace LocalJump

/-- The operation, before its place is known. -/
def op (j : LocalJump) : HostOp := if j.conditional then .jumpIf 0 j.target else .jump 0 j.target

/-- Where code with this jump at its end goes on. -/
def follow (jump : Option LocalJump) (behind : UInt32) (condition : Bool) : UInt32 :=
  match jump with
  | some j => if j.conditional && !condition then behind else j.target
  | none => behind

end LocalJump

/-- From `s` to `s'` the generator appended straight operations and perhaps a jump, for the
instruction at `index`. -/
structure Segment (σ : Site δ κ) (s s' : Lowering) (index : Nat) (ops : List HostOp)
    (jump : Option LocalJump) : Prop where
  program : s'.program.toList = s.program.toList ++ (ops ++ (jump.map LocalJump.op).toList)
  labels : s'.labels = s.labels
  fixups : s'.fixups.toList = s.fixups.toList ++
    (jump.map fun j => (s.program.size + ops.length, j.inside)).toList
  straight : ∀ op ∈ ops, op.IsStraight
  wellFormed : s'.cache.WellFormed
  jumps : ∀ {j : LocalJump}, jump = some j →
    s'.cycles = 0 ∧ s'.cache.Empty ∧ σ.source.JumpsTo index j.target j.inside

omit [Device δ] [Coprocessor κ] in
theorem Extends.segment {ops : List HostOp} (h : s.Extends s' ops) :
    Segment σ s s' index ops none where
  program := by simpa using h.program
  labels := h.labels
  fixups := by simp [h.fixups]
  straight := h.straight
  wellFormed := h.wellFormed
  jumps := nofun

omit [Device δ] [Coprocessor κ] in
theorem Extends.thenSegment {ops ops' : List HostOp} {jump : Option LocalJump}
    (h1 : s.Extends s' ops) (h2 : Segment σ s' s'' index ops' jump) :
    Segment σ s s'' index (ops ++ ops') jump where
  program := by rw [h2.program, h1.program, List.append_assoc, List.append_assoc]
  labels := h2.labels.trans h1.labels
  fixups := by
    have hsize : s'.program.size = s.program.size + ops.length := by
      rw [← Array.length_toList, h1.program, List.length_append, Array.length_toList]
    rw [h2.fixups, h1.fixups, hsize, List.length_append, Nat.add_assoc]
  straight := by
    intro op hop
    rcases List.mem_append.mp hop with hop | hop
    · exact h1.straight op hop
    · exact h2.straight op hop
  wellFormed := h2.wellFormed
  jumps := h2.jumps

/-- Where branch `i` at `addr` leads if it is taken, by what a frame remembers. -/
def departure? (i : Instruction) (addr : UInt32) (f : Frame δ κ) : Option UInt32 :=
  if isRegisterJump i then some f.target
  else if (decidingCondition? i).isSome && !f.condition then none
  else i.branchTarget? addr

/-- Code up to `s'`, with `jump` at its end, was left at the address of the cursor or goes on
there. -/
inductive Resumes (σ : Site δ κ) (s' : Lowering) (jump : Option LocalJump) (behind : UInt32) :
    Progress (Frame δ κ) (Returned δ κ) → Cursor δ κ → Prop
  | leaves {r : Returned δ κ} {c : Cursor δ κ} (hend : Ends σ r c c.pc) :
      Resumes σ s' jump behind (.finished r) c
  | goesOn {f : Frame δ κ} {c : Cursor δ κ} (hst : Stands σ s'.cache s'.cycles f c)
      (hpc : c.pc = LocalJump.follow jump behind f.condition) :
      Resumes σ s' jump behind (.running f) c

/-- Code that leaves for wherever the branch leads. -/
theorem Leaves.resumes {next : UInt32 → UInt32} (h : Leaves σ s s' id next)
    (hnext : ∀ (f : Frame δ κ) (behind : UInt32),
      (departure? o.instr (σ.address index) f).getD behind = next f.target) :
    ∃ ops jump, Segment σ s s' index ops jump ∧
      ∀ {f : Frame δ κ} {c : Cursor δ κ} {behind : UInt32}, Stands σ s.cache s.cycles f c →
        c.pc = (departure? o.instr (σ.address index) f).getD behind →
        Resumes σ s' jump behind (runLine σ.source.pc ops f) c := by
  obtain ⟨ops, he, hrun⟩ := h
  refine ⟨ops, none, he.segment, ?_⟩
  intro f c behind hst hpc
  obtain ⟨r, hr, hend⟩ := hrun hst
  rw [hnext] at hpc
  rw [hr]
  exact .leaves (hpc ▸ hend)

variable {c : Cursor δ κ} {f : Frame δ κ}

/-- The operation that leaves if the condition holds, with everything charged and written back. -/
theorem resumes_exitIf {behind target : UInt32} (hst : Stands σ s.cache s.cycles f c)
    (hw : s.cache.WellFormed) (hlag : s.cycles = 0) (hempty : s.cache.Empty)
    (hpc : c.pc = if !f.condition then behind else target) :
    Resumes σ s none behind (runLine σ.source.pc [.exitIf target] f) c := by
  cases hf : f.condition with
  | true =>
    rw [hlag] at hst
    obtain ⟨r, hr, hend⟩ := hst.ends (hempty.clean hw) target
    rw [hf] at hpc
    have hpc : c.pc = target := hpc
    have hperform : perform σ.source.pc f (.exitIf target) = .finished r := by
      rw [perform, if_pos hf, hr]
    rw [runLine_cons_of_finished hperform]
    exact .leaves (hpc.symm ▸ hend)
  | false =>
    rw [hf] at hpc
    have hperform : perform σ.source.pc f (.exitIf target) = f.goOn := by
      rw [perform, if_neg (by simp [hf])]
    rw [runLine_cons_of_running hperform]
    exact .goesOn (hst.withControl _ _ _) hpc

/-- The code at the end of a branch leaves for where the branch leads, or goes on there. -/
theorem lowerJump_ok (hF : σ.source.Faithful σ.exact) (ho : σ.source.ops[index]? = some o)
    (hw : s.cache.WellFormed) (h : lowerJump σ.source o (σ.address index) s = .ok u s') :
    ∃ ops jump, Segment σ s s' index ops jump ∧
      ∀ {f : Frame δ κ} {c : Cursor δ κ} {behind : UInt32}, Stands σ s.cache s.cycles f c →
        c.pc = (departure? o.instr (σ.address index) f).getD behind →
        Resumes σ s' jump behind (runLine σ.source.pc ops f) c := by
  unfold lowerJump at h
  split at h
  · -- the target is in a register
    rename_i hj
    refine (exitWith_ok σ (fun t => t) (by trivial) (fun _ => rfl) hw h).1.resumes fun f behind => ?_
    rw [departure?, if_pos hj, Option.getD_some]
  · rename_i hj
    cases ht : o.instr.branchTarget? (σ.address index) with
    | none =>
      rw [ht] at h
      cases h
    | some target =>
      rw [ht] at h
      obtain ⟨_, s1, h1, h⟩ := bind_ok h
      obtain ⟨_, s2, h2, h⟩ := bind_ok h
      obtain ⟨hr1, hc1, -⟩ := flushCycles_ok σ hw h1
      obtain ⟨hr2, hc2, hempty⟩ := unloadAll_ok σ hr1.wellFormed h2
      have hlag : s2.cycles = 0 := hc2.trans hc1
      have hw2 := hr2.wellFormed
      have hdest : ∀ (f : Frame δ κ) (behind : UInt32),
          (departure? o.instr (σ.address index) f).getD behind =
            if (decidingCondition? o.instr).isSome && !f.condition then behind else target := by
        intro f behind
        rw [departure?, if_neg hj, ht]
        split <;> rfl
      split at h
      · -- a jump inside the block
        rename_i hlocal
        obtain ⟨ops, he, hrun⟩ := hr1.trans hr2
        cases h
        refine ⟨ops, some {
            conditional := (decidingCondition? o.instr).isSome
            target := target
            inside := ((target - σ.source.pc) >>> (2 : UInt32)).toNat },
          ⟨?_, he.labels, ?_, he.straight, hw2, ?_⟩, ?_⟩
        · simp [he.program, LocalJump.op]
        · have hsize : s2.program.size = s.program.size + ops.length := by
            rw [← Array.length_toList, he.program, List.length_append, Array.length_toList]
          simp [he.fixups, hsize]
        · intro j hj'
          cases hj'
          exact ⟨hlag, hempty, hF.jumpsTo ho hlocal ht⟩
        · intro f c behind hst hpc
          obtain ⟨f', hr, hst', hcond, -⟩ := hrun hst
          rw [hr]
          refine .goesOn hst' ?_
          rw [hpc, hdest, hcond]
          rfl
      · cases hd : (decidingCondition? o.instr).isSome with
        | true =>
          -- out of the block if the condition holds
          obtain ⟨ops, he, hrun⟩ := hr1.trans hr2
          rw [hd] at h hdest
          cases h
          refine ⟨ops ++ [.exitIf target], none,
            (he.trans (Extends.push (by trivial) hw2)).segment, ?_⟩
          intro f c behind hst hpc
          obtain ⟨f', hr, hst', hcond, -⟩ := hrun hst
          rw [runLine_append_of_running hr]
          rw [hdest, Bool.true_and, ← hcond] at hpc
          exact resumes_exitIf (s := { s2 with program := _ }) hst' hw2 hlag hempty hpc
        | false =>
          -- out of the block in any case
          rw [hd] at h hdest
          cases h
          exact ((hr1.trans hr2).leaves (emit_leaves σ (.exit target) (fun _ => target)
            (by trivial) (fun _ => rfl) hw2 hlag hempty)).resumes hdest

/-- Code up to `s'`, with `jump` at its end, does what the instruction at `index` does, for a
branch together with its delay slot; behind it stands the code of instruction `next`. -/
inductive Carries (σ : Site δ κ) (s' : Lowering) (jump : Option LocalJump) (index next : Nat) :
    Progress (Frame δ κ) (Returned δ κ) → Cursor δ κ → Prop
  | leaves {path : List Nat} {r : Returned δ κ} {c : Cursor δ κ} (hreach : Reaches σ path c r)
      (hpath : path <+: [index, index + 1]) (halone : path = [] ↔ σ.source.LeavesAlone index) :
      Carries σ s' jump index next (.finished r) c
  | goesOn {path : List Nat} {f : Frame δ κ} {c c' : Cursor δ κ} (hrun : Path σ path c c')
      (hpath : path <+: [index, index + 1]) (hne : path ≠ [])
      (hbusy : ¬ σ.source.LeavesAlone index) (hst : Stands σ s'.cache s'.cycles f c')
      (hpending : c'.pending = none)
      (hpc : c'.pc = LocalJump.follow jump (σ.address next) f.condition)
      (hnext : next ≤ σ.source.ops.size) :
      Carries σ s' jump index next (.running f) c

theorem Resumes.carries {jump : Option LocalJump} {next : Nat} {path : List Nat} {c c' : Cursor δ κ}
    {out : Progress (Frame δ κ) (Returned δ κ)} (h : Resumes σ s' jump (σ.address next) out c')
    (hrun : Path σ path c c') (hpath : path <+: [index, index + 1]) (hne : path ≠ [])
    (hbusy : ¬ σ.source.LeavesAlone index) (hpending : c'.pending = none)
    (hnext : next ≤ σ.source.ops.size) : Carries σ s' jump index next out c := by
  cases h with
  | leaves hend =>
    exact .leaves (.arrives hrun hpending hend) hpath (iff_of_false hne hbusy)
  | goesOn hst hpc => exact .goesOn hrun hpath hne hbusy hst hpending hpc hnext

/-- An instruction left to the interpreter. -/
theorem Leaves.carries (h : Leaves σ s s' id fun _ => σ.address index)
    (halone : σ.source.LeavesAlone index) (next : Nat) :
    ∃ ops jump, Segment σ s s' index ops jump ∧
      ∀ {f c}, Stands σ s.cache s.cycles f c →
        c.pc = σ.address index → c.pending = none →
        Carries σ s' jump index next (runLine σ.source.pc ops f) c := by
  obtain ⟨ops, he, hrun⟩ := h
  refine ⟨ops, none, he.segment, ?_⟩
  intro f c hst hpc hpending
  obtain ⟨r, hr, hend⟩ := hrun hst
  rw [← hpc] at hend
  rw [hr]
  have hrun' : Path σ [] c c := rfl
  exact .leaves (.arrives hrun' hpending hend) List.nil_prefix (iff_of_true rfl halone)

/-- An instruction that is no branch. -/
theorem Executes.carries (hsize : σ.source.ops.size ≤ 65535) (ho : σ.source.ops[index]? = some o)
    (hi : o.instr.hasDelaySlot = false) (hbusy : ¬ σ.source.LeavesAlone index)
    (h : Executes σ s s' (·.tick cyclesPerOp) index o.instr (σ.address index)) :
    ∃ ops jump, Segment σ s s' index ops jump ∧
      ∀ {f c}, Stands σ s.cache s.cycles f c →
        c.pc = σ.address index → c.pending = none →
        Carries σ s' jump index (index + 1) (runLine σ.source.pc ops f) c := by
  have hlt : index < σ.source.ops.size := (Array.getElem?_eq_some_iff.mp ho).1
  obtain ⟨ops, he, hrun⟩ := h
  refine ⟨ops, none, he.segment, ?_⟩
  intro f c hst hpc hpending
  have hindex := σ.indexIn?_address hst.retags hsize hlt
  rw [← hpc] at hindex
  have heff := Site.effect hst.retags ho
  have hplain : (c.ops.getD index default).instr.hasDelaySlot = false := by
    rw [hst.retags.instr, Array.getD_eq_getD_getElem?, ho, Option.getD_some]
    exact hi
  have hexec := hrun hst
  rw [← hpc] at hexec
  dsimp only at hexec
  rw [show Interpreter.execute (c.machine.tick cyclesPerOp) o.instr c.pc = c.effect index from
    heff.symm] at hexec
  cases hstep : (c.effect index).step with
  | next =>
    rw [hstep] at hexec
    obtain ⟨f', hr, hst', -⟩ := hexec
    rw [hr]
    have hrun' : Path σ [index] c _ := ⟨_, moves_next hindex hplain hstep, rfl⟩
    refine .goesOn hrun' ⟨[index + 1], rfl⟩ (by simp) hbusy (hst'.withCursorControl _ _) rfl ?_ hlt
    rw [hpending, hpc]
    exact Interpreter.address_succ _ _
  | exit next =>
    rw [hstep] at hexec
    obtain ⟨r, hr, hend⟩ := hexec
    rw [hr]
    -- it leaves the block in place of going on
    have hrun' : Path σ [] c c := rfl
    exact .leaves (.exits hrun' hindex hstep hend) ⟨[index + 1], rfl⟩
      (iff_of_false (by simp) hbusy)
  | branch target =>
    rw [hstep] at hexec
    exact hexec.elim

/-- What a frame remembers of a branch is where code takes it. -/
theorem Latched.departure?_eq (hl : Latched i c.machine.regs f)
    (hinstr : (c.ops.getD index default).instr = i) (hi : i.hasDelaySlot = true) :
    departure? i c.pc f = c.departure? index := by
  have heff : c.effect index = Interpreter.execute (c.machine.tick cyclesPerOp) i c.pc := by
    rw [Cursor.effect, hinstr]
    rfl
  unfold departure? Cursor.departure?
  dsimp only
  rw [heff, hinstr]
  cases hj : isRegisterJump i with
  | true =>
    rw [if_pos rfl, Interpreter.step_registerJump hi hj, hl.target hj]
    rfl
  | false =>
    rw [if_neg Bool.false_ne_true]
    obtain ⟨target, ht⟩ := Interpreter.branchTarget?_isSome hi hj c.pc
    rw [Interpreter.isUnconditionalJump_eq hi hj, ht]
    cases hd : decidingCondition? i with
    | some condition =>
      rw [Interpreter.step_decided hd ht, hl.condition hd,
        show (c.machine.tick cyclesPerOp).regs = c.machine.regs from rfl]
      cases condition.holds (c.machine.regs.get i.rs) (c.machine.regs.get i.rt) <;> rfl
    | none =>
      -- taken for granted, so that it does not matter what the interpreter does
      rcases Interpreter.step_direct hi hj ht (c.machine.tick cyclesPerOp) with hstep | hstep
      · rw [hstep]
        rfl
      · rw [hstep]
        rfl

/-- The step of a branch, on the way that a frame remembers. -/
theorem Latched.stepClipped (hsize : σ.source.ops.size ≤ 65535) (ho : σ.source.ops[index]? = some o)
    (hi : o.instr.hasDelaySlot = true) (hr : Retags σ.source.ops c.ops)
    (hpc : c.pc = σ.address index) (hpending : c.pending = none)
    (hl : Latched o.instr c.machine.regs f) :
    Interpreter.indexIn? σ.source.pc c.ops.size c.pc = some index ∧
    (c.ops.getD index default).instr = o.instr ∧
    Interpreter.stepClipped σ.source.pc c = .running { c with
      machine := (Interpreter.execute (c.machine.tick cyclesPerOp) o.instr (σ.address index)).machine
      pc :=
        if index + 1 < σ.source.ops.size then σ.address (index + 1)
        else (departure? o.instr (σ.address index) f).getD (σ.address (index + 1))
      pending :=
        if index + 1 < σ.source.ops.size then departure? o.instr (σ.address index) f else none } := by
  have hlt : index < σ.source.ops.size := (Array.getElem?_eq_some_iff.mp ho).1
  have hindex := σ.indexIn?_address hr hsize hlt
  rw [← hpc] at hindex
  have hinstr : (c.ops.getD index default).instr = o.instr := by
    rw [hr.instr, Array.getD_eq_getD_getElem?, ho, Option.getD_some]
  have heff : c.effect index =
      Interpreter.execute (c.machine.tick cyclesPerOp) o.instr (σ.address index) := by
    rw [Site.effect hr ho, hpc]
    rfl
  -- branches access no memory, so there is nothing to tag
  have hran : c.ran index (c.effect index) = { c with machine := (c.effect index).machine } := by
    rw [Cursor.ran, heff, (Interpreter.execute_branch hi _ _).1]
    rfl
  have hnext : c.pc + 4 = σ.address (index + 1) := by
    rw [hpc]
    exact Interpreter.address_succ _ _
  refine ⟨hindex, hinstr, ?_⟩
  rw [Interpreter.stepClipped_of_hasDelaySlot hindex (hinstr ▸ hi) hpending, hran,
    ← hl.departure?_eq hinstr hi, hnext, hpc, heff, hr.size]
  split <;> rfl

/-- The move of a branch with its delay slot behind it. -/
theorem Latched.moves (hF : σ.source.Faithful σ.exact) (ho : σ.source.ops[index]? = some o)
    (hi : o.instr.hasDelaySlot = true) (hslot : index + 1 < σ.source.ops.size)
    (hr : Retags σ.source.ops c.ops) (hzero : σ.exact → c.machine.regs.get 0 = 0)
    (hpc : c.pc = σ.address index) (hpending : c.pending = none)
    (hl : Latched o.instr c.machine.regs f) :
    Moves σ index c { c with
      machine := (Interpreter.execute (c.machine.tick cyclesPerOp) o.instr (σ.address index)).machine
      pc := σ.address (index + 1)
      pending := departure? o.instr (σ.address index) f } := by
  obtain ⟨hindex, hinstr, hclipped⟩ := hl.stepClipped hF.size ho hi hr hpc hpending
  rw [if_pos hslot, if_pos hslot] at hclipped
  refine ⟨hindex, hclipped, fun hx => ?_, fun _ => hpending⟩
  -- where code has to be exact, nothing is taken for granted that need not be true
  rw [← hclipped, Interpreter.stepClipped_eq_stepFreely hindex (fun _ => hr.size ▸ hslot)
    (hinstr ▸ hF.decided hx ho) (hzero hx)]

/-- A branch with its delay slot. -/
theorem Prepares.carries (hF : σ.source.Faithful σ.exact) (ho : σ.source.ops[index]? = some o)
    (hi : o.instr.hasDelaySlot = true) (hbusy : ¬ σ.source.LeavesAlone index)
    (h1 : Prepares σ s s' o.instr (σ.address index)) {d : Op}
    (hd : σ.source.ops[index + 1]? = some d) (hdi : d.instr.hasDelaySlot = false) {s1 s2 : Lowering}
    (h2 : Executes σ s' s1 (·.tick cyclesPerOp) (index + 1) d.instr (σ.address (index + 1)))
    (h3 : lowerJump σ.source o (σ.address index) s1 = .ok u s2) :
    ∃ ops jump, Segment σ s s2 index ops jump ∧
      ∀ {f c}, Stands σ s.cache s.cycles f c →
        c.pc = σ.address index → c.pending = none →
        Carries σ s2 jump index (index + 2) (runLine σ.source.pc ops f) c := by
  have hlt : index + 1 < σ.source.ops.size := (Array.getElem?_eq_some_iff.mp hd).1
  obtain ⟨ops1, he1, hrun1⟩ := h1
  obtain ⟨ops2, he2, hrun2⟩ := h2
  obtain ⟨ops3, jump, hseg, hrun3⟩ := lowerJump_ok hF ho he2.wellFormed h3
  refine ⟨ops1 ++ (ops2 ++ ops3), jump, he1.thenSegment (he2.thenSegment hseg), ?_⟩
  intro f c hst hpc hpending
  obtain ⟨f1, hr1, hst1, hl⟩ := hrun1 hst
  rw [runLine_append_of_running hr1]
  have hmove := hl.moves hF ho hi hlt hst.retags hst.zero hpc hpending
  -- the cursor with the delay slot in front of it
  generalize hc1 : { c with
    machine := (Interpreter.execute (c.machine.tick cyclesPerOp) o.instr (σ.address index)).machine
    pc := σ.address (index + 1)
    pending := departure? o.instr (σ.address index) f1 } = c1 at hmove
  have hst1 : Stands σ s'.cache s'.cycles f1 c1 := hc1 ▸ hst1.withCursorControl _ _
  have hpc1 : c1.pc = σ.address (index + 1) := hc1 ▸ rfl
  have hpending1 : c1.pending = departure? o.instr (σ.address index) f1 := hc1 ▸ rfl
  have hindex := σ.indexIn?_address hst1.retags hF.size hlt
  rw [← hpc1] at hindex
  have heff : Interpreter.execute (c1.machine.tick cyclesPerOp) d.instr c1.pc =
      c1.effect (index + 1) := (Site.effect hst1.retags hd).symm
  have hplain : (c1.ops.getD (index + 1) default).instr.hasDelaySlot = false := by
    rw [hst1.retags.instr, Array.getD_eq_getD_getElem?, hd, Option.getD_some]
    exact hdi
  have hexec := hrun2 hst1
  rw [← hpc1] at hexec
  dsimp only at hexec
  rw [heff] at hexec
  -- The instruction in the slot may leave the block, and then the branch is not taken. It
  -- is no branch itself.
  cases hstep : (c1.effect (index + 1)).step with
  | next =>
    rw [hstep] at hexec
    obtain ⟨f2, hr2, hst2, hcond, htar⟩ := hexec
    rw [runLine_append_of_running hr2]
    have hrun' : Path σ [index, index + 1] c _ :=
      ⟨_, hmove, _, moves_next hindex hplain hstep, rfl⟩
    refine (hrun3 (hst2.withCursorControl _ _) ?_).carries hrun' (List.prefix_refl _) (by simp) hbusy
      rfl hlt
    -- the slot leaves alone what the branch was decided by
    have hsame : departure? o.instr (σ.address index) f2 =
        departure? o.instr (σ.address index) f1 := by
      rw [departure?, hcond, htar]
      rfl
    rw [hsame, ← hpending1, hpc1]
    exact congrArg c1.pending.getD (Interpreter.address_succ σ.source.pc (index + 1))
  | exit next =>
    rw [hstep] at hexec
    obtain ⟨r, hr, hend⟩ := hexec
    rw [runLine_append_of_finished hr]
    have hrun' : Path σ [index] c c1 := ⟨_, hmove, rfl⟩
    exact .leaves (.exits hrun' hindex hstep hend) (List.prefix_refl _)
      (iff_of_false (by simp) hbusy)
  | branch target =>
    rw [hstep] at hexec
    exact hexec.elim

/-- A branch at the end of a block, without its delay slot. -/
theorem Prepares.carries_of_end (hF : σ.source.Faithful σ.exact)
    (ho : σ.source.ops[index]? = some o) (hi : o.instr.hasDelaySlot = true)
    (hbusy : ¬ σ.source.LeavesAlone index) (h1 : Prepares σ s s' o.instr (σ.address index))
    (hd : σ.source.ops[index + 1]? = none) {s2 : Lowering}
    (h3 : lowerJump σ.source o (σ.address index) s' = .ok u s2) :
    ∃ ops jump, Segment σ s s2 index ops jump ∧
      ∀ {f c}, Stands σ s.cache s.cycles f c →
        c.pc = σ.address index → c.pending = none →
        Carries σ s2 jump index (index + 1) (runLine σ.source.pc ops f) c := by
  have hlt : index < σ.source.ops.size := (Array.getElem?_eq_some_iff.mp ho).1
  -- where the interpreter is followed exactly, delay slots are in the block
  have hx : ¬σ.exact := by
    intro hx
    have hslot := hF.slot hx ho hi
    rw [Array.getElem?_eq_none_iff] at hd
    omega
  obtain ⟨ops1, he1, hrun1⟩ := h1
  obtain ⟨ops3, jump, hseg, hrun3⟩ := lowerJump_ok hF ho he1.wellFormed h3
  refine ⟨ops1 ++ ops3, jump, he1.thenSegment hseg, ?_⟩
  intro f c hst hpc hpending
  obtain ⟨f1, hr1, hst1, hl⟩ := hrun1 hst
  rw [runLine_append_of_running hr1]
  obtain ⟨hindex, -, hclipped⟩ := hl.stepClipped hF.size ho hi hst.retags hpc hpending
  have hend : ¬ index + 1 < σ.source.ops.size := Nat.not_lt.mpr (Array.getElem?_eq_none_iff.mp hd)
  rw [if_neg hend, if_neg hend] at hclipped
  have hmove : Moves σ index c { c with
      machine := (Interpreter.execute (c.machine.tick cyclesPerOp) o.instr (σ.address index)).machine
      pc := (departure? o.instr (σ.address index) f1).getD (σ.address (index + 1))
      pending := none } := ⟨hindex, hclipped, fun hexact => absurd hexact hx, fun _ => hpending⟩
  have hrun' : Path σ [index] c _ := ⟨_, hmove, rfl⟩
  exact (hrun3 (hst1.withCursorControl _ _) rfl).carries hrun' ⟨[index + 1], rfl⟩ (by simp) hbusy rfl
    hlt

theorem uncharge_charge {cycles : UInt32} {u v : Unit} (h1 : charge cycles s = .ok u s')
    (h2 : uncharge cycles s' = .ok v s'') : s'' = s := by
  cases h1
  cases h2
  simp

/-- The code of the instruction at `index` does what the interpreter does there. -/
theorem lowerOp_ok (hF : σ.source.Faithful σ.exact) (ho : σ.source.ops[index]? = some o)
    (hw : s.cache.WellFormed) {next : Nat} (h : lowerOp σ.source index o s = .ok next s') :
    index < next ∧ ∃ ops jump, Segment σ s s' index ops jump ∧
      ∀ {f c}, Stands σ s.cache s.cycles f c →
        c.pc = σ.address index → c.pending = none →
        Carries σ s' jump index next (runLine σ.source.pc ops f) c := by
  have hsize := hF.size
  have hlt : index < σ.source.ops.size := (Array.getElem?_eq_some_iff.mp ho).1
  unfold lowerOp at h
  split at h
  · -- marked as left to the interpreter
    rename_i hflag
    obtain ⟨_, s1, h1, h2⟩ := bind_ok h
    cases h2
    exact ⟨by omega, (exitWith_ok σ (fun _ => σ.address index) (by trivial) (fun _ => rfl) hw
      h1).1.carries ⟨o, ho, .inl hflag⟩ _⟩
  · rename_i hflag
    obtain ⟨_, s1, h1, h⟩ := bind_ok h
    have hcharge := charge_ok σ hw h1
    split at h
    · rename_i hi
      unfold lowerBranch at h
      split at h
      · -- a branch in the delay slot
        rename_i hslot
        obtain ⟨_, s2, h2, h⟩ := bind_ok h
        obtain ⟨_, s3, h3, h4⟩ := bind_ok h
        cases h4
        rw [uncharge_charge h1 h2] at h3
        obtain ⟨d, hd, hdi⟩ : ∃ d, σ.source.ops[index + 1]? = some d ∧
            d.instr.hasDelaySlot = true := by
          simpa [Option.any_eq_true] using hslot
        exact ⟨by omega, (exitWith_ok σ (fun _ => σ.address index) (by trivial) (fun _ => rfl) hw
          h3).1.carries ⟨o, ho, .inr ⟨hi, d, hd, hdi⟩⟩ _⟩
      · -- the delay slot is in the block or behind its end
        rename_i hslot
        obtain ⟨_, s2, h2, h⟩ := bind_ok h
        obtain ⟨_, s3, h3, h⟩ := bind_ok h
        obtain ⟨_, s4, h4, h⟩ := bind_ok h
        have hprep : Prepares σ s s4 o.instr (σ.address index) :=
          prepares_of_ok σ hi hw h1 h2 h3 h4
        have hw4 : s4.cache.WellFormed := by
          obtain ⟨ops, he, -⟩ := hprep
          exact he.wellFormed
        cases hd : σ.source.ops[index + 1]? with
        | none =>
          rw [hd] at h
          obtain ⟨_, s5, h5, h6⟩ := bind_ok h
          cases h6
          have hbusy := BlockSource.not_leavesAlone ho hflag fun _ {d} hd' => by
            rw [hd] at hd'
            cases hd'
          exact ⟨by omega, hprep.carries_of_end hF ho hi hbusy hd h5⟩
        | some d =>
          have hdi : d.instr.hasDelaySlot = false := by simpa [hd] using hslot
          have hlt' : index + 1 < σ.source.ops.size := (Array.getElem?_eq_some_iff.mp hd).1
          rw [hd] at h
          obtain ⟨_, s5, h5, h⟩ := bind_ok h
          obtain ⟨_, s6, h6, h7⟩ := bind_ok h
          cases h7
          have haddr := Interpreter.address_succ σ.source.pc index
          have hexec := lowerSlot_ok hw4 hd (by omega) hdi haddr
            (fun hflag => hF.noDelaySlot ho hflag hd) h5
          rw [haddr] at hexec
          have hbusy := BlockSource.not_leavesAlone ho hflag fun _ {d'} hd' => by
            cases hd.symm.trans hd'
            exact hdi
          exact ⟨by omega, hprep.carries hF ho hi hbusy hd hdi hexec h6⟩
    · -- no branch
      rename_i hi
      obtain ⟨_, s2, h2, h3⟩ := bind_ok h
      cases h3
      have hsimple := lowerSimple_ok hcharge.wellFormed ho (fun _ _ => by omega) (by simpa using hi) rfl h2
      have hbusy := BlockSource.not_leavesAlone ho hflag fun hi' => absurd hi' hi
      exact ⟨by omega, (hcharge.thenExecutes hsimple).carries hF.size ho (by simpa using hi) hbusy⟩

end Lowering

end Dynarec
