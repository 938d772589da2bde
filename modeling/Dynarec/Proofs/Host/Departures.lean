/-
  Dynarec.Proofs.Host.Departures

  Branches as generated code takes them.

  Code differs from the interpreter in two ways, both of them at branches. What
  counts as an unconditional jump is lowered without a condition, although a
  branch on zero or less of a register with itself is not always taken. And a
  block may end in a branch whose delay slot it does not hold; code then goes
  to the target at once. Everywhere else the delay slot is the next instruction
  that is run.
-/
import Dynarec.Proofs.Host.Refinement
import Dynarec.Proofs.Machine.Changes
import Dynarec.Proofs.Program

namespace Dynarec

variable {δ κ : Type} [Device δ] [Coprocessor κ]

/-! ## Taken for granted -/

namespace Interpreter

open Lowering (isRegisterJump decidingCondition?)

variable {i : Instruction}

theorem isSelfLez_iff : isSelfLez i = true ↔
    ∃ link, i.operation = .branch .lez link ∧ i.rs = i.rt ∧ i.rs ≠ 0 := by
  unfold isSelfLez
  split
  · rename_i link hop
    simp [hop]
  · rename_i hne
    simp only [Bool.false_eq_true, false_iff]
    rintro ⟨link, hop, -⟩
    exact hne link hop

/-- A branch on zero or less of a register with itself is taken unless the register is positive. -/
theorem step_selfLez (hl : isSelfLez i = true) {pc target : UInt32}
    (ht : i.branchTarget? pc = some target) (m : Machine δ κ) :
    (execute m i pc).step =
      if 0 < (m.regs.get i.rs).toInt32 then .next else .branch target := by
  obtain ⟨link, hop, -⟩ := isSelfLez_iff.mp hl
  simp only [execute_eq, executeOperation, hop, ht, Option.getD_some, Condition.holds, decide_eq_true_eq]
  by_cases hpos : 0 < (m.regs.get i.rs).toInt32
  · rw [if_pos hpos, if_neg (Int32.not_le.mpr hpos)]
  · rw [if_neg hpos, if_pos (Int32.not_lt.mp hpos)]

/-- A branch does not leave guest code. -/
theorem step_ne_exit (hi : i.hasDelaySlot = true) (m : Machine δ κ) (pc next : UInt32) :
    (execute m i pc).step ≠ .exit next := by
  cases hj : isRegisterJump i with
  | true =>
    rw [step_registerJump hi hj]
    exact Step.noConfusion
  | false =>
    obtain ⟨target, ht⟩ := branchTarget?_isSome hi hj pc
    rcases step_direct hi hj ht m with hstep | hstep
    · rw [hstep]
      exact Step.noConfusion
    · rw [hstep]
      exact Step.noConfusion

/-- Where a jump at `pc` leads that is taken when the registers are `regs`. -/
def jumpTarget (i : Instruction) (pc : UInt32) (regs : Registers) : UInt32 :=
  (i.branchTarget? pc).getD (regs.get i.rs)

theorem jumpTarget_of_isRegisterJump (hj : isRegisterJump i = true) (pc : UInt32) (regs : Registers) :
    jumpTarget i pc regs = regs.get i.rs := by
  have hop : i.op = 0 := beq_iff_eq.mp hj
  simp [jumpTarget, Instruction.branchTarget?, Instruction.isBranch, hop]

theorem isSelfLez_of_isRegisterJump (hi : i.hasDelaySlot = true) (hj : isRegisterJump i = true) :
    isSelfLez i = false := by
  apply Bool.eq_false_iff.mpr
  intro hself
  obtain ⟨link, hop, -⟩ := isSelfLez_iff.mp hself
  rw [Lowering.isRegisterJump_eq hi, hop] at hj
  cases hj

theorem decidingCondition?_of_isUnconditionalJump (hu : i.isUnconditionalJump = true)
    (hj : isRegisterJump i = false) : decidingCondition? i = none := by
  rw [isUnconditionalJump_eq (Instruction.hasDelaySlot_of_isUnconditionalJump hu) hj] at hu
  simpa using hu

/-- The interpreter takes what counts as an unconditional jump, but for one kind of branch. -/
theorem step_of_isUnconditionalJump (hu : i.isUnconditionalJump = true) {m : Machine δ κ}
    (hzero : m.regs.get 0 = 0) (pc : UInt32) :
    (execute m i pc).step =
      if isSelfLez i && decide (0 < (m.regs.get i.rs).toInt32) then .next
      else .branch (jumpTarget i pc m.regs) := by
  have hi := Instruction.hasDelaySlot_of_isUnconditionalJump hu
  cases hj : isRegisterJump i with
  | true =>
    rw [isSelfLez_of_isRegisterJump hi hj, Bool.false_and, if_neg Bool.false_ne_true,
      jumpTarget_of_isRegisterJump hj, step_registerJump hi hj]
  | false =>
    obtain ⟨target, ht⟩ := branchTarget?_isSome hi hj pc
    rw [jumpTarget, ht, Option.getD_some]
    -- of the branches that are taken for granted one kind may not hold
    cases hself : isSelfLez i with
    | true =>
      rw [step_selfLez hself ht, Bool.true_and]
      simp only [decide_eq_true_eq]
    | false =>
      rw [Bool.false_and, if_neg Bool.false_ne_true]
      exact step_undecided hi hj (decidingCondition?_of_isUnconditionalJump hu hj) hself ht hzero

end Interpreter

namespace Lowering

open HostProgram
open Interpreter (jumpTarget)

variable {i : Instruction} {source : BlockSource} {o : Op} {pc : UInt32} {s s' : Lowering} {u : Unit}

/-- The operation goes to `target`: it leaves code for it, or jumps to the code that stands for it. -/
def GoesTo (base : UInt32) (f : Frame δ κ) (op : HostOp) (target : UInt32) : Prop :=
  perform base f op = f.leave target ∨ ∃ place, perform base f op = f.jump place target

theorem back?_exitWith {op : HostOp} (h : exitWith op s = .ok u s') :
    s'.program.back? = some op := by
  obtain ⟨_, s1, -, h⟩ := bind_ok h
  obtain ⟨_, s2, -, h⟩ := bind_ok h
  cases h
  exact Array.back?_push

/-- Behind the delay slot of an unconditional jump stands an operation that goes where the jump leads,
with no look at the condition. Giving the operation its place changes nothing about that. -/
theorem goesTo_of_lowerJump (hu : o.instr.isUnconditionalJump = true)
    (h : lowerJump source o pc s = .ok u s') :
    ∃ op, s'.program.back? = some op ∧
      ∀ (place : Option Nat) {regs : Registers} {f : Frame δ κ}, Latched o.instr regs f →
        GoesTo source.pc f (patchOp place op) (jumpTarget o.instr pc regs) := by
  unfold lowerJump at h
  split at h
  · -- a register jump leaves for what was remembered in front of the slot
    rename_i hj
    refine ⟨_, back?_exitWith h, fun place regs f hl => .inl ?_⟩
    rw [Interpreter.jumpTarget_of_isRegisterJump hj, ← hl.target hj]
    rfl
  · rename_i hj
    replace hj : isRegisterJump o.instr = false := by simpa using hj
    obtain ⟨target, ht⟩ := Interpreter.branchTarget?_isSome
      (Instruction.hasDelaySlot_of_isUnconditionalJump hu) hj pc
    rw [ht, Interpreter.decidingCondition?_of_isUnconditionalJump hu hj] at h
    have htarget (regs : Registers) : jumpTarget o.instr pc regs = target := by
      rw [jumpTarget, ht, Option.getD_some]
    obtain ⟨_, s1, -, h⟩ := bind_ok h
    obtain ⟨_, s2, -, h⟩ := bind_ok h
    split at h
    · -- a jump inside the block gets its place, or leaves where there is none
      cases h
      refine ⟨_, Array.back?_push, fun place regs f _ => ?_⟩
      rw [htarget]
      cases place with
      | none => exact .inl rfl
      | some place => exact .inr ⟨place, rfl⟩
    · cases h
      refine ⟨_, Array.back?_push, fun place regs f _ => .inl ?_⟩
      rw [htarget]
      rfl

/-- What counts as an unconditional jump is taken by the interpreter, to the target that code goes to,
except for a branch on zero or less of a positive register with itself: the interpreter goes on behind
it, and code takes it all the same. Code decides in front of the delay slot, and the last operation
behind it goes to the target. -/
theorem unconditional_taken_unless_selfLez (hu : i.isUnconditionalJump = true) {m : Machine δ κ}
    (hzero : m.regs.get 0 = 0) (pc : UInt32) :
    (Interpreter.execute m i pc).step =
      (if Interpreter.isSelfLez i && decide (0 < (m.regs.get i.rs).toInt32) then .next
        else .branch (jumpTarget i pc m.regs)) ∧
    (∀ {σ : Site δ κ} {s s' : Lowering}, s.cache.WellFormed → latch i s = .ok () s' →
      Latches σ s s' i) ∧
    ∀ {source : BlockSource} {o : Op} {s s' : Lowering}, o.instr = i →
      lowerJump source o pc s = .ok () s' →
      ∃ op, s'.program.back? = some op ∧
        ∀ (place : Option Nat) {f : Frame δ κ}, Latched i m.regs f →
          GoesTo source.pc f (patchOp place op) (jumpTarget i pc m.regs) := by
  refine ⟨Interpreter.step_of_isUnconditionalJump hu hzero pc, fun hw h => latch_ok _ hw h, ?_⟩
  rintro source o s s' rfl h
  obtain ⟨op, hback, hgoes⟩ := goesTo_of_lowerJump (δ := δ) (κ := κ) hu h
  exact ⟨op, hback, fun place f hl => hgoes place hl⟩

/-- A machine with a positive register. -/
def positive : Machine RegisterBank StandardCoprocessor :=
  { countdownMachine with regs := ({} : Registers).set 4 1 }

/-- The branch on zero or less of register 4 with itself is not taken, and the code for it leaves for
its target. -/
theorem unconditional_taken_unless_selfLez_positive :
    (Interpreter.execute positive { word := 0x18840003 } 0x1000).step = .next ∧
    ∃ s' op, lowerJump { pc := 0x1000, ops := #[.ofWord 0x18840003] } (.ofWord 0x18840003) 0x1000
        { labels := #[], cache := {} } = .ok () s' ∧
      s'.program.back? = some op ∧
      GoesTo 0x1000 { machine := positive, block := default, place := 0 } op 0x1010 := by
  obtain ⟨hstep, -, hjump⟩ := unconditional_taken_unless_selfLez
    (i := { word := 0x18840003 }) (by decide) (m := positive) (by decide) 0x1000
  -- the branch is taken for granted, so there is nothing to remember
  have hlatched : Latched { word := 0x18840003 } positive.regs
      ({ machine := positive, block := default, place := 0 } : Frame _ _) := by
    refine ⟨fun hj => ?_, fun hd => ?_⟩
    · cases hj
    · cases hd
  have hlower : lowerJump { pc := 0x1000, ops := #[.ofWord 0x18840003] } (.ofWord 0x18840003) 0x1000
      { labels := #[], cache := {} } = .ok () _ := rfl
  obtain ⟨op, hback, hgoes⟩ := hjump rfl hlower
  cases hback
  exact ⟨hstep, _, _, hlower, rfl, hgoes none hlatched⟩

end Lowering

/-! ## Blocks that end in a branch -/

/-- The block at `pc` as code is generated for it. -/
def Config.source (config : Config) (layout : Layout) (pc : UInt32) (ops : Array Op) : BlockSource where
  pc := pc
  ops := (annotate layout config.normalize pc ops).ops

namespace Memory

/-- In the region of `pc` there is no word behind that of the instruction at `index` from there. -/
def EndsBehind (m : Memory δ) (pc : UInt32) (index : Nat) : Prop :=
  ∃ r data, m.layout.resolve pc = .ok r ∧ m.bytes? r.index = some data ∧
    data.size < r.offset.toNat / 4 * 4 + 4 * (index + 2)

end Memory

omit [Device δ] in
/-- A branch at the end of a decoded block is the last word of its region, or itself in the delay slot
of a branch. -/
theorem Block.decode_slot {memory : Memory δ} {pc : UInt32} {maxOps : Nat} {ops : Array Op}
    (h : decode memory pc maxOps = .ok ops) {index : Nat} {o : Op} (ho : ops[index]? = some o)
    (hi : o.instr.hasDelaySlot = true) :
    index + 1 < ops.size ∨ memory.EndsBehind pc index ∨
      ∃ j o', index = j + 1 ∧ ops[j]? = some o' ∧ o'.instr.hasDelaySlot = true := by
  obtain ⟨r, data, hr, -, hdata, hfits, rfl⟩ := decode_eq_ok_iff.mp h
  -- there are as many words to collect as there are up to the end of the region
  rcases collect_slot Array.size_empty (Nat.zero_le index) ho hi with hlt | hlast | hslot
  · exact .inl hlt
  · refine .inr (.inl ⟨r, data, hr, hdata, ?_⟩)
    omega
  · exact .inr (.inr hslot)

namespace HostProgram

/-! ## Delay slots along a path -/

open Interpreter (Cursor stepClipped indexIn?)

variable {σ : Site δ κ} {path before after : List Nat} {index : Nat} {start c d : Cursor δ κ}
  {r : Returned δ κ}

theorem Moves.retags (h : Moves σ index c d) (hr : Retags σ.source.ops c.ops) :
    Retags σ.source.ops d.ops := by
  rw [(Interpreter.ran_of_stepClipped h.stands h.clipped).2]
  exact Interpreter.retags_tagAccess hr _ _ _

theorem Path.retags (h : Path σ path c d) (hr : Retags σ.source.ops c.ops) :
    Retags σ.source.ops d.ops := by
  induction path generalizing c with
  | nil =>
    cases h
    exact hr
  | cons index path ih =>
    obtain ⟨c', hmoves, hrest⟩ := h
    exact ih hrest (hmoves.retags hr)

/-- The first instruction of a path goes on to the rest, or leaves guest code. -/
theorem Reaches.cons_cases (h : Reaches σ (index :: path) c r) :
    (∃ d, Moves σ index c d ∧ Reaches σ path d r) ∨
      path = [] ∧ ∃ next, (c.effect index).step = .exit next := by
  generalize hwhole : index :: path = whole at h
  cases h with
  | arrives hpath hpending hend =>
    subst hwhole
    obtain ⟨d, hmoves, hrest⟩ := hpath
    exact .inl ⟨d, hmoves, .arrives hrest hpending hend⟩
  | @exits front last _ _ _ _ hpath hindex hstep hend =>
    -- the instruction that leaves is the first only if none ran in front of it
    cases front with
    | nil =>
      cases hwhole
      cases hpath
      exact .inr ⟨rfl, _, hstep⟩
    | cons first front =>
      cases hwhole
      obtain ⟨d, hmoves, hrest⟩ := hpath
      exact .inl ⟨d, hmoves, .exits hrest hindex hstep hend⟩

/-- What remains of a path reaches the same end. -/
theorem Path.rest (h : Path σ before start c) (hr : Reaches σ (before ++ index :: after) start r) :
    Reaches σ (index :: after) c r := by
  induction before generalizing start with
  | nil =>
    cases h
    exact hr
  | cons first before ih =>
    obtain ⟨d, hmoves, hrest⟩ := h
    rcases hr.cons_cases with ⟨d', hmoves', hr'⟩ | ⟨hnil, -⟩
    · -- a step has one outcome
      cases hmoves.clipped.symm.trans hmoves'.clipped
      exact ih hrest hr'
    · cases List.append_ne_nil_of_right_ne_nil _ (List.cons_ne_nil _ _) hnil

/-- Every branch that is taken on `path` is pending while its delay slot is run, which is the next
instruction. But a branch at the end of the block goes to its target at once. -/
def TakesBranches (σ : Site δ κ) (path : List Nat) (start : Cursor δ κ) : Prop :=
  ∀ {before after : List Nat} {index : Nat} {c : Cursor δ κ} {target : UInt32},
    path = before ++ index :: after → Path σ before start c →
    (c.ops.getD index default).instr.hasDelaySlot = true → c.departure? index = some target →
    ∃ d, Moves σ index c d ∧
      if index + 1 < σ.source.ops.size then
        d.pending = some target ∧ ∃ rest, after = (index + 1) :: rest
      else d.pending = none ∧ d.pc = target

/-- While a branch is pending the path goes on with its delay slot. -/
theorem Reaches.head_of_pending (h : Reaches σ path d r) {target : UInt32}
    (hpending : d.pending = some target) (hindex : indexIn? σ.source.pc d.ops.size d.pc = some index) :
    ∃ rest, path = index :: rest := by
  cases h with
  | @arrives path _ _ _ hpath hnone _ =>
    cases path with
    | nil =>
      cases hpath
      cases hpending.symm.trans hnone
    | cons next rest =>
      obtain ⟨_, hmoves, -⟩ := hpath
      cases hindex.symm.trans hmoves.stands
      exact ⟨rest, rfl⟩
  | @exits front last _ _ _ _ hpath hlast _ _ =>
    cases front with
    | nil =>
      cases hpath
      cases hindex.symm.trans hlast
      exact ⟨[], rfl⟩
    | cons next front =>
      obtain ⟨_, hmoves, -⟩ := hpath
      cases hindex.symm.trans hmoves.stands
      exact ⟨front ++ [last], rfl⟩

/-- A path that code was left after takes its branches so. -/
theorem Reaches.takesBranches (hsize : σ.source.ops.size ≤ 65535)
    (hr : Retags σ.source.ops start.ops) (h : Reaches σ path start r) :
    TakesBranches σ path start := by
  rintro before after index c target rfl hbefore hi htarget
  rcases (hbefore.rest h).cons_cases with ⟨d, hmoves, hrest⟩ | ⟨-, next, hexit⟩
  · refine ⟨d, hmoves, ?_⟩
    have hretags := hbefore.retags hr
    have hstep := hmoves.clipped
    rw [Interpreter.stepClipped_of_hasDelaySlot hmoves.stands hi (hmoves.parted hi), hretags.size,
      htarget] at hstep
    split at hstep
    · -- the branch is pending in front of its slot, and no path ends there
      rename_i hslot
      rw [if_pos hslot]
      have hat : indexIn? σ.source.pc d.ops.size (c.pc + 4) = some (index + 1) := by
        rw [(Interpreter.address_of_indexIn? hmoves.stands).2.1, Interpreter.address_succ]
        exact Site.indexIn?_address (hmoves.retags hretags) hsize hslot
      cases hstep
      exact ⟨rfl, hrest.head_of_pending rfl hat⟩
    · -- the block ends with the branch
      rename_i hslot
      rw [if_neg hslot]
      cases hstep
      exact ⟨rfl, rfl⟩
  · cases Interpreter.step_ne_exit hi _ _ _ hexit

/-! ## Calls -/

omit [Device δ] in
/-- Blocks that were decoded and marked have true marks. -/
theorem faithful_of_decode {memory : Memory δ} {config : Config} {pc : UInt32} {ops : Array Op}
    (hdecode : Block.decode memory pc config.normalize.maxBlockOps = .ok ops) :
    (config.source memory.layout pc ops).Faithful False := by
  obtain ⟨-, -, hsize, hflags⟩ := Block.supplies_of_decode hdecode
  -- settings keep blocks below the limit on offsets, a delay slot at the end included
  have hlimit : config.normalize.maxBlockOps = min (max config.maxBlockOps 2) 65534 := rfl
  refine (annotates_annotate memory.layout config.normalize pc ops).faithful
    (faithful_of_plain (by omega) (fun o ho => ?_) (fun h => h.elim) (fun h => h.elim))
  rw [hflags o ho]
  exact ⟨rfl, rfl⟩

/-- Generated code leaves out no delay slot but that of a branch at the end of its block. A call that
comes back ran instructions of the block one after another; each branch that it took was followed by its
delay slot, unless the block has no slot for it. The branch is then the last word of its region, or
itself in a delay slot. -/
theorem call_leaves_out_slot_at_end_only {memory : Memory δ} {config : Config} {pc : UInt32}
    {ops : Array Op} (hdecode : Block.decode memory pc config.normalize.maxBlockOps = .ok ops)
    (g : HostGenerator) (cache : RegisterCache) {emitted : Emitted}
    (hcompile : (g.compile (config.source memory.layout pc ops) cache.reset).result = .ok emitted)
    {entry : Nat} (hentry : entry = 0 ∨ entry ∈ emitted.targets) {m : Machine δ κ} {b : Block}
    {fuel : Nat} {r : Returned δ κ} (hcall : emitted.program.call fuel entry m b = .finished r) :
    (∃ path,
      Reaches ⟨b, config.source memory.layout pc ops, False⟩ path
        { machine := m, ops := (config.source memory.layout pc ops).ops
          pc := pc + entry.toUInt32 * 4 } r ∧
      TakesBranches ⟨b, config.source memory.layout pc ops, False⟩ path
        { machine := m, ops := (config.source memory.layout pc ops).ops
          pc := pc + entry.toUInt32 * 4 }) ∧
    ∀ {index : Nat} {o : Op}, ops[index]? = some o → o.instr.hasDelaySlot = true →
      index + 1 < (config.source memory.layout pc ops).ops.size ∨ memory.EndsBehind pc index ∨
        ∃ j o', index = j + 1 ∧ ops[j]? = some o' ∧ o'.instr.hasDelaySlot = true := by
  let σ : Site δ κ := ⟨b, config.source memory.layout pc ops, False⟩
  have hF : σ.source.Faithful σ.exact := faithful_of_decode hdecode
  obtain ⟨hgenerate, htargets⟩ := generate_of_compile hcompile
  obtain ⟨path, hreach, -⟩ := explains_call (σ := σ) hF cache.wellFormed_reset hgenerate
    (htargets ▸ hentry) (fun h => h.elim) (fun h => h.elim) hcall
  refine ⟨⟨path, hreach, hreach.takesBranches hF.size (Retags.refl _)⟩, fun ho hi => ?_⟩
  have hsize : (config.source memory.layout pc ops).ops.size = ops.size :=
    (annotates_annotate memory.layout config.normalize pc ops).size
  rw [hsize]
  exact Block.decode_slot hdecode ho hi

/-- The block at `pc`, and what a call of its code came back with. -/
def called? (memory : Memory δ) (config : Config) (pc : UInt32) (fuel : Nat) (m : Machine δ κ)
    (b : Block) : Option (Array Op × Returned δ κ) :=
  match Block.decode memory pc config.normalize.maxBlockOps with
  | .error _ => none
  | .ok ops =>
    match (({} : HostGenerator).compile (config.source memory.layout pc ops) {}).result with
    | .error _ => none
    | .ok emitted =>
      match emitted.program.call fuel 0 m b with
      | .running _ => none
      | .finished r => some (ops, r)

theorem exists_of_called? {memory : Memory δ} {config : Config} {pc : UInt32} {fuel : Nat}
    {m : Machine δ κ} {b : Block} {ops : Array Op}
    (h : called? memory config pc fuel m b = some (ops, r)) :
    Block.decode memory pc config.normalize.maxBlockOps = .ok ops ∧
    ∃ emitted, (({} : HostGenerator).compile (config.source memory.layout pc ops) {}).result =
        .ok emitted ∧
      emitted.program.call fuel 0 m b = .finished r := by
  unfold called? at h
  split at h
  · cases h
  · rename_i ops' hdecode
    split at h
    · cases h
    · rename_i emitted hcompile
      split at h
      · cases h
      · rename_i r' hcall
        cases h
        exact ⟨hdecode, emitted, hcompile, hcall⟩

/-- Two regions of memory, with a return at the end of the first. Its delay slot, which puts seven into
register 2, is in the second. -/
def parted : Memory RegisterBank :=
  match Memory.ofRegions #[.ram 0 0x10, .ram 0x10 0x10] with
  | .ok memory => ((memory.writeWords 0x0c [0x03e00008]).2.writeWords 0x10 [0x24020007]).2
  | .error _ => default

/-- A machine over that memory, about to return to an address in it. -/
def returning : Machine RegisterBank StandardCoprocessor :=
  { countdownMachine with memory := parted, regs := ({} : Registers).set .ra 0x14 }

/-- The return, which is all there is of its block. -/
def loneReturn : Array Op := #[.ofWord 0x03e00008]

/-- The code for the return leaves out its delay slot, which the interpreter runs. -/
theorem call_leaves_out_slot_at_end_only_parted : parted.EndsBehind 0x0c 0 ∧
    ∃ r path, called? parted {} 0x0c 10 returning default = some (loneReturn, r) ∧
      TakesBranches ⟨default, ({} : Config).source parted.layout 0x0c loneReturn, False⟩ path
        { machine := returning, ops := (({} : Config).source parted.layout 0x0c loneReturn).ops
          pc := 0x0c + Nat.toUInt32 0 * 4 } ∧
      r.next = 0x14 ∧ r.machine.regs.get 2 = 0 ∧
      (Interpreter.machineOf (Interpreter.run 10 returning 0x0c loneReturn 0)).regs.get 2 = 7 := by
  obtain ⟨⟨ops, r⟩, hcalled, hr⟩ := (Option.any_eq_true _ _).mp (show
    (called? parted {} 0x0c 10 returning default).any (fun result => decide (result.1 = loneReturn ∧
      result.2.next = 0x14 ∧ result.2.machine.regs.get 2 = 0)) = true by decide +kernel)
  obtain ⟨rfl, hnext, hzero⟩ := of_decide_eq_true hr
  obtain ⟨hdecode, emitted, hcompile, hcall⟩ := exists_of_called? hcalled
  obtain ⟨⟨path, -, htakes⟩, hends⟩ :=
    call_leaves_out_slot_at_end_only hdecode {} {} hcompile (.inl rfl) hcall
  refine ⟨?_, r, path, hcalled, htakes, hnext, hzero, by decide +kernel⟩
  rcases hends (show loneReturn[0]? = some _ from rfl) (by decide) with hslot | hends | ⟨_, _, hj, -⟩
  · exact absurd hslot (by decide +kernel)
  · exact hends
  · cases hj

end HostProgram

end Dynarec
