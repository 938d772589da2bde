/-
  Dynarec.Proofs.Engine.Memset

  Clearing memory in place of a block.

  A block that is taken for the loop that clears memory has two instructions
  more: the return and whatever stands in its delay slot. The engine clears at
  once and goes on at the return address. The interpreter gets to the delay
  slot with the same registers and memory and has one more instruction to run,
  so the two agree on the whole block when that instruction has no effect, and
  differ by what it does otherwise.
-/
import Dynarec.Proofs.ClearLoop
import Dynarec.Proofs.Engine.Operations

namespace Dynarec

open Interpreter (Cursor indexIn?)

/-! ## The block -/

/-- The instructions of a block by position. -/
theorem instr_getD_of_map_eq {ops : Array Op} {instrs : List Instruction}
    (h : ops.toList.map (·.instr) = instrs) (index : Nat) :
    (ops.getD index default).instr = instrs.getD index default := by
  rw [← h, List.getD_eq_getElem?_getD, List.getElem?_map, Array.getElem?_toList,
    Array.getD_eq_getD_getElem?]
  cases ops[index]? <;> rfl

/-- A block that is taken for the loop begins with it and then returns. -/
theorem isClearLoop_of_isMemsetLoop {pc : UInt32} {ops : Array Op}
    (h : Annotate.isMemsetLoop pc ops = true) :
    IsClearLoop pc ops ∧ ops.size = 6 ∧
      (ops.getD 4 default).instr.operation = .jumpRegister ∧ (ops.getD 4 default).instr.rs = .ra := by
  unfold Annotate.isMemsetLoop at h
  split at h
  · rename_i first second branch advance back slot hinstrs
    have hsize : ops.size = 6 := by
      have := congrArg List.length hinstrs
      simpa using this
    have hat := instr_getD_of_map_eq hinstrs
    simp only [Bool.and_eq_true, Bool.or_eq_true, beq_iff_eq] at h
    obtain ⟨⟨⟨hbody, ⟨⟨hop, hrs⟩, hrt⟩, htarget⟩, hadvance⟩, ⟨hback, hfunct⟩, hra⟩ := h
    refine ⟨⟨by omega, ?_, ?_, ?_, ?_⟩, hsize, ?_, ?_⟩
    · rw [hat 0, hat 1]
      exact hbody
    · rw [hat 2]
      exact ⟨by simp [Instruction.operation, hop], hrs, hrt⟩
    · rw [hat 2]
      exact htarget
    · rw [hat 3]
      exact hadvance
    · rw [hat 4]
      simp [Instruction.operation, Instruction.specialOperation, hback, hfunct]
    · rw [hat 4]
      exact hra
  · cases h

/-- The block has been interpreted as far as the delay slot of its return to `next`, and the machine
has the registers and the memory of `m`. -/
structure AtReturn {δ κ : Type} (base next : UInt32) (m : Machine δ κ) (c : Cursor δ κ) : Prop where
  pc : c.pc = base + 20
  pending : c.pending = some next
  regs : c.machine.regs = m.regs
  memory : c.machine.memory = m.memory

namespace ClearLoop

variable {δ κ : Type} [Device δ] [Coprocessor κ] {L : ClearLoop δ κ} {w : Work} {c : Cursor δ κ}

/-- Behind the loop the return is taken. -/
theorem At.returns (h : L.At 4 none w c) (hsize : 4 < L.ops.size)
    (hop : (L.ops.getD 4 default).instr.operation = .jumpRegister)
    (hrs : (L.ops.getD 4 default).instr.rs = .ra) :
    ∃ c', L.Gets 1 c c' ∧
      L.At 5 (some (L.machine.regs.get .ra)) { w with ran := w.ran + 1 } c' ∧
      c'.machine = c.machine.tick Interpreter.cyclesPerOp := by
  have heffect : c.effect 4 =
      { machine := c.machine.tick Interpreter.cyclesPerOp
        step := .branch (L.machine.regs.get .ra) } := by
    rw [h.effect, Interpreter.execute_eq, hop]
    dsimp only [Interpreter.executeOperation]
    rw [hrs, h.done.tick.other (by decide) (by decide) (by decide)]
  have hstep : (c.effect 4).step = (some (L.machine.regs.get .ra)).elim .next .branch := by
    rw [heffect]
    rfl
  obtain ⟨c', hgets, hpc, hpending, hops, hmachine⟩ := h.goesOn hsize hstep (by
    intro target htarget
    cases htarget)
  rw [heffect] at hmachine
  exact ⟨c', hgets, ⟨hpc, hpending, hops, hmachine ▸ h.done.tick⟩, hmachine⟩

/-- A return to somewhere else leaves the block behind its delay slot. -/
theorem At.runsSlot {next : UInt32} (h : L.At 5 (some next) w c) {n : Nat}
    (hrun : Interpreter.run n L.machine L.base L.ops 0 = .running c) (hsize : 5 < L.ops.size)
    (hout : indexIn? L.base L.ops.size next = none) (hslot : (c.effect 5).step = .next) :
    ∃ o, Interpreter.run (n + 2) L.machine L.base L.ops 0 = .finished o ∧ o.next = next ∧
      o.machine = (c.effect 5).machine := by
  have hstep : (c.effect 5).step = (none : Option UInt32).elim .next .branch := hslot
  -- going on outside is not going back, so the clock is not asked
  obtain ⟨c', hgets, hpc, hpending, hops, hmachine⟩ := h.goesOn hsize hstep (by
    intro target htarget hback
    cases htarget
    rw [Interpreter.goesBack, hout] at hback
    cases hback)
  refine ⟨c'.left c'.pc, ?_, hpc, hmachine⟩
  unfold Interpreter.run at hrun ⊢
  rw [iterate_add, hrun]
  dsimp only
  rw [iterate_add _ 1 1, hgets]
  dsimp only
  rw [iterate_succ, Interpreter.step, hops.size, hpc, Option.getD_some, hout, hpending]
  rfl

/-- The interpreter gets to the delay slot of the return with what clearing at once leaves. -/
theorem gets_return (L : ClearLoop δ κ) (hsize : 4 < L.ops.size)
    (hop : (L.ops.getD 4 default).instr.operation = .jumpRegister)
    (hrs : (L.ops.getD 4 default).instr.rs = .ra) (hsome : L.machine.memset.1.isSome = true) :
    ∃ c, Interpreter.run (4 * (L.machine.regs.get .a1).toNat + 1) L.machine L.base L.ops 0 =
        .running c ∧
      AtReturn L.base (L.machine.regs.get .ra) L.machine.memset.2 c ∧
      ∃ w, L.At 5 (some (L.machine.regs.get .ra)) w c := by
  obtain ⟨d, hd, hat⟩ := L.gets_end
  obtain ⟨hregs, hmemory⟩ := hat.done.eq_memset hsome
  obtain ⟨c, hgets, hat', hmachine⟩ := hat.returns hsize hop hrs
  refine ⟨c, hd.trans hgets, ⟨hat'.pc, hat'.pending, ?_, ?_⟩, _, hat'⟩
  · rw [hmachine]
    exact hregs
  · rw [hmachine]
    exact hmemory

end ClearLoop

/-! ## The engine -/

namespace Engine

variable {δ κ γ : Type} {e : Engine δ κ γ} {id : BlockId} {b : Block} {ops : Array Op}

theorem modifyGet_bind_eq {α β : Type} (g : Engine δ κ γ → α × Engine δ κ γ)
    (f : α → EngineM δ κ γ β) (e : Engine δ κ γ) :
    ((modifyGet g : EngineM δ κ γ α) >>= f) e = f (g e).1 (g e).2 := rfl

variable [Device δ] [Coprocessor κ]

/-- Where memory can be cleared the block is left for its return address. -/
theorem runMemset_of_isSome (hsome : e.machine.memset.1.isSome = true) (fuel : Nat) (id : BlockId) :
    ∃ e', runMemset fuel id e = .ok (e.machine.regs.get .ra) e' ∧
      e'.machine.regs = e.machine.memset.2.regs ∧ e'.machine.memory = e.machine.memset.2.memory := by
  obtain ⟨_, _, -, hregs, -⟩ := Machine.mayClear_of_memset hsome
  obtain ⟨cycles, hcycles⟩ := Option.isSome_iff_exists.mp hsome
  have hclear : e.machine.memset = (some cycles, e.machine.memset.2) := Prod.ext hcycles rfl
  have hra : e.machine.memset.2.regs.get .ra = e.machine.regs.get .ra := by
    rw [hregs, Registers.get_set_of_ne (by decide) (by decide) (by decide),
      Registers.get_set_of_ne (by decide) (by decide) (by decide)]
  have hblock : (blockOf id : EngineM δ κ γ Block) e = .ok (e.blocks.getD id default) e := rfl
  generalize e.machine.memset.2 = m at hclear hra ⊢
  unfold runMemset
  rw [bind_eq_of_ok hblock, EngineM.get_bind_eq, modifyGet_bind_eq]
  dsimp only
  rw [hclear, ← hra]
  -- cycles are all that is charged on top
  exact ⟨_, rfl, rfl, rfl⟩

/-- Interpreting a block to its end. -/
theorem interpret_of_run (hget : e.blocks.get? id = some b) (hops : b.ops = some ops) {fuel : Nat}
    {o : Interpreter.Outcome δ κ} (hrun : Interpreter.run fuel e.machine b.pc ops 0 = .finished o) :
    ∃ e', interpret fuel id e = .ok o.next e' ∧ e'.machine.regs = o.machine.regs ∧
      e'.machine.memory = o.machine.memory := by
  have hblock : (blockOf id : EngineM δ κ γ Block) e = .ok b e :=
    congrArg (EStateM.Result.ok · e) (Registry.getD_eq_of_get? hget default)
  have hstart : ((b.pc - b.pc) >>> (2 : UInt32)).toNat = 0 := by
    rw [UInt32.sub_self]
    rfl
  -- new tags ask for new code, which shows in the table of entries only
  obtain ⟨r, hemulate, hnext, hregs, hmemory⟩ :
      ∃ r, Interpreter.emulate fuel e.machine b b.pc = .finished r ∧ r.next = o.next ∧
        r.machine.regs = o.machine.regs ∧ r.machine.memory = o.machine.memory := by
    unfold Interpreter.emulate
    dsimp only
    rw [hops, hstart]
    dsimp only
    rw [hrun]
    dsimp only
    cases o.tagged with
    | true => exact ⟨_, rfl, rfl, rfl, rfl⟩
    | false => exact ⟨_, rfl, rfl, rfl, rfl⟩
  unfold interpret
  rw [bind_eq_of_ok hblock, EngineM.get_bind_eq, modifyGet_bind_eq, hemulate, ← hnext]
  exact ⟨_, rfl, hregs, hmemory⟩

/-- Clearing in place of a block that is taken for the loop leaves out the delay slot of its return
and nothing else. Interpreted as far as that slot, the block has the same registers and memory and is
about to go on at the same address; it then runs the slot. The whole block does the same where the
slot has no effect. -/
theorem runMemset_leaves_out_slot (hget : e.blocks.get? id = some b) (hops : b.ops = some ops)
    (hblock : Annotate.isMemsetLoop b.pc ops = true) (hsome : e.machine.memset.1.isSome = true)
    (hzero : e.machine.regs.get 0 = 0) (hquiet : e.machine.clock.exit.isNormal = true)
    {region start : Nat} (hline : e.machine.InLine region start)
    (hlasts : e.machine.clock.Lasts (e.machine.regs.get .a1).toNat) {fuel : Nat}
    (hfuel : 4 * (e.machine.regs.get .a1).toNat + 3 ≤ fuel) :
    ∃ e' c, runMemset fuel id e = .ok (e.machine.regs.get .ra) e' ∧
      Interpreter.run (4 * (e.machine.regs.get .a1).toNat + 1) e.machine b.pc ops 0 = .running c ∧
      AtReturn b.pc (e.machine.regs.get .ra) e'.machine c ∧
      (indexIn? b.pc 6 (e.machine.regs.get .ra) = none →
        ((c.effect 5).step = .next →
          ∃ e'', interpret fuel id e = .ok (e.machine.regs.get .ra) e'' ∧
            e''.machine.regs = (c.effect 5).machine.regs ∧
            e''.machine.memory = (c.effect 5).machine.memory) ∧
        ((ops.getD 5 default).instr.isNop = true →
          ∃ e'', interpret fuel id e = .ok (e.machine.regs.get .ra) e'' ∧
            e''.machine.regs = e'.machine.regs ∧ e''.machine.memory = e'.machine.memory)) := by
  obtain ⟨hloop, hsize, hop, hrs⟩ := isClearLoop_of_isMemsetLoop hblock
  obtain ⟨region, start, hmay, -⟩ := Machine.mayClear_of_memset hsome
  let L : ClearLoop δ κ :=
    { machine := e.machine, base := b.pc, ops, region, start, size := by omega, loops := hloop
      zero := hzero, quiet := hquiet, mayClear := hmay, inLine := hmay.inLine hline, lasts := hlasts }
  obtain ⟨e', hmemset, hregs, hmemory⟩ := runMemset_of_isSome hsome fuel id
  have hsize' : L.ops.size = 6 := hsize
  obtain ⟨c, hrun, hreturn, w, hat⟩ := L.gets_return (by omega) hop hrs hsome
  have hslot (hout : indexIn? b.pc 6 (e.machine.regs.get .ra) = none)
      (hstep : (c.effect 5).step = .next) :
      ∃ e'', interpret fuel id e = .ok (e.machine.regs.get .ra) e'' ∧
        e''.machine.regs = (c.effect 5).machine.regs ∧
        e''.machine.memory = (c.effect 5).machine.memory := by
    obtain ⟨o, hwhole, hnext, hleft⟩ := hat.runsSlot hrun (by omega) (hsize ▸ hout) hstep
    obtain ⟨e'', hinterpret, hregs'', hmemory''⟩ :=
      interpret_of_run hget hops (iterate_finished_mono hwhole hfuel)
    exact ⟨e'', hnext ▸ hinterpret, hleft ▸ hregs'', hleft ▸ hmemory''⟩
  refine ⟨e', c, hmemset, hrun, ⟨hreturn.pc, hreturn.pending, ?_, ?_⟩, fun hout =>
    ⟨hslot hout, fun hnop => ?_⟩⟩
  · rw [hregs, hreturn.regs]
  · rw [hmemory, hreturn.memory]
  · have hnone : c.effect 5 = { machine := c.machine.tick Interpreter.cyclesPerOp } := by
      rw [hat.effect]
      exact Interpreter.execute_of_isNop hnop _ _
    obtain ⟨e'', hinterpret, hregs'', hmemory''⟩ := hslot hout (by rw [hnone])
    rw [hnone] at hregs'' hmemory''
    refine ⟨e'', hinterpret, ?_, ?_⟩
    · exact hregs''.trans (hreturn.regs.trans hregs.symm)
    · exact hmemory''.trans (hreturn.memory.trans hmemory.symm)

/-- The loop that clears memory, and a return that puts seven into register 2 in its delay slot. -/
def loadsSeven : Array Op :=
  #[.ofWord 0xac800000, .ofWord 0x24a5ffff, .ofWord 0x14a0fffd, .ofWord 0x24840004,
    .ofWord 0x03e00008, .ofWord 0x24020007]

/-- An engine that has this loop as a block, over a machine with three words to clear. -/
def sevens : Engine RegisterBank StandardCoprocessor HostGenerator :=
  { create Machine.dirty.memory StandardCoprocessor.inert .inert {} {} default with
    machine := Machine.dirty.setReg .ra 0x2000
    blocks := { items := #[some (.ofOps 0x1000 loadsSeven { isMemset := true })] } }

/-- Both return to the same address, but the seven is missing where memory was cleared at once. -/
theorem runMemset_leaves_out_slot_sevens : Annotate.isMemsetLoop 0x1000 loadsSeven = true ∧
    ∃ e' e'' c, runMemset 15 0 sevens = .ok 0x2000 e' ∧ interpret 15 0 sevens = .ok 0x2000 e'' ∧
      Interpreter.run 13 sevens.machine 0x1000 loadsSeven 0 = .running c ∧
      AtReturn 0x1000 0x2000 e'.machine c ∧
      e'.machine.regs.get 2 = 0 ∧ e''.machine.regs.get 2 = 7 := by
  have hloop : Annotate.isMemsetLoop 0x1000 loadsSeven = true := by decide
  have hline : sevens.machine.InLine 0 6 := by
    unfold Machine.InLine
    decide +kernel
  have hlasts : sevens.machine.clock.Lasts (sevens.machine.regs.get .a1).toNat := by
    unfold Clock.Lasts
    decide +kernel
  have hget : sevens.blocks.get? 0 = some (.ofOps 0x1000 loadsSeven { isMemset := true }) := rfl
  obtain ⟨e', c, hmemset, hrun, hreturn, -⟩ := runMemset_leaves_out_slot hget rfl hloop
    (by decide +kernel) (by decide) (by decide) hline hlasts (Nat.le_refl _)
  obtain ⟨next, e'', hinterpret, hseven⟩ := EngineM.exists_of_passes (show EngineM.passes
    (interpret 15 0) (fun next e'' => next == 0x2000 && e''.machine.regs.get 2 == 7) sevens = true by
      decide +kernel)
  obtain ⟨_, d, hd, hzero⟩ := EngineM.exists_of_passes (show EngineM.passes
    (runMemset 15 0) (fun _ e' => e'.machine.regs.get 2 == 0) sevens = true by decide +kernel)
  simp only [Bool.and_eq_true, beq_iff_eq] at hseven hzero
  have hsame : e' = d := by
    have hboth := hmemset.symm.trans hd
    injection hboth
  exact ⟨hloop, e', e'', c, hmemset, hseven.1 ▸ hinterpret, hrun, hreturn, hsame ▸ hzero, hseven.2⟩

end Engine

end Dynarec
