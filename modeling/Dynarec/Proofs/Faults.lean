/-
  Dynarec.Proofs.Faults

  An access that faults has no effect but the fault.

  The machine is left as it was, the reason to leave apart. So guest code stops
  in front of the faulting instruction: interpreted or run from generated code,
  it goes back to the address of that instruction, with its destination not
  written and no access tagged. Generated code keeps registers in host registers
  meanwhile, but in front of an access it has put them back.
-/
import Dynarec.Proofs.Host.Accesses
import Dynarec.Proofs.Machine.Faults

namespace Dynarec

variable {δ κ : Type}

/-- The state of a loop that still runs. -/
def Progress.state? {σ ρ : Type} : Progress σ ρ → Option σ
  | .running s => some s
  | .finished _ => none

theorem Progress.eq_running_of_state? {σ ρ : Type} {p : Progress σ ρ} {s : σ}
    (h : p.state? = some s) : p = .running s := by
  cases p with
  | running s' => exact congrArg Progress.running (Option.some.inj h)
  | finished r => cases h

/-- A loop is over after the step that ends it. -/
theorem iterate_of_running {σ ρ : Type} {step : σ → Progress σ ρ} {n fuel : Nat} {s s' : σ} {r : ρ}
    (h : iterate step n s = .running s') (hstep : step s' = .finished r) (hfuel : n < fuel) :
    iterate step fuel s = .finished r := by
  have hnext : iterate step (n + 1) s = .finished r := by
    rw [iterate_add, h]
    dsimp only
    rw [iterate_succ, hstep]
  exact iterate_finished_mono hnext hfuel

variable [Device δ] [Coprocessor κ]

omit [Device δ] in
theorem Machine.OnlyFaults.segfault {m m' : Machine δ κ} {i : Instruction} (h : m.OnlyFaults i m') :
    m'.clock.exit.segfault = true := by
  rw [h.exit]
  exact Bool.or_true _

/-! ## Interpretation -/

namespace Interpreter

variable {i : Instruction}

/-- An instruction whose access faults leaves for its own address. -/
theorem execute_of_accessFaults {m : Machine δ κ}
    (h : m.AccessFaults i (m.regs.get i.rs) (m.regs.get i.rt)) (pc : UInt32) :
    (execute m i pc).step = .exit pc ∧ (execute m i pc).access = none ∧
      m.OnlyFaults i (execute m i pc).machine := by
  obtain ⟨-, hkind, honly⟩ := Machine.transfer_of_accessFaults h
  obtain ⟨kind, fault, hk, -⟩ := h
  have hexecute : execute m i pc = executeAccess m i kind pc (m.regs.get i.rs) (m.regs.get i.rt) := by
    rw [execute_eq, Instruction.operation_of_memoryAccess? hk]
    rfl
  rw [hexecute, executeAccess, if_pos honly.segfault]
  exact ⟨rfl, hkind, honly⟩

/-- The instruction that runs next. The delay slot of the last instruction of a block stands behind
it. -/
def Cursor.instruction? (base : UInt32) (c : Cursor δ κ) : Option Instruction :=
  match indexIn? base c.ops.size c.pc with
  | some index => some (c.ops.getD index default).instr
  | none =>
    match c.pending with
    | none => none
    | some _ =>
      match c.machine.memory.readWord c.pc with
      | .ok word => some { word }
      | .error _ => none

/-- The access of the instruction that runs next, if it is `i`, faults. -/
def Cursor.Faults (c : Cursor δ κ) (i : Instruction) : Prop :=
  (c.machine.tick cyclesPerOp).AccessFaults i (c.machine.regs.get i.rs) (c.machine.regs.get i.rt)

instance (c : Cursor δ κ) (i : Instruction) : Decidable (c.Faults i) :=
  inferInstanceAs (Decidable (Machine.AccessFaults ..))

/-- The block was left at cursor `c` with nothing but the fault of `i`. -/
structure Outcome.OfFault (o : Outcome δ κ) (c : Cursor δ κ) (i : Instruction) : Prop where
  next : o.next = c.pc
  machine : (c.machine.tick cyclesPerOp).OnlyFaults i o.machine
  ops : o.ops = c.ops
  tagged : o.tagged = c.tagged

theorem step_of_faults {base : UInt32} {c : Cursor δ κ} (hi : c.instruction? base = some i)
    (h : c.Faults i) :
    ∃ o, step base c = .finished o ∧ o.OfFault c i := by
  obtain ⟨hstep, haccess, honly⟩ := execute_of_accessFaults h c.pc
  unfold Cursor.instruction? at hi
  unfold step
  split at hi
  · rename_i index hindex
    cases hi
    rw [hindex]
    dsimp only
    rw [hstep, haccess]
    exact ⟨_, rfl, rfl, honly, rfl, rfl⟩
  · rename_i hindex
    rw [hindex]
    split at hi
    · cases hi
    · rename_i target hpending
      split at hi
      · -- the delay slot behind the block, fetched from memory
        rename_i word hword
        cases hi
        have houtside : runOutside c.machine c.pc target =
            (c.pc, (execute (c.machine.tick cyclesPerOp) { word } c.pc).machine) := by
          unfold runOutside
          rw [hword]
          dsimp only
          rw [hstep]
        rw [hpending]
        dsimp only
        rw [houtside]
        exact ⟨_, rfl, rfl, honly, rfl, rfl⟩
      · cases hi

/-- Interpretation was left at cursor `c` with nothing but the fault of `i`. A block that asks for new
code does so for tags that the cursor has. -/
structure Emulated.OfFault (e : Emulated δ κ) (b : Block) (c : Cursor δ κ) (i : Instruction) :
    Prop where
  next : e.next = c.pc
  machine : (c.machine.tick cyclesPerOp).OnlyFaults i { e.machine with entries := c.machine.entries }
  block : e.block = b ∧ e.machine.entries = c.machine.entries ∨
    c.tagged = true ∧ e.block.ops = some c.ops

theorem emulate_of_faults {m : Machine δ κ} {b : Block} {pc : UInt32} {n : Nat} {c : Cursor δ κ}
    (hrun : emulate n m b pc = .running c) (hi : c.instruction? b.pc = some i) (h : c.Faults i)
    {fuel : Nat} (hfuel : n < fuel) :
    ∃ e, emulate fuel m b pc = .finished e ∧ e.OfFault b c i := by
  obtain ⟨o, hstep, ho⟩ := step_of_faults hi h
  have hentries : o.machine.entries = c.machine.entries := ho.machine.entries
  have honly : (c.machine.tick cyclesPerOp).OnlyFaults i
      { o.machine with entries := c.machine.entries } := by
    rw [← hentries]
    exact ho.machine
  unfold emulate at hrun ⊢
  dsimp only at hrun ⊢
  cases hops : b.ops with
  | some ops =>
    rw [hops] at hrun
    dsimp only at hrun ⊢
    split at hrun
    · rename_i c' hc'
      cases hrun
      rw [run, iterate_of_running hc' hstep hfuel]
      dsimp only
      split
      · -- asking for new code on account of earlier accesses changes the table and the log only
        rename_i htagged
        refine ⟨_, rfl, ho.next, ?_, .inr ⟨ho.tagged ▸ htagged, ?_⟩⟩
        · exact { honly with }
        · rw [← ho.ops]
          exact (congrArg Block.ops (Block.fst_flagRecompile { b with ops := some o.ops }
            o.machine.entries)).trans (Block.ops_demoted _)
      · exact ⟨_, rfl, ho.next, honly, .inl ⟨rfl, hentries⟩⟩
    · split at hrun <;> cases hrun
  | none =>
    rw [hops] at hrun
    dsimp only at hrun ⊢
    split at hrun
    · cases hrun
    · rename_i ops hdecode
      split at hrun
      · rename_i c' hc'
        cases hrun
        rw [run, iterate_of_running hc' hstep hfuel]
        exact ⟨_, rfl, ho.next, honly, .inl ⟨rfl, hentries⟩⟩
      · cases hrun

end Interpreter

/-! ## Generated code -/

namespace HostProgram

/-- Code was left for `next` with nothing but the fault of `i`. -/
structure Returned.OfFault (r : Returned δ κ) (f : Frame δ κ) (i : Instruction) (next : UInt32) :
    Prop where
  next : r.next = next
  machine : f.machine.OnlyFaults i r.machine
  block : r.block = f.block
  tagged : r.tagged = f.tagged

variable {p : HostProgram} {f : Frame δ κ}

theorem step_of_accessFaults {place : Nat} {o : Op} {base : HostReg} {data dst : Option HostReg}
    (hop : p.ops[f.place]? = some (.memory place o base data dst))
    (h : f.machine.AccessFaults o.instr f.host[base] (f.dataOf data)) :
    ∃ r, p.step f = .finished r ∧ r.OfFault f o.instr (p.pc + place.toUInt32 * 4) := by
  obtain ⟨-, hkind, honly⟩ := Machine.transfer_of_accessFaults h
  unfold step
  rw [hop]
  dsimp only
  rw [perform, Frame.memory_eq]
  dsimp only
  -- without a kind of memory there is no tag
  rw [Frame.accessed, hkind, Frame.tag, if_pos honly.segfault]
  exact ⟨_, rfl, rfl, honly, rfl, rfl⟩

theorem call_of_running {n fuel entry : Nat} {m : Machine δ κ} {b : Block} {r : Returned δ κ}
    (hcall : p.call n entry m b = .running f) (hstep : p.step f = .finished r)
    (hfuel : n < fuel) : p.call fuel entry m b = .finished r := by
  unfold call at hcall ⊢
  split at hcall
  · cases hcall
  · exact iterate_of_running hcall hstep hfuel

/-- Code that makes a faulting access is left for the address of the load or store, with the registers
that the guest has in front of it. -/
theorem call_of_accessFaults {source : BlockSource} (hskips : source.SkipsNops)
    (hsize : source.ops.size ≤ 65536) {cache : RegisterCache} (hw : cache.WellFormed)
    (hgenerate : (generate source cache).result = .ok p) {m : Machine δ κ} {b : Block} {n entry : Nat}
    (hcall : p.call n entry m b = .running f) {place : Nat} {o : Op} {base : HostReg}
    {data dst : Option HostReg} (hop : p.ops[f.place]? = some (.memory place o base data dst))
    (h : f.machine.AccessFaults o.instr f.host[base] (f.dataOf data)) :
    ∃ index m', AccessAt source m o base data f index m' ∧
      ∀ {fuel}, n < fuel → ∃ r, p.call fuel entry m b = .finished r ∧
        r.OfFault f o.instr (source.pc + index.toUInt32 * 4) ∧ r.machine.regs = m'.regs := by
  obtain ⟨index, m', hplace, haccess⟩ := accessAt_of_call hskips hw hgenerate hcall hop
  obtain ⟨r, hstep, hr⟩ := step_of_accessFaults hop h
  obtain ⟨s, hp, -⟩ := covers_of_generate hskips hw hgenerate m
  have hlt : index < source.ops.size := (Array.getElem?_eq_some_iff.mp haccess.op).1
  -- positions of such blocks fit into the sixteen bits that code has for them
  rw [hplace, Nat.mod_eq_of_lt (by omega), hp.pc] at hr
  refine ⟨index, m', haccess, fun hfuel => ⟨r, call_of_running hcall hstep hfuel, hr, ?_⟩⟩
  exact hr.machine.regs.trans haccess.machine.regs

end HostProgram

/-! ## Faulting accesses -/

open Interpreter (emulate Cursor)
open HostProgram (Frame AccessAt)

/-- An access that faults has no effect but the fault. A memory instruction whose access faults yields
zero, tags nothing and leaves the machine as it was, the reason to leave apart; for a store of the
second coprocessor that has been asked for the data. Interpretation ends there with the address of the
instruction, whether it is one of the block or the delay slot behind it. So does generated code, for a
block whose positions fit into sixteen bits and whose left out delay slots have no effect. Neither has
written the destination. -/
theorem faulting_access_only_faults :
    (∀ {m : Machine δ κ} {i : Instruction} {base data : UInt32}, m.AccessFaults i base data →
      (m.transfer i base data).value = 0 ∧ (m.transfer i base data).kind = none ∧
        m.OnlyFaults i (m.transfer i base data).machine) ∧
    (∀ {m : Machine δ κ} {b : Block} {pc : UInt32} {n : Nat} {c : Cursor δ κ} {i : Instruction},
      emulate n m b pc = .running c → c.instruction? b.pc = some i → c.Faults i →
      ∀ {fuel : Nat}, n < fuel → ∃ e, emulate fuel m b pc = .finished e ∧ e.OfFault b c i) ∧
    ∀ {source : BlockSource} {g : HostGenerator} {cache : RegisterCache} {emitted : Emitted}
      {m : Machine δ κ} {b : Block} {n entry : Nat} {f : Frame δ κ} {place : Nat} {o : Op}
      {base : HostReg} {data dst : Option HostReg},
      source.SkipsNops → source.ops.size ≤ 65536 →
      (g.compile source cache.reset).result = .ok emitted →
      emitted.program.call n entry m b = .running f →
      emitted.program.ops[f.place]? = some (.memory place o base data dst) →
      f.machine.AccessFaults o.instr f.host[base] (f.dataOf data) →
      ∃ index m', AccessAt source m o base data f index m' ∧
        ∀ {fuel : Nat}, n < fuel → ∃ r, emitted.program.call fuel entry m b = .finished r ∧
          r.OfFault f o.instr (source.pc + index.toUInt32 * 4) ∧ r.machine.regs = m'.regs := by
  refine ⟨Machine.transfer_of_accessFaults, Interpreter.emulate_of_faults, ?_⟩
  intro source g cache emitted m b n entry f place o base data dst hskips hsize hcompile hcall hop h
  exact HostProgram.call_of_accessFaults hskips hsize cache.wellFormed_reset
    (HostProgram.generate_of_compile hcompile).1 hcall hop h

/-- A load at an address that the instruction in front of it makes, and a return. -/
def strayLoad : BlockSource :=
  { pc := 0x1000
    ops := #[.ofWord 0x24a50007, .ofWord 0x8ca20100, .ofWord 0x03e00008, .ofWord 0] }

/-- A machine with little memory and nine in the register that is loaded. -/
def smallMachine : Machine RegisterBank StandardCoprocessor :=
  { HostProgram.countdownMachine with
    memory := (Memory.ofRegions #[.ram 0 0x10]).toOption.getD default
    regs := ({} : Registers).set 2 9 }

/-- The load faults, interpreted and in generated code. -/
theorem faulting_access_only_faults_load : (smallMachine.transfer ⟨0x8ca20100⟩ 7 9).value = 0 ∧
    (∃ c e, emulate 1 smallMachine (.ofOps 0x1000 strayLoad.ops {}) 0x1000 = .running c ∧
      emulate 2 smallMachine (.ofOps 0x1000 strayLoad.ops {}) 0x1000 = .finished e ∧
      e.next = 0x1004 ∧ e.machine.regs = c.machine.regs ∧ c.machine.regs.get 2 = 9) ∧
    ∃ emitted f r, HostProgram.pausedAt? strayLoad 4 0 smallMachine default =
        some (emitted, f, .memory 1 (.ofWord 0x8ca20100) 0 none (some 1)) ∧
      emitted.program.call 5 0 smallMachine default = .finished r ∧ r.next = 0x1004 ∧
      r.machine.regs = f.machine.regs := by
  obtain ⟨htransfer, hemulate, hcall⟩ :=
    faulting_access_only_faults (δ := RegisterBank) (κ := StandardCoprocessor)
  refine ⟨(htransfer (by decide +kernel)).1, ?_, ?_⟩
  · obtain ⟨c, hstate, hc⟩ := (Option.any_eq_true _ _).mp (show
      (emulate 1 smallMachine (.ofOps 0x1000 strayLoad.ops {}) 0x1000).state?.any (fun c => decide
        (c.pc = 0x1004 ∧ c.instruction? 0x1000 = some ⟨0x8ca20100⟩ ∧ c.Faults ⟨0x8ca20100⟩ ∧
          c.machine.regs.get 2 = 9)) = true by decide +kernel)
    obtain ⟨hpc, hi, hfaults, hnine⟩ := of_decide_eq_true hc
    have hrun := Progress.eq_running_of_state? hstate
    obtain ⟨e, he, hleft⟩ := hemulate hrun hi hfaults (Nat.lt_succ_self 1)
    exact ⟨c, e, hrun, he, hleft.next.trans hpc, hleft.machine.regs, hnine⟩
  · obtain ⟨⟨emitted, f, op⟩, hpaused, hf⟩ := (Option.any_eq_true _ _).mp (show
      (HostProgram.pausedAt? strayLoad 4 0 smallMachine default).any
        (fun p : Emitted × Frame RegisterBank StandardCoprocessor × HostOp => decide
          (p.2.2 = .memory 1 (.ofWord 0x8ca20100) 0 none (some 1) ∧
            p.2.1.machine.AccessFaults ⟨0x8ca20100⟩ p.2.1.host[(0 : HostReg)] 0)) = true
      by decide +kernel)
    obtain ⟨hload, hfaults⟩ := of_decide_eq_true hf
    cases hload
    obtain ⟨hcompile, hrun, hop⟩ := HostProgram.exists_of_pausedAt? hpaused
    have hskips : strayLoad.SkipsNops := by
      intro index o d ho hflag
      have hplain : ∀ o ∈ strayLoad.ops, o.flags.noDelaySlot = false := by decide
      rw [hplain o (Array.mem_of_getElem? ho)] at hflag
      cases hflag
    obtain ⟨index, m', haccess, hends⟩ := hcall hskips (by decide) hcompile hrun hop hfaults
    have hindex : index = 1 := by
      have hop := haccess.op
      rcases index with _ | _ | _ | _ | index
      · exact absurd hop (by decide)
      · rfl
      · exact absurd hop (by decide)
      · exact absurd hop (by decide)
      · cases hop
    subst hindex
    obtain ⟨r, hr, hleft, -⟩ := hends (Nat.lt_succ_self 4)
    exact ⟨emitted, f, r, hpaused, hr, hleft.next, hleft.machine.regs⟩

end Dynarec
