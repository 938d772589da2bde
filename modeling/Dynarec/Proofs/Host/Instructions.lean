/-
  Dynarec.Proofs.Host.Instructions

  The code of every instruction that is no branch does what the interpreter
  does for it: `lowerSimple_ok`, with one case for each kind of operation.
-/
import Dynarec.Proofs.Host.Access

namespace Dynarec.Lowering

open HostProgram
open Interpreter (Cursor execute execute_eq executeOperation)

variable {δ κ : Type} [Device δ] [Coprocessor κ] {σ : Site δ κ} {s s' s'' : Lowering}

/-! ## Exits -/

omit [Device δ] [Coprocessor κ] in
/-- Reasons to leave can be recorded before or after cycles are charged. -/
theorem stands_setExit {cache : RegisterCache} {lag : UInt32} {f : Frame δ κ} {c : Cursor δ κ}
    (h : Stands σ cache lag f c) (flags : ExitFlags) :
    Stands σ cache lag { f with machine := f.machine.setExit flags }
      { c with machine := c.machine.setExit flags } where
  agrees := by
    have ha := h.agrees.setExit flags
    unfold Machine.setExit Clock.setExit at ha ⊢
    split
    · rename_i hn
      simp only [hn, if_true] at ha
      exact ha
    · rename_i hn
      simp only [hn, Bool.false_eq_true, if_false] at ha
      exact { ha with }
  zero := h.zero
  tags := h.tags
  retags := h.retags

variable {u : Unit}

theorem raise_ok (σ : Site δ κ) {flags : ExitFlags} (hw : s.cache.WellFormed)
    (h : emit (.raise flags) s = .ok u s') : Realizes σ s s' (·.setExit flags) := by
  cases h
  refine ⟨[.raise flags], Extends.push (by trivial) hw, fun {f c} hst => ?_⟩
  exact ⟨{ f with machine := f.machine.setExit flags, place := f.place + 1 }, rfl,
    (stands_setExit hst flags).withControl _ _ _, rfl, rfl⟩

/-- Leaving the code for good with a reason. -/
theorem raise_exit_ok (σ : Site δ κ) {flags : ExitFlags} {next : UInt32} (hw : s.cache.WellFormed)
    (h : (do emit (.raise flags); exitWith (.exit next)) s = .ok u s') :
    Leaves σ s s' (·.setExit flags) (fun _ => next) := by
  obtain ⟨_, s1, h1, h2⟩ := bind_ok h
  have hr := raise_ok σ hw h1
  obtain ⟨hl, -, -⟩ :=
    exitWith_ok σ (fun _ => next) (by trivial) (fun _ => rfl) hr.wellFormed h2
  exact hr.leaves hl

/-- Notices of the interpreter make no difference. -/
theorem Leaves.note {F : Machine δ κ → Machine δ κ} {next : UInt32 → UInt32}
    (h : Leaves σ s s' F next) (G : Machine δ κ → Machine δ κ)
    (hG : ∀ {E : EntryTable → EntryTable → Prop} {a m : Machine δ κ},
      Machine.Agrees E Eq a (F m) → Machine.Agrees E Eq a (G m)) :
    Leaves σ s s' G next := by
  obtain ⟨ops, he, hrun⟩ := h
  refine ⟨ops, he, fun hst => ?_⟩
  obtain ⟨r, hr, hend⟩ := hrun hst
  exact ⟨r, hr, { hend with agrees := hG hend.agrees }⟩

variable {i : Instruction}

theorem lowerUnknown_ok (σ : Site δ κ) {index : Nat} {addr : UInt32} (hw : s.cache.WellFormed)
    (hop : i.operation = .unknown)
    (h : lowerUnknown i addr s = .ok u s') : Executes σ s s' id index i addr := by
  obtain ⟨_, s1, h1, h2⟩ := bind_ok h
  have hr : Realizes σ s s1 id := by
    cases h1
    exact ⟨[], ⟨by simp, rfl, rfl, by simp, hw⟩, fun hst => ⟨_, rfl, hst, rfl, rfl⟩⟩
  have hl := hr.leaves (raise_exit_ok σ hr.wellFormed h2)
  have hnoted := hl.note
    (fun m => (m.note (.unknownOpcode .interpreter i.word addr)).setExit { unknownOp := true })
    (fun ha => { ha with })
  refine hnoted.executes fun m => ?_
  rw [execute_eq, hop]
  rfl

/-! ## Computations -/

/-- Results for register zero are dropped when code is generated. -/
theorem unless_zero_ok {d : Reg} {x : LowerM Unit} {v : Machine δ κ → UInt32}
    (hw : s.cache.WellFormed)
    (hx : d ≠ 0 → x s = .ok u s' → Realizes σ s s' (fun m => m.setReg d (v m)))
    (h : (if d ≠ 0 then x else pure ()) s = .ok u s') :
    Realizes σ s s' (fun m => m.setReg d (v m)) := by
  split at h
  · rename_i h0
    exact hx h0 h
  · rename_i h0
    cases h
    have h0 : d = 0 := Decidable.not_not.mp h0
    subst h0
    simp only [Interpreter.setReg_zero]
    exact realizes_refl σ hw

/-- A known value. -/
theorem const_ok (σ : Site δ κ) {d : Reg} (hd : d.IsOwn) (h0 : d ≠ 0) {v : UInt32}
    (hw : s.cache.WellFormed) (h : (do let dst ← allocOut d; emit (.const dst v)) s = .ok u s') :
    Realizes σ s s' (fun m => m.setReg d v) := by
  obtain ⟨dst, s1, h1, h2⟩ := bind_ok h
  cases h2
  exact (reading_nil σ hw).put hd h0 h1 (φ := fun _ => v) (v := fun _ => v) (by trivial)
    (fun _ => rfl) (fun _ => rfl)

/-- A computation on one register. -/
theorem unary_ok (σ : Site δ κ) {g d : Reg} (hg : g.IsOwn) (hd : d.IsOwn) (h0 : d ≠ 0)
    (op : HostReg → HostReg → HostOp) (hs : ∀ k a, (op k a).IsStraight) (φ : UInt32 → UInt32)
    (hop : ∀ k a (f : Frame δ κ),
      perform σ.source.pc f (op k a) = (f.put k (φ f.host[a])).goOn)
    (hw : s.cache.WellFormed)
    (h : (do let a ← allocIn g; let dst ← allocOut d; emit (op dst a)) s = .ok u s') :
    Realizes σ s s' (fun m => m.setReg d (φ (m.regs.get g))) := by
  obtain ⟨a, s1, h1, h⟩ := bind_ok h
  obtain ⟨dst, s2, h2, h3⟩ := bind_ok h
  cases h3
  refine ((reading_nil σ hw).read hg h1).put hd h0 h2 (φ := fun host => φ host[a])
    (v := fun m => φ (m.regs.get g)) (hs dst a) (hop dst a) ?_
  intro host m hval
  exact congrArg φ (hval (a, g) (by simp))

/-- A computation on two registers. -/
theorem binary_ok (σ : Site δ κ) {g g' d : Reg} (hg : g.IsOwn) (hg' : g'.IsOwn) (hd : d.IsOwn)
    (h0 : d ≠ 0) (op : HostReg → HostReg → HostReg → HostOp) (hs : ∀ k a b, (op k a b).IsStraight)
    (φ : UInt32 → UInt32 → UInt32)
    (hop : ∀ k a b (f : Frame δ κ),
      perform σ.source.pc f (op k a b) = (f.put k (φ f.host[a] f.host[b])).goOn)
    (hw : s.cache.WellFormed)
    (h : (do
      let a ← allocIn g
      let b ← allocIn g'
      let dst ← allocOut d
      emit (op dst a b)) s = .ok u s') :
    Realizes σ s s' (fun m => m.setReg d (φ (m.regs.get g) (m.regs.get g'))) := by
  obtain ⟨a, s1, h1, h⟩ := bind_ok h
  obtain ⟨b, s2, h2, h⟩ := bind_ok h
  obtain ⟨dst, s3, h3, h4⟩ := bind_ok h
  cases h4
  refine (((reading_nil σ hw).read hg h1).read hg' h2).put hd h0 h3
    (φ := fun host => φ host[a] host[b]) (v := fun m => φ (m.regs.get g) (m.regs.get g'))
    (hs dst a b) (hop dst a b) ?_
  intro host m hval
  rw [hval (a, g) (by simp), hval (b, g') (by simp)]

/-! ## Multiplication and division -/

omit [Device δ] [Coprocessor κ] in
/-- What LO and HI held in between does not matter. -/
theorem setReg_lo_hi (m : Machine δ κ) (x y v w : UInt32) :
    (((m.setReg .lo x).setReg .hi y).setReg .lo v).setReg .hi w = (m.setReg .lo v).setReg .hi w := by
  have hregs : (((m.regs.set .lo x).set .hi y).set .lo v).set .hi w =
      (m.regs.set .lo v).set .hi w := by
    rw [Registers.set_comm Reg.isOwn_lo Reg.isOwn_hi (by decide) m.regs, Registers.set_set_self,
      Registers.set_comm Reg.isOwn_hi Reg.isOwn_lo (by decide), Registers.set_set_self]
  exact congrArg (fun regs => { m with regs }) hregs

theorem mulDiv_ok (σ : Site δ κ) {kind : MulDivOp} (hw : s.cache.WellFormed) (h : (do
      let a ← allocIn i.rs
      let b ← allocIn i.rt
      let lo ← allocOut .lo
      let hi ← allocOut .hi
      emit (.mulDiv kind a b lo hi)) s = .ok u s') :
    Realizes σ s s' (fun m =>
      (m.setReg .lo (kind.apply (m.regs.get i.rs) (m.regs.get i.rt)).lo).setReg .hi
        (kind.apply (m.regs.get i.rs) (m.regs.get i.rt)).hi) := by
  obtain ⟨a, s1, h1, h⟩ := bind_ok h
  obtain ⟨b, s2, h2, h⟩ := bind_ok h
  obtain ⟨lo, s3, h3, h⟩ := bind_ok h
  obtain ⟨hi, s4, h4, h5⟩ := bind_ok h
  cases h5
  have hr := ((reading_nil σ hw).read i.isOwn_rs h1).read i.isOwn_rt h2
  have hlo := allocOut_ok σ hr.wellFormed Reg.isOwn_lo (by decide) h3
  have hhi := allocOut_ok σ hlo.wellFormed Reg.isOwn_hi (by decide) h4
  -- The first result keeps its register while the second one gets its own.
  obtain ⟨-, hguest, hdirty⟩ := hhi.keeps lo hlo.locked
  obtain ⟨ops, he, hrun⟩ := hr.line
  obtain ⟨ops3, he3, hrun3⟩ := hlo.line
  obtain ⟨ops4, he4, hrun4⟩ := hhi.line
  refine ⟨ops ++ (ops3 ++ (ops4 ++ [.mulDiv kind a b lo hi])),
    he.trans (he3.trans (he4.trans (Extends.push (by trivial) hhi.wellFormed))), ?_⟩
  intro f c hst
  obtain ⟨f2, hr2, hst2, hval, hc2, ht2⟩ := hrun hst
  obtain ⟨f3, hr3, hst3, hhost3, -, hc3, ht3⟩ := hrun3 hst2
  obtain ⟨f4, hr4, hst4, hhost4, -, hc4, ht4⟩ := hrun4 hst3
  rw [← hhost3, ← hhost4] at hval
  have ha := hval (a, i.rs) (by simp)
  have hb := hval (b, i.rt) (by simp)
  have hput := stands_put hhi.wellFormed hhi.guest hhi.dirty
    (stands_put hhi.wellFormed (hguest.trans hlo.guest) (hdirty hlo.dirty) hst4
      (kind.apply f4.host[a] f4.host[b]).lo) (kind.apply f4.host[a] f4.host[b]).hi
  rw [setReg_lo_hi, ha, hb] at hput
  refine ⟨_, ?_, hput.withControl f4.condition f4.target (f4.place + 1),
    hc4.trans (hc3.trans hc2), ht4.trans (ht3.trans ht2)⟩
  rw [runLine_append_of_running hr2, runLine_append_of_running hr3, runLine_append_of_running hr4,
    ← ha, ← hb]
  rfl

/-! ## Coprocessors -/

/-- An operation that calls into the machine, with everything charged that it may look at. -/
theorem Reading.call {operands : List (HostReg × Reg)} (hr : Reading σ s s' operands)
    (hlag : s'.cycles = 0) {op : HostOp} (hs : op.IsStraight) {φ : Cells 8 UInt32 → UInt32}
    {v : Machine δ κ → UInt32} {K : UInt32 → Machine δ κ → Machine δ κ}
    (hop : ∀ f : Frame δ κ,
      perform σ.source.pc f op = { f with machine := K (φ f.host) f.machine }.goOn)
    (hK : ∀ x {E : EntryTable → EntryTable → Prop} {R : Registers → Registers → Prop}
      {a b : Machine δ κ}, Machine.Agrees E R a b → Machine.Agrees E R (K x a) (K x b))
    (hv : ∀ {host m},
      (∀ j ∈ operands, host[j.1] = m.regs.get j.2) → φ host = v m) :
    Realizes σ s { s' with program := s'.program.push op } (fun m => K (v m) m) := by
  obtain ⟨ops, he, hrun⟩ := hr.line
  refine ⟨ops ++ [op], he.trans (Extends.push hs hr.wellFormed), ?_⟩
  intro f c hst
  obtain ⟨f1, hr1, hst1, hval, hcontrol⟩ := hrun hst
  rw [hlag] at hst1
  have hm := hst1.mirrors
  have hregs : (K (v c.machine) c.machine).regs = c.machine.regs :=
    (hK _ (Machine.agrees_self (R := fun x _ => x = c.machine.regs) rfl)).regs
  have hst2 : Stands σ s'.cache 0 { f1 with machine := K (v c.machine) f1.machine }
      { c with machine := K (v c.machine) c.machine } :=
    Mirrors.stands ⟨hK _ hm.agrees, hm.tags, hm.retags⟩
      (hregs ▸ hst.zero)
  refine ⟨{ f1 with machine := K (v c.machine) f1.machine, place := f1.place + 1 }, ?_,
    hlag ▸ hst2.withControl _ _ _, hcontrol⟩
  rw [runLine_append_of_running hr1, runLine_cons_of_running (hop f1), hv hval]
  rfl

theorem copWrite_ok (σ : Site δ κ) (control : Bool) {k : HostReg} (hw : s.cache.WellFormed)
    (h1 : beforeCall s = .ok u s') (h2 : allocIn i.rt s' = .ok k s'') :
    Realizes σ s { s'' with program := s''.program.push (.copWrite i i.rd control k) }
      (fun m => m.copWrite i i.rd (m.regs.get i.rt) control) := by
  obtain ⟨hr1, hlag, -⟩ := beforeCall_ok σ hw h1
  have hr := (reading_nil σ hr1.wellFormed).read i.isOwn_rt h2
  refine hr1.trans (hr.call (φ := fun host => host[k]) (v := fun m => m.regs.get i.rt)
    (K := fun x m => m.copWrite i i.rd x control) (hr.cycles.trans hlag) (by trivial)
    (fun _ => rfl) (fun x _ _ _ _ ha => ha.copWrite i i.rd x control) ?_)
  intro host m hval
  exact hval (k, i.rt) (by simp)

/-- A value read from a coprocessor into a register made ready for it. -/
theorem copRead_ok_of_ne {control : Bool} {k : HostReg} (hready : Readying σ s s' i.rt k)
    (hlag : s.cycles = 0) :
    Realizes σ s { s' with program := s'.program.push (.copRead i i.rd control k) }
      (fun m => (m.copRead i i.rd control).2.setReg i.rt (m.copRead i i.rd control).1) := by
  obtain ⟨ops, he, hrun⟩ := hready.line
  have hlag' : s'.cycles = 0 := hready.cycles.trans hlag
  refine ⟨ops ++ [.copRead i i.rd control k],
    he.trans (Extends.push (by trivial) hready.wellFormed), ?_⟩
  intro f c hst
  obtain ⟨f1, hr1, hst1, -, -, hcontrol⟩ := hrun hst
  rw [hlag'] at hst1
  have hm := hst1.mirrors.of_setReg
  obtain ⟨hv, ha⟩ := hm.agrees.copRead i i.rd control
  have hregs := c.machine.regs_copRead i i.rd control
  rcases hf : f1.machine.copRead i i.rd control with ⟨v, m⟩
  rcases hc : c.machine.copRead i i.rd control with ⟨v', m'⟩
  rw [hf, hc] at hv ha
  rw [hc] at hregs
  cases hv
  -- what was in the register before is overwritten
  have hput := ha.regs.put hready.wellFormed hready.guest hready.dirty v
  rw [Registers.set_set_self] at hput
  have hzero : σ.exact → (m'.setReg i.rt v).regs.get 0 = 0 := by
    rw [Interpreter.get_zero_setReg i.isOwn_rt, hregs]
    exact hst.zero
  have hst2 : Stands σ s'.cache 0 ({ f1 with machine := m }.put k v)
      { c with machine := m'.setReg i.rt v } :=
    Mirrors.stands ⟨ha.withRegs hput, hm.tags, hm.retags⟩ hzero
  refine ⟨{ ({ f1 with machine := m }.put k v) with place := f1.place + 1 }, ?_, ?_, hcontrol⟩
  · rw [runLine_append_of_running hr1, runLine, perform, hf]
    rfl
  · dsimp only
    rw [hc]
    exact hlag' ▸ hst2.withControl _ _ _

/-- A value read from a coprocessor and dropped. -/
theorem copRead_ok_of_eq (σ : Site δ κ) {control : Bool} {k : HostReg} (h0 : i.rt = 0)
    (hw : s.cache.WellFormed) (hlag : s.cycles = 0) (h : allocTemp s = .ok k s') :
    Realizes σ s { s' with program := s'.program.push (.copRead i i.rd control k) }
      (fun m => (m.copRead i i.rd control).2.setReg i.rt (m.copRead i i.rd control).1) := by
  obtain ⟨a, ha, rfl, rfl⟩ := allocate_ok h
  have hd := RegisterCache.Lends.of_allocTemp? hw ha
  refine (realizes_transfers σ hd.wellFormed hd.holds).id_trans
    ⟨[.copRead i i.rd control a.host], Extends.push (by trivial) hd.wellFormed, ?_⟩
  intro f c hst
  rw [show ({ s with program := pushTransfers s.program a.transfers, cache := a.cache } :
    Lowering).cycles = 0 from hlag] at hst
  have hm := hst.mirrors
  obtain ⟨-, hagree⟩ := hm.agrees.copRead i i.rd control
  have hregs := c.machine.regs_copRead i i.rd control
  rcases hf : f.machine.copRead i i.rd control with ⟨v, m⟩
  rcases hc : c.machine.copRead i i.rd control with ⟨v', m'⟩
  rw [hf, hc] at hagree
  rw [hc] at hregs
  have hst2 : Stands σ a.cache 0 ({ f with machine := m }.put a.host v) { c with machine := m' } :=
    Mirrors.stands ⟨hagree.imp fun hb => hb.put_unmapped hd.guest v, hm.tags, hm.retags⟩
      (hregs ▸ hst.zero)
  refine ⟨{ ({ f with machine := m }.put a.host v) with place := f.place + 1 }, ?_, ?_, rfl, rfl⟩
  · rw [runLine, perform, hf]
    rfl
  · dsimp only
    rw [hc, h0, Interpreter.setReg_zero]
    exact hlag ▸ hst2.withControl _ _ _

/-! ## All of them -/

/-- The code of an instruction that is no branch does what the interpreter does for it. -/
theorem lowerSimple_ok {index : Nat} {o : Op} {addr : UInt32} (hw : s.cache.WellFormed)
    (ho : σ.source.ops[index]? = some o)
    (hidx : ∀ access, o.instr.operation = .memory access → index < 65536)
    (hslot : o.instr.hasDelaySlot = false) (haddr : addr = σ.source.pc + index.toUInt32 * 4)
    (h : lowerSimple index o addr s = .ok u s') : Executes σ s s' id index o.instr addr := by
  rw [lowerSimple_eq] at h
  unfold lowerOperation at h
  rw [Instruction.hasDelaySlot_eq] at hslot
  -- in each case the effect `F` of the code is the one that the interpreter computes
  have hexec {operation : Operation} (hop : o.instr.operation = operation)
      {F : Machine δ κ → Machine δ κ} (hr : Realizes σ s s' F)
      (hF : ∀ m, executeOperation m o.instr operation addr = { machine := F m }) :
      Executes σ s s' id index o.instr addr := by
    refine hr.executes fun m => ?_
    rw [execute_eq, hop]
    exact hF m
  cases hop : o.instr.operation with
  | shift kind =>
    simp only [hop] at h
    exact hexec hop (unless_zero_ok hw (fun h0 h => unary_ok σ o.instr.isOwn_rt o.instr.isOwn_rd h0
      (fun k a => .aluImmediate kind k a o.instr.shamt) (fun _ _ => trivial)
      (fun x => kind.apply x o.instr.shamt) (fun _ _ _ => rfl) hw h) h) fun _ => rfl
  | shiftVariable kind =>
    simp only [hop] at h
    exact hexec hop (unless_zero_ok hw (fun h0 h => binary_ok σ o.instr.isOwn_rt o.instr.isOwn_rs
      o.instr.isOwn_rd h0 (fun k a b => .alu kind k a b) (fun _ _ _ => trivial) kind.apply
      (fun _ _ _ _ => rfl) hw h) h) fun _ => rfl
  | alu kind trapping =>
    simp only [hop] at h
    exact hexec hop (unless_zero_ok hw (fun h0 h => binary_ok σ o.instr.isOwn_rs o.instr.isOwn_rt
      o.instr.isOwn_rd h0 (fun k a b => .alu kind k a b) (fun _ _ _ => trivial) kind.apply
      (fun _ _ _ _ => rfl) hw h) h) fun _ => rfl
  | aluImmediate kind trapping =>
    simp only [hop] at h
    exact hexec hop (unless_zero_ok hw (fun h0 h => unary_ok σ o.instr.isOwn_rs o.instr.isOwn_rt h0
      (fun k a => .aluImmediate kind k a (o.instr.extended kind)) (fun _ _ => trivial)
      (fun x => kind.apply x (o.instr.extended kind)) (fun _ _ _ => rfl) hw h) h) fun _ => rfl
  | loadUpper =>
    simp only [hop] at h
    exact hexec hop (unless_zero_ok hw (fun h0 h => const_ok σ o.instr.isOwn_rt h0 hw h) h)
      fun _ => rfl
  | moveFromHi =>
    simp only [hop] at h
    exact hexec hop (unless_zero_ok hw (fun h0 h => unary_ok σ Reg.isOwn_hi o.instr.isOwn_rd h0
      .move (fun _ _ => trivial) id (fun _ _ _ => rfl) hw h) h) fun _ => rfl
  | moveFromLo =>
    simp only [hop] at h
    exact hexec hop (unless_zero_ok hw (fun h0 h => unary_ok σ Reg.isOwn_lo o.instr.isOwn_rd h0
      .move (fun _ _ => trivial) id (fun _ _ _ => rfl) hw h) h) fun _ => rfl
  | moveToHi =>
    simp only [hop] at h
    exact hexec hop (unary_ok σ o.instr.isOwn_rs Reg.isOwn_hi (by decide) .move (fun _ _ => trivial)
      id (fun _ _ _ => rfl) hw h) fun _ => rfl
  | moveToLo =>
    simp only [hop] at h
    exact hexec hop (unary_ok σ o.instr.isOwn_rs Reg.isOwn_lo (by decide) .move (fun _ _ => trivial)
      id (fun _ _ _ => rfl) hw h) fun _ => rfl
  | mulDiv kind =>
    simp only [hop] at h
    exact hexec hop (mulDiv_ok σ hw h) fun _ => rfl
  | syscall =>
    simp only [hop] at h
    refine (raise_exit_ok σ hw h).executes fun m => ?_
    rw [execute_eq, hop]
    rfl
  | breakpoint =>
    simp only [hop] at h
    refine (raise_exit_ok σ hw h).executes fun m => ?_
    rw [execute_eq, hop]
    rfl
  | copExecute =>
    simp only [hop] at h
    obtain ⟨_, s1, h1, h2⟩ := bind_ok h
    cases h2
    obtain ⟨hr, hlag, -⟩ := beforeCall_ok σ hw h1
    exact hexec hop (hr.id_trans ((reading_nil σ hr.wellFormed).call (φ := fun _ => 0)
      (v := fun _ => 0) (K := fun _ m => m.copExecute o.instr) hlag (by trivial) (fun _ => rfl)
      (fun _ _ _ _ _ ha => ha.copExecute o.instr) (fun _ => rfl))) fun _ => rfl
  | copRead control =>
    simp only [hop] at h
    obtain ⟨_, s1, h1, h⟩ := bind_ok h
    obtain ⟨hr, hlag, -⟩ := beforeCall_ok σ hw h1
    refine hexec hop (F := fun m => (m.copRead o.instr o.instr.rd control).2.setReg o.instr.rt
      (m.copRead o.instr o.instr.rd control).1) (hr.id_trans ?_)
      fun _ => rfl
    split at h
    · rename_i h0
      obtain ⟨k, s2, h2, h3⟩ := bind_ok h
      cases h3
      exact copRead_ok_of_ne (allocOut_ok σ hr.wellFormed o.instr.isOwn_rt h0 h2) hlag
    · rename_i h0
      obtain ⟨k, s2, h2, h3⟩ := bind_ok h
      cases h3
      exact copRead_ok_of_eq σ (Decidable.not_not.mp h0) hr.wellFormed hlag h2
  | copWrite control =>
    simp only [hop] at h
    obtain ⟨_, s1, h1, h⟩ := bind_ok h
    obtain ⟨k, s2, h2, h⟩ := bind_ok h
    obtain ⟨_, s3, h3, h⟩ := bind_ok h
    cases h3
    have hr := copWrite_ok σ control hw h1 h2
    split at h
    · rename_i hsys
      obtain ⟨hl, -, -⟩ :=
        exitWith_ok σ (fun _ => addr + 4) (by trivial) (fun _ => rfl) hr.wellFormed h
      refine (hr.leaves hl).executes fun m => ?_
      rw [execute_eq, hop]
      simp only [executeOperation, hsys, if_true]
      rfl
    · rename_i hsys
      cases h
      refine hexec hop hr fun m => ?_
      simp only [executeOperation, hsys, Bool.false_eq_true, if_false]
  | memory access =>
    simp only [hop] at h
    subst haddr
    exact lowerAccess_ok hw ho (hidx _ hop) hop h
  | unknown =>
    simp only [hop] at h
    split at h
    · obtain ⟨_, s1, h1, h2⟩ := bind_ok h
      obtain ⟨hr, -, -⟩ := beforeCall_ok σ hw h1
      exact hr.thenExecutes (lowerUnknown_ok σ hr.wellFormed hop h2)
    · exact lowerUnknown_ok σ hw hop h
  | jumpRegister | jumpLinkRegister | jump | jumpLink | branch =>
    rw [hop] at hslot
    cases hslot

end Dynarec.Lowering
