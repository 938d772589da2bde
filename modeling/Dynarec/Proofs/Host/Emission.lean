/-
  Dynarec.Proofs.Host.Emission

  What the steps of code generation emit.

  A step goes from one state of the generator to another and appends a straight
  line of operations. `Realizes` says that this line does to every frame what
  `F` does to the machine of the cursor it stands for; `Leaves` that it ends
  the code instead. The operands of an instruction are gathered by `Reading`
  and its result is put in place by `Reading.put`.
-/
import Dynarec.Host.Lowering
import Dynarec.Proofs.Host.Correspondence
import Dynarec.Proofs.Stateful

namespace Dynarec.Lowering

open HostProgram
open Interpreter (Cursor)

/-! ## Steps of code generation -/

/-- A choice between two first steps of the same computation. -/
theorem ite_bind_ok {α β : Type} {p : Prop} [Decidable p] {x y : LowerM α} {k : α → LowerM β}
    {s s'' : Lowering} {v : β} (h : (if p then x >>= k else y >>= k) s = .ok v s'') :
    ∃ u s', (if p then x else y) s = .ok u s' ∧ k u s' = .ok v s'' := by
  split at h
  · rename_i hp
    obtain ⟨u, s', hx, hk⟩ := bind_ok h
    exact ⟨u, s', by rw [if_pos hp]; exact hx, hk⟩
  · rename_i hp
    obtain ⟨u, s', hy, hk⟩ := bind_ok h
    exact ⟨u, s', by rw [if_neg hp]; exact hy, hk⟩

theorem toList_pushTransfers (program : Array HostOp) (ts : List RegisterTransfer) :
    (pushTransfers program ts).toList = program.toList ++ ts.map transferOp := by
  unfold pushTransfers
  induction ts generalizing program with
  | nil => simp
  | cons t ts ih =>
    rw [List.foldl_cons, ih, Array.toList_push, List.append_assoc]
    rfl

theorem allocate_ok {request : RegisterCache → Option RegisterCache.Allocation} {s s' : Lowering}
    {host : HostReg} (h : allocate request s = .ok host s') :
    ∃ a, request s.cache = some a ∧ host = a.host ∧
      s' = { s with cache := a.cache, program := pushTransfers s.program a.transfers } := by
  unfold allocate at h
  obtain ⟨found, s1, h1, h2⟩ := bind_ok h
  have hfound := modifyGet_ok h1
  cases hr : request s.cache with
  | none =>
    rw [hr] at hfound
    cases hfound
    cases h2
  | some a =>
    rw [hr] at hfound
    cases hfound
    cases h2
    exact ⟨a, rfl, rfl, rfl⟩

/-! ## Straight lines -/

/-- From `s` to `s'` the generator appended `ops`, all straight. -/
structure Extends (s s' : Lowering) (ops : List HostOp) : Prop where
  program : s'.program.toList = s.program.toList ++ ops
  labels : s'.labels = s.labels
  fixups : s'.fixups = s.fixups
  straight : ∀ op ∈ ops, op.IsStraight
  wellFormed : s'.cache.WellFormed

variable {s s' s'' : Lowering}

theorem Extends.refl (hw : s.cache.WellFormed) : s.Extends s [] :=
  ⟨by simp, rfl, rfl, by simp, hw⟩

theorem Extends.trans {ops ops' : List HostOp} (h1 : s.Extends s' ops) (h2 : s'.Extends s'' ops') :
    s.Extends s'' (ops ++ ops') where
  program := by rw [h2.program, h1.program, List.append_assoc]
  labels := h2.labels.trans h1.labels
  fixups := h2.fixups.trans h1.fixups
  straight := by
    intro op hop
    rcases List.mem_append.mp hop with hop | hop
    · exact h1.straight op hop
    · exact h2.straight op hop
  wellFormed := h2.wellFormed

theorem Extends.push {op : HostOp} (hs : op.IsStraight) (hw : s.cache.WellFormed) :
    s.Extends { s with program := s.program.push op } [op] where
  program := by simp
  labels := rfl
  fixups := rfl
  straight := by simpa using hs
  wellFormed := hw

theorem isStraight_transferOp (t : RegisterTransfer) : (transferOp t).IsStraight := by
  cases t <;> trivial

theorem Extends.transfers {cache : RegisterCache} (hw : cache.WellFormed)
    (ts : List RegisterTransfer) :
    s.Extends { s with program := pushTransfers s.program ts, cache } (ts.map transferOp) where
  program := toList_pushTransfers _ _
  labels := rfl
  fixups := rfl
  straight := by
    intro op hop
    obtain ⟨t, -, rfl⟩ := List.mem_map.mp hop
    exact isStraight_transferOp t
  wellFormed := hw

variable {δ κ : Type} [Device δ] [Coprocessor κ]

/-- Transfers between host registers and register file, as a line of operations. -/
theorem runLine_transfers (pc : UInt32) (ts : List RegisterTransfer) (f : Frame δ κ) :
    runLine pc (ts.map transferOp) f = .running { f with
      host := (RegisterTransfer.runAll ts { host := f.host, file := f.machine.regs }).host
      machine := { f.machine with
        regs := (RegisterTransfer.runAll ts { host := f.host, file := f.machine.regs }).file }
      place := f.place + ts.length } := by
  induction ts generalizing f with
  | nil => rfl
  | cons t ts ih =>
    cases t with
    | load h g =>
      rw [List.map_cons, runLine_cons_of_running rfl, ih, List.length_cons, Nat.add_comm ts.length,
        ← Nat.add_assoc]
      rfl
    | store h g =>
      rw [List.map_cons, runLine_cons_of_running rfl, ih, List.length_cons, Nat.add_comm ts.length,
        ← Nat.add_assoc]
      rfl

/-- From `s` to `s'` the generator appended a line that has the effect `F`. -/
def Realizes (σ : Site δ κ) (s s' : Lowering) (F : Machine δ κ → Machine δ κ) : Prop :=
  ∃ ops, s.Extends s' ops ∧ ∀ {f : Frame δ κ} {c : Cursor δ κ},
    Stands σ s.cache s.cycles f c →
      ∃ f', runLine σ.source.pc ops f = .running f' ∧
        Stands σ s'.cache s'.cycles f' { c with machine := F c.machine } ∧
        f'.condition = f.condition ∧ f'.target = f.target

/-- From `s` to `s'` the generator appended a line that has the effect `F` and leaves the code,
for an address that may be the target of the register jump at hand. -/
def Leaves (σ : Site δ κ) (s s' : Lowering) (F : Machine δ κ → Machine δ κ)
    (next : UInt32 → UInt32) : Prop :=
  ∃ ops, s.Extends s' ops ∧ ∀ {f : Frame δ κ} {c : Cursor δ κ},
    Stands σ s.cache s.cycles f c →
      ∃ r, runLine σ.source.pc ops f = .finished r ∧
        Ends σ r { c with machine := F c.machine } (next f.target)

variable {σ : Site δ κ} {F G : Machine δ κ → Machine δ κ}

theorem Realizes.wellFormed (h : Realizes σ s s' F) : s'.cache.WellFormed := by
  obtain ⟨ops, he, -⟩ := h
  exact he.wellFormed

theorem Realizes.trans (h1 : Realizes σ s s' F) (h2 : Realizes σ s' s'' G) :
    Realizes σ s s'' (fun m => G (F m)) := by
  obtain ⟨ops, he, hrun⟩ := h1
  obtain ⟨ops', he', hrun'⟩ := h2
  refine ⟨ops ++ ops', he.trans he', fun hst => ?_⟩
  obtain ⟨f1, hr1, hst1, hc1, ht1⟩ := hrun hst
  obtain ⟨f2, hr2, hst2, hc2, ht2⟩ := hrun' hst1
  exact ⟨f2, (runLine_append_of_running hr1 ops').trans hr2, hst2, hc2.trans hc1, ht2.trans ht1⟩

theorem Realizes.id_trans (h1 : Realizes σ s s' id) (h2 : Realizes σ s' s'' G) :
    Realizes σ s s'' G := h1.trans h2

theorem Realizes.leaves {next : UInt32 → UInt32} (h1 : Realizes σ s s' F)
    (h2 : Leaves σ s' s'' G next) : Leaves σ s s'' (fun m => G (F m)) next := by
  obtain ⟨ops, he, hrun⟩ := h1
  obtain ⟨ops', he', hrun'⟩ := h2
  refine ⟨ops ++ ops', he.trans he', fun hst => ?_⟩
  obtain ⟨f1, hr1, hst1, -, ht1⟩ := hrun hst
  obtain ⟨r, hr, hend⟩ := hrun' hst1
  exact ⟨r, (runLine_append_of_running hr1 ops').trans hr, ht1 ▸ hend⟩

/-! ## Registers, cycles and exits -/

section Steps

variable (σ : Site δ κ)

theorem realizes_refl (hw : s.cache.WellFormed) : Realizes σ s s id :=
  ⟨[], Extends.refl hw, fun hst => ⟨_, rfl, hst, rfl, rfl⟩⟩

/-- Transfers after which the registers are as the new cache says. -/
theorem realizes_transfers {cache : RegisterCache} {ts : List RegisterTransfer}
    (hw : cache.WellFormed)
    (hb : ∀ {bank regs}, s.cache.Holds bank regs →
      cache.Holds (RegisterTransfer.runAll ts bank) regs) :
    Realizes σ s { s with program := pushTransfers s.program ts, cache } id :=
  ⟨_, Extends.transfers hw ts, fun hst =>
    ⟨_, runLine_transfers _ ts _, hst.withBank (hb hst.agrees.regs) hst.zero _, rfl, rfl⟩⟩

variable {u : Unit}

section

variable (hw : s.cache.WellFormed)
include hw

theorem releaseLocks_ok (h : releaseLocks s = .ok u s') :
    Realizes σ s s' id ∧ s'.cycles = s.cycles := by
  cases h
  have hs := s.cache.sameUse_releaseLocks
  exact ⟨⟨[], ⟨by simp, rfl, rfl, by simp, hs.wellFormed hw⟩,
    fun hst => ⟨_, rfl, hst.withCache hs, rfl, rfl⟩⟩, rfl⟩

theorem charge_ok {cycles : UInt32}
    (h : charge cycles s = .ok u s') : Realizes σ s s' (·.tick cycles) := by
  cases h
  exact ⟨[], ⟨by simp, rfl, rfl, by simp, hw⟩, fun hst => ⟨_, rfl, hst.charge cycles, rfl, rfl⟩⟩

theorem flushCycles_ok (h : flushCycles s = .ok u s') :
    Realizes σ s s' id ∧ s'.cycles = 0 ∧ s'.cache = s.cache := by
  cases h
  dsimp only
  split
  · rename_i hzero
    exact ⟨realizes_refl σ hw, hzero, rfl⟩
  · refine ⟨⟨[.tick s.cycles], ⟨by simp, rfl, rfl, by simp [HostOp.IsStraight], hw⟩, ?_⟩, rfl, rfl⟩
    intro f c hst
    exact ⟨{ f with machine := f.machine.tick s.cycles, place := f.place + 1 }, rfl,
      hst.caughtUp _, rfl, rfl⟩

theorem flushAll_ok (h : flushAll s = .ok u s') :
    Realizes σ s s' id ∧ s'.cycles = s.cycles ∧ s'.cache.Clean := by
  cases h
  refine ⟨realizes_transfers σ (RegisterCache.wellFormed_flushAll hw) ?_, rfl,
    RegisterCache.clean_flushAll hw⟩
  intro bank regs hb
  have hfile := RegisterCache.runAll_flushAll hw hb
  exact hfile ▸ RegisterCache.holds_flushAll hb

theorem unloadAll_ok (h : unloadAll s = .ok u s') :
    Realizes σ s s' id ∧ s'.cycles = s.cycles ∧ s'.cache.Empty := by
  cases h
  refine ⟨realizes_transfers σ s.cache.wellFormed_unloadAll ?_, rfl, s.cache.empty_unloadAll⟩
  intro bank regs hb
  refine s.cache.empty_unloadAll.holds_iff.mpr ?_
  exact congrArg Bank.file (RegisterCache.runAll_flushAll hw hb)

theorem beforeCall_ok (h : beforeCall s = .ok u s') :
    Realizes σ s s' id ∧ s'.cycles = 0 ∧ s'.cache.Clean := by
  obtain ⟨_, s1, h1, h2⟩ := bind_ok h
  obtain ⟨hr1, hc1, -⟩ := flushCycles_ok σ hw h1
  obtain ⟨hr2, hc2, hclean⟩ := flushAll_ok σ hr1.wellFormed h2
  exact ⟨hr1.trans hr2, hc2.trans hc1, hclean⟩

end

/-- An operation that leaves the code, with everything charged and written back. -/
theorem emit_leaves (op : HostOp) (next : UInt32 → UInt32) (hs : op.IsStraight)
    (hop : ∀ f : Frame δ κ, perform σ.source.pc f op = f.leave (next f.target))
    (hw : s.cache.WellFormed) (hlag : s.cycles = 0) (hempty : s.cache.Empty) :
    Leaves σ s { s with program := s.program.push op } id next := by
  refine ⟨[op], Extends.push hs hw, ?_⟩
  intro f c hst
  rw [hlag] at hst
  obtain ⟨r, hr, hend⟩ := hst.ends (hempty.clean hw) (next f.target)
  exact ⟨r, runLine_cons_of_finished ((hop f).trans hr) [], hend⟩

theorem exitWith_ok {op : HostOp} (next : UInt32 → UInt32) (hs : op.IsStraight)
    (hop : ∀ f : Frame δ κ, perform σ.source.pc f op = f.leave (next f.target))
    (hw : s.cache.WellFormed) (h : exitWith op s = .ok u s') :
    Leaves σ s s' id next ∧ s'.cycles = 0 ∧ s'.cache.Empty := by
  obtain ⟨_, s1, h1, h⟩ := bind_ok h
  obtain ⟨_, s2, h2, h3⟩ := bind_ok h
  obtain ⟨hr1, hc1, -⟩ := flushCycles_ok σ hw h1
  obtain ⟨hr2, hc2, hempty⟩ := unloadAll_ok σ hr1.wellFormed h2
  have hlag : s2.cycles = 0 := hc2.trans hc1
  cases h3
  exact ⟨(hr1.trans hr2).leaves (emit_leaves σ op next hs hop hr2.wellFormed hlag hempty), hlag,
    hempty⟩

end Steps

/-! ## Operands -/

/-- From `s` to `s'` operands were loaded: each locked host register has the value of its
guest register. -/
structure Reading (σ : Site δ κ) (s s' : Lowering) (operands : List (HostReg × Reg)) : Prop where
  cycles : s'.cycles = s.cycles
  clean : s.cache.Clean → s'.cache.Clean
  locked : ∀ k ∈ operands, s'.cache.slots[k.1].locked = true
  line : ∃ ops, s.Extends s' ops ∧ ∀ {f : Frame δ κ} {c : Cursor δ κ},
    Stands σ s.cache s.cycles f c →
      ∃ f', runLine σ.source.pc ops f = .running f' ∧ Stands σ s'.cache s'.cycles f' c ∧
        (∀ k ∈ operands, f'.host[k.1] = c.machine.regs.get k.2) ∧
        f'.condition = f.condition ∧ f'.target = f.target

variable {operands : List (HostReg × Reg)}

theorem Reading.wellFormed (h : Reading σ s s' operands) : s'.cache.WellFormed := by
  obtain ⟨ops, he, -⟩ := h.line
  exact he.wellFormed

theorem reading_nil (σ : Site δ κ) (hw : s.cache.WellFormed) : Reading σ s s [] where
  cycles := rfl
  clean := id
  locked := by simp
  line := ⟨[], Extends.refl hw, fun hst => ⟨_, rfl, hst, by simp, rfl, rfl⟩⟩

variable {k : HostReg}

/-- One more operand. -/
theorem Reading.read (hr : Reading σ s s' operands) {g : Reg} (hown : g.IsOwn)
    (h : allocIn g s' = .ok k s'') :
    Reading σ s s'' ((k, g) :: operands) := by
  obtain ⟨a, ha, rfl, rfl⟩ := allocate_ok h
  have hd := RegisterCache.Reads.of_allocIn? hr.wellFormed hown ha
  refine ⟨hr.cycles, fun hc => hd.clean (hr.clean hc), ?_, ?_⟩
  · intro j hj
    rcases List.mem_cons.mp hj with rfl | hj
    · exact hd.locked
    · exact (hd.keeps j.1 (hr.locked j hj)).1
  · obtain ⟨ops, he, hrun⟩ := hr.line
    refine ⟨ops ++ a.transfers.map transferOp, he.trans (Extends.transfers hd.wellFormed _), ?_⟩
    intro f c hst
    obtain ⟨f1, hr1, hst1, hval, hcond, htar⟩ := hrun hst
    have hholds := hd.holds hst1.agrees.regs
    refine ⟨_, (runLine_append_of_running hr1 _).trans (runLine_transfers _ _ _),
      hst1.withBank hholds hst.zero _, ?_, hcond, htar⟩
    intro j hj
    rcases List.mem_cons.mp hj with rfl | hj
    · exact hholds.mapped hd.guest
    · -- operands before this one are locked, so loading it left them alone
      exact (hd.stable _ (hr.locked j hj)).trans (hval j hj)

/-! ## Results -/

/-- From `s` to `s'` host register `k` was made ready for a new value of `d`. Until it gets
one, `d` has whatever the host register holds. -/
structure Readying (σ : Site δ κ) (s s' : Lowering) (d : Reg) (k : HostReg) : Prop where
  cycles : s'.cycles = s.cycles
  guest : s'.cache.slots[k].guest = some d
  dirty : s'.cache.slots[k].dirty = true
  locked : s'.cache.slots[k].locked = true
  keeps : s.cache.Keeps s'.cache
  line : ∃ ops, s.Extends s' ops ∧ ∀ {f : Frame δ κ} {c : Cursor δ κ},
    Stands σ s.cache s.cycles f c →
      ∃ f', runLine σ.source.pc ops f = .running f' ∧
        Stands σ s'.cache s'.cycles f' { c with machine := c.machine.setReg d f.host[k] } ∧
        f'.host = f.host ∧ (s.cache.Clean → f'.machine.regs = f.machine.regs) ∧
        f'.condition = f.condition ∧ f'.target = f.target

theorem Readying.wellFormed {d : Reg} (h : Readying σ s s' d k) : s'.cache.WellFormed := by
  obtain ⟨ops, he, -⟩ := h.line
  exact he.wellFormed

theorem allocOut_ok (σ : Site δ κ) (hw : s.cache.WellFormed) {d : Reg} (hown : d.IsOwn) (h0 : d ≠ 0)
    (h : allocOut d s = .ok k s') : Readying σ s s' d k := by
  obtain ⟨a, ha, rfl, rfl⟩ := allocate_ok h
  have hd := RegisterCache.Writes.of_allocOut? hw hown h0 ha
  refine ⟨rfl, hd.guest, hd.dirty, hd.locked, hd.keeps, _, Extends.transfers hd.wellFormed _, ?_⟩
  intro f c hst
  have hzero (hx : σ.exact) : (c.machine.regs.set d f.host[a.host]).get 0 = 0 :=
    (Interpreter.get_zero_setReg hown c.machine _).trans (hst.zero hx)
  refine ⟨_, runLine_transfers _ _ _, hst.withBank (hd.holds hst.agrees.regs) hzero _,
    hd.stable _, ?_, rfl, rfl⟩
  intro hc
  exact congrArg Bank.file (hd.file hc _)

omit [Device δ] [Coprocessor κ] in
/-- The value that a register made ready gets. -/
theorem stands_put {cache : RegisterCache} {lag : UInt32} {f : Frame δ κ} {c : Cursor δ κ}
    (hw : cache.WellFormed) {d : Reg} (hg : cache.slots[k].guest = some d)
    (hd : cache.slots[k].dirty = true) (h : Stands σ cache lag f c) (v : UInt32) :
    Stands σ cache lag (f.put k v) { c with machine := c.machine.setReg d v } where
  agrees := h.agrees.withRegs (h.agrees.regs.put hw hg hd v)
  zero hx := (Interpreter.get_zero_setReg (hw.own hg) c.machine v).trans (h.zero hx)
  tags := h.tags
  retags := h.retags

omit [Device δ] [Coprocessor κ] in
theorem setReg_setReg_self (m : Machine δ κ) (r : Reg) (v w : UInt32) :
    (m.setReg r v).setReg r w = m.setReg r w :=
  congrArg (fun regs => { m with regs }) (Registers.set_set_self m.regs r v w)

/-- An operation that computes the new value of a register from operands. -/
theorem Reading.put (hr : Reading σ s s' operands) {d : Reg} (hown : d.IsOwn) (h0 : d ≠ 0)
    (h : allocOut d s' = .ok k s'') {op : HostOp} (hs : op.IsStraight) {φ : Cells 8 UInt32 → UInt32}
    {v : Machine δ κ → UInt32}
    (hop : ∀ f : Frame δ κ, perform σ.source.pc f op = (f.put k (φ f.host)).goOn)
    (hv : ∀ {host m},
      (∀ j ∈ operands, host[j.1] = m.regs.get j.2) → φ host = v m) :
    Realizes σ s { s'' with program := s''.program.push op } (fun m => m.setReg d (v m)) := by
  have hw := allocOut_ok σ hr.wellFormed hown h0 h
  obtain ⟨ops, he, hrun⟩ := hr.line
  obtain ⟨ops', he', hrun'⟩ := hw.line
  refine ⟨ops ++ (ops' ++ [op]), he.trans (he'.trans (Extends.push hs hw.wellFormed)), ?_⟩
  intro f c hst
  obtain ⟨f1, hr1, hst1, hval, hc1, ht1⟩ := hrun hst
  obtain ⟨f2, hr2, hst2, hhost, -, hc2, ht2⟩ := hrun' hst1
  have hst3 := stands_put hw.wellFormed hw.guest hw.dirty hst2 (φ f2.host)
  rw [setReg_setReg_self, hhost, hv hval] at hst3
  refine ⟨{ f2.put k (φ f2.host) with place := f2.place + 1 }, ?_, ?_, hc2.trans hc1,
    ht2.trans ht1⟩
  · rw [runLine_append_of_running hr1, runLine_append_of_running hr2,
      runLine_cons_of_running (hop f2)]
    rfl
  · rw [hhost, hv hval]
    exact hst3.withControl _ _ _

/-! ## Instructions -/

/-- From `s` to `s'` the generator appended a line that has the effect `F` and then does what the
interpreter does for instruction `i` at position `index` and address `addr`; it goes on or
leaves the code as the interpreter does. -/
def Executes (σ : Site δ κ) (s s' : Lowering) (F : Machine δ κ → Machine δ κ) (index : Nat)
    (i : Instruction) (addr : UInt32) : Prop :=
  ∃ ops, s.Extends s' ops ∧ ∀ {f : Frame δ κ} {c : Cursor δ κ},
    Stands σ s.cache s.cycles f c →
      let e := Interpreter.execute (F c.machine) i addr
      match e.step with
      | .next => ∃ f', runLine σ.source.pc ops f = .running f' ∧
          Stands σ s'.cache s'.cycles f' (c.ran index e) ∧
          f'.condition = f.condition ∧ f'.target = f.target
      | .exit next => ∃ r, runLine σ.source.pc ops f = .finished r ∧
          Ends σ r (c.ran index e) next
      | .branch _ => False

variable {index : Nat} {i : Instruction} {addr : UInt32}

theorem Executes.wellFormed (h : Executes σ s s' F index i addr) : s'.cache.WellFormed := by
  obtain ⟨ops, he, -⟩ := h
  exact he.wellFormed

theorem Realizes.executes (h : Realizes σ s s' G)
    (hF : ∀ m : Machine δ κ, Interpreter.execute (F m) i addr = { machine := G m }) :
    Executes σ s s' F index i addr := by
  obtain ⟨ops, he, hrun⟩ := h
  refine ⟨ops, he, fun {f c} hst => ?_⟩
  rw [hF]
  exact hrun hst

theorem Leaves.executes {next : UInt32} (h : Leaves σ s s' G (fun _ => next))
    (hF : ∀ m : Machine δ κ,
      Interpreter.execute (F m) i addr = { machine := G m, step := .exit next }) :
    Executes σ s s' F index i addr := by
  obtain ⟨ops, he, hrun⟩ := h
  refine ⟨ops, he, fun {f c} hst => ?_⟩
  rw [hF]
  exact hrun hst

/-- Something emitted in front of an instruction. -/
theorem Realizes.thenExecutes (h1 : Realizes σ s s' F) (h2 : Executes σ s' s'' id index i addr) :
    Executes σ s s'' F index i addr := by
  obtain ⟨ops, he, hrun⟩ := h1
  obtain ⟨ops', he', hrun'⟩ := h2
  refine ⟨ops ++ ops', he.trans he', fun {f c} hst => ?_⟩
  obtain ⟨f1, hr1, hst1, hc1, ht1⟩ := hrun hst
  have hexec := hrun' hst1
  dsimp only [id] at hexec ⊢
  split at hexec
  · obtain ⟨f2, hr2, hst2, hc2, ht2⟩ := hexec
    exact ⟨f2, (runLine_append_of_running hr1 ops').trans hr2, hst2, hc2.trans hc1, ht2.trans ht1⟩
  · obtain ⟨r, hr, hend⟩ := hexec
    exact ⟨r, (runLine_append_of_running hr1 ops').trans hr, hend⟩
  · exact hexec

/-- Something emitted behind an instruction. -/
theorem Executes.thenRealizes (h1 : Executes σ s s' F index i addr) (h2 : Realizes σ s' s'' id) :
    Executes σ s s'' F index i addr := by
  obtain ⟨ops, he, hrun⟩ := h1
  obtain ⟨ops', he', hrun'⟩ := h2
  refine ⟨ops ++ ops', he.trans he', fun {f c} hst => ?_⟩
  have hexec := hrun hst
  dsimp only at hexec ⊢
  split at hexec
  · obtain ⟨f1, hr1, hst1, hc1, ht1⟩ := hexec
    obtain ⟨f2, hr2, hst2, hc2, ht2⟩ := hrun' hst1
    exact ⟨f2, (runLine_append_of_running hr1 ops').trans hr2, hst2, hc2.trans hc1, ht2.trans ht1⟩
  · obtain ⟨r, hr, hend⟩ := hexec
    exact ⟨r, runLine_append_of_finished hr ops', hend⟩
  · exact hexec

end Dynarec.Lowering
