/-
  Dynarec.Proofs.Host.Access

  Loads and stores in generated code. All values are written back before the
  access, so a fault leaves the code with an up-to-date register file; the
  first access of an instruction tags it, here and in the interpreter alike.
-/
import Dynarec.Proofs.Host.Emission
import Dynarec.Proofs.Host.Operation

namespace Dynarec

open Interpreter (Cursor Executed execute execute_eq executeAccess tagAccess)

namespace HostProgram

variable {δ κ : Type}

/-! ## Tags -/

/-- Frame and cursor agree, with register files related by `R`. -/
structure Mirrors (σ : Site δ κ) (R : Registers → Registers → Prop) (f : Frame δ κ)
    (c : Cursor δ κ) : Prop where
  agrees : Machine.Agrees (σ.Tracks c.tagged) R f.machine c.machine
  tags : σ.exact → Tagged σ f.block f.tagged c.ops c.tagged
  retags : Retags σ.source.ops c.ops

variable {σ : Site δ κ} {R : Registers → Registers → Prop} {f : Frame δ κ} {c : Cursor δ κ}

theorem Stands.mirrors {cache : RegisterCache} (h : Stands σ cache 0 f c) :
    Mirrors σ (fun file regs => cache.Holds { host := f.host, file } regs) f c where
  agrees := f.machine.tick_zero ▸ h.agrees
  tags := h.tags
  retags := h.retags

theorem Mirrors.stands {cache : RegisterCache}
    (h : Mirrors σ (fun file regs => cache.Holds { host := f.host, file } regs) f c)
    (hz : σ.exact → c.machine.regs.get 0 = 0) : Stands σ cache 0 f c where
  agrees := f.machine.tick_zero.symm ▸ h.agrees
  zero := hz
  tags := h.tags
  retags := h.retags

theorem Mirrors.imp {S : Registers → Registers → Prop} (h : Mirrors σ R f c)
    (hRS : R f.machine.regs c.machine.regs → S f.machine.regs c.machine.regs) :
    Mirrors σ S f c :=
  { h with agrees := h.agrees.imp hRS }

/-- A guest register that is about to change can be left out of the comparison. -/
theorem Mirrors.of_setReg {d : Reg} {v : UInt32}
    (h : Mirrors σ R f { c with machine := c.machine.setReg d v }) :
    Mirrors σ (fun file regs => R file (regs.set d v)) f c :=
  { h with agrees := { h.agrees with } }

theorem Mirrors.ends (h : Mirrors σ Eq f c) (next : UInt32) :
    ∃ r, f.leave next = .finished r ∧ Ends σ r c next :=
  ⟨_, rfl, h.agrees, h.tags, rfl⟩

/-- The instructions after the one at `index`, without a tag so far, got one. -/
def withTag (ops : Array Op) (index : Nat) (o : Op) (kind : RegionKind) : Array Op :=
  ops.setIfInBounds index { o with flags := o.flags.union (.ofKind kind) }

variable {o : Op}

theorem tagOp_of_isTagged {blk : Block} {ops : Array Op} {index : Nat} (hops : blk.ops = some ops)
    (ho : ops[index]? = some o) (ht : o.isTagged = true)
    (tag : OpFlags) : blk.tagOp index tag = (false, blk) := by
  unfold Block.tagOp
  rw [hops]
  simp only [ho, ht, if_true]

theorem tagOp_of_not_isTagged {blk : Block} {ops : Array Op} {index : Nat}
    (hops : blk.ops = some ops) (ho : ops[index]? = some o) (ht : o.isTagged = false)
    (kind : RegionKind) :
    blk.tagOp index (.ofKind kind) = (true, { blk with ops := some (withTag ops index o kind) }) := by
  unfold Block.tagOp
  rw [hops]
  simp only [ho, ht, Bool.false_eq_true, if_false]
  rfl

theorem tagAccess_of_isTagged (ht : o.isTagged = true) (ops : Array Op) (tagged : Bool)
    (index : Nat) (kind : RegionKind) :
    tagAccess ops tagged index o (some kind) = (ops, tagged) := by
  unfold tagAccess
  simp only [ht, if_true]

theorem tagAccess_of_not_isTagged (ht : o.isTagged = false) (ops : Array Op) (tagged : Bool)
    (index : Nat) (kind : RegionKind) :
    tagAccess ops tagged index o (some kind) = (withTag ops index o kind, true) := by
  have hflags : o.flags.tagged kind = o.flags.union (.ofKind kind) := by
    unfold OpFlags.tagged
    rw [show o.flags.isTagged = false from ht]
    rfl
  unfold tagAccess withTag
  simp only [ht, hflags, Bool.false_eq_true, if_false]

/-- A tag concerns nothing of the machine but the table of entries and the log. -/
theorem Frame.machine_tag (f : Frame δ κ) (index : Nat) (o : Op) (access : Option RegionKind) :
    ∃ t l, (f.tag index o access).machine = { f.machine with entries := t, log := l } := by
  unfold Frame.tag
  cases access with
  | none => exact ⟨_, _, rfl⟩
  | some kind =>
    dsimp only
    split
    · exact ⟨_, _, rfl⟩
    · split
      · exact ⟨_, _, rfl⟩
      · exact ⟨_, _, rfl⟩

variable {index place : Nat}

/-- The first access of an instruction tags it in the block as in the interpreter. -/
theorem Tagged.tag (h : Tagged σ f.block f.tagged c.ops c.tagged)
    (ht : f.machine.entries = σ.block.marks c.tagged c.machine.entries)
    (hr : Retags σ.source.ops c.ops) (ho : σ.source.ops[index]? = some o) (hplace : place = index)
    (kind : RegionKind) :
    let tags := tagAccess c.ops c.tagged index (c.ops.getD index default) (some kind)
    Tagged σ (f.tag place o (some kind)).block (f.tag place o (some kind)).tagged
        tags.1 tags.2 ∧
      (f.tag place o (some kind)).machine.entries = σ.block.marks tags.2 c.machine.entries := by
  subst hplace
  have hlt : place < c.ops.size := by
    rw [hr.size]
    exact (Array.getElem?_eq_some_iff.mp ho).1
  obtain ⟨o', ho'⟩ : ∃ o', c.ops[place]? = some o' := ⟨_, Array.getElem?_eq_getElem hlt⟩
  have hcurrent : c.ops.getD place default = o' := by
    simp [Array.getD_eq_getD_getElem?, ho']
  have hkeep : o.isTagged = true → o'.isTagged = true := by
    have hsource : σ.source.ops.getD place default = o := by
      simp [Array.getD_eq_getD_getElem?, ho]
    have htags := hr.tagged place
    rwa [hcurrent, hsource] at htags
  rw [hcurrent]
  cases hnow : o'.isTagged with
  | true =>
    -- tagged by now: neither side changes anything
    have hsame : f.tag place o (some kind) = f := by
      unfold Frame.tag
      dsimp only
      rw [tagOp_of_isTagged h.ops_block ho' hnow]
      split <;> rfl
    rw [hsame, tagAccess_of_isTagged hnow]
    exact ⟨h, ht⟩
  | false =>
    -- not tagged yet, so it was not when the code was made
    have hnot : o.isTagged = false := by
      cases hot : o.isTagged with
      | false => rfl
      | true =>
        rw [hkeep hot] at hnow
        cases hnow
    have hframe : f.tag place o (some kind) =
        let asked := f.machine.flagRecompile
          { f.block with ops := some (withTag c.ops place o' kind) }
        { f with block := asked.1, machine := asked.2, tagged := true } := by
      unfold Frame.tag
      dsimp only
      rw [hnot, tagOp_of_not_isTagged h.ops_block ho' hnow]
      rfl
    rw [hframe, tagAccess_of_not_isTagged hnow]
    refine ⟨⟨?_, rfl, by simp⟩, ?_⟩
    · refine (Block.fst_flagRecompile _ _).trans ?_
      rw [h.block]
      exact Block.demoted_withOps_marked ..
    · refine (Block.table_flagRecompile _ _).trans ?_
      rw [Block.demote_congr (b := σ.block) (h.block ▸ Block.code_marked ..)
        (h.block ▸ Block.pc_marked ..), ht]
      exact σ.block.demote_marks c.tagged c.machine.entries

/-- The position that code has for its instruction matters only where it has to be exact. -/
theorem Mirrors.tag (h : Mirrors σ R f c) (ho : σ.source.ops[index]? = some o)
    (hplace : σ.exact → place = index) (access : Option RegionKind) :
    Mirrors σ R (f.tag place o access)
      { c with
        ops := (tagAccess c.ops c.tagged index (c.ops.getD index default) access).1
        tagged := (tagAccess c.ops c.tagged index (c.ops.getD index default) access).2 } := by
  cases access with
  | none => exact h
  | some kind =>
    have htag := fun hx => (h.tags hx).tag (h.agrees.entries hx) h.retags ho (hplace hx) kind
    obtain ⟨t, l, hm⟩ := f.machine_tag place o (some kind)
    rw [hm] at htag
    refine ⟨?_, fun hx => (htag hx).1, Interpreter.retags_tagAccess h.retags _ _ _⟩
    rw [hm]
    exact { h.agrees with entries := fun hx => (htag hx).2 }

/-! ## The access -/

variable [Device δ] [Coprocessor κ]

/-- The access itself, with its tag, keeps frame and cursor alike. -/
theorem Mirrors.accessed (h : Mirrors σ R f c) (ho : σ.source.ops[index]? = some o)
    (hplace : σ.exact → place = index) {access : MemoryAccess}
    (hk : o.instr.memoryAccess? = some access) {base : HostReg} {data : Option HostReg}
    (hbase : f.host[base] = c.machine.regs.get o.instr.rs)
    (hdata : Machine.readsData access = true → f.dataOf data = c.machine.regs.get o.instr.rt) :
    let t := f.machine.transfer o.instr f.host[base] (f.dataOf data)
    let t' := c.machine.transfer o.instr (c.machine.regs.get o.instr.rs)
      (c.machine.regs.get o.instr.rt)
    t.value = t'.value ∧
      Mirrors σ R (f.accessed place o t) (c.ran index { machine := t'.machine, access := t'.kind }) := by
  -- An access that does not use its data operand does not depend on it.
  have hsame : c.machine.transfer o.instr (c.machine.regs.get o.instr.rs)
      (c.machine.regs.get o.instr.rt) =
      c.machine.transfer o.instr f.host[base] (f.dataOf data) := by
    rw [hbase]
    cases hr : Machine.readsData access with
    | true => rw [hdata hr]
    | false => exact Machine.transfer_of_not_readsData hk hr c.machine _ _ _
  dsimp only
  rw [hsame]
  obtain ⟨hv, hkind, ha⟩ := h.agrees.transfer (σ.respects_tracks c.tagged) o.instr
    f.host[base] (f.dataOf data)
  refine ⟨hv, ?_⟩
  have hmoved : Mirrors σ R
      { f with machine := (f.machine.transfer o.instr f.host[base] (f.dataOf data)).machine }
      { c with machine := (c.machine.transfer o.instr f.host[base] (f.dataOf data)).machine } :=
    ⟨ha, h.tags, h.retags⟩
  have htagged := hmoved.tag ho hplace (f.machine.transfer o.instr f.host[base] (f.dataOf data)).kind
  unfold Frame.accessed Cursor.ran
  rw [hkind] at htagged ⊢
  exact htagged

end HostProgram

namespace Lowering

open HostProgram

variable {δ κ : Type} [Device δ] [Coprocessor κ] {σ : Site δ κ} {s s' s'' : Lowering}
  {access : MemoryAccess} {i : Instruction}

/-- The operands of an access: its base, and its data if it has any. -/
theorem reading_access {base : HostReg} {data : Option HostReg} (hw : s.cache.WellFormed)
    (hb : allocIn i.rs s = .ok base s')
    (hd : (if Machine.readsData access then some <$> allocIn i.rt else pure none) s' =
      .ok data s'') :
    ∃ operands, Reading σ s s'' operands ∧ (base, i.rs) ∈ operands ∧
      (Machine.readsData access = true → ∃ k, data = some k ∧ (k, i.rt) ∈ operands) := by
  have hr := (reading_nil σ hw).read i.isOwn_rs hb
  split at hd
  · obtain ⟨k, hk, rfl⟩ := map_ok hd
    exact ⟨_, hr.read i.isOwn_rt hk, by simp, fun _ => ⟨k, rfl, by simp⟩⟩
  · rename_i hnot
    cases hd
    exact ⟨_, hr, by simp, fun h => absurd h hnot⟩

/-- Whether an access has a destination register. -/
def writesRegister (i : Instruction) (access : MemoryAccess) : Bool :=
  !access.isStore && access ≠ .lwc2 && i.rt ≠ 0

/-- Effect of an access that does not fault. -/
theorem executeAccess_of_not_segfault (m : Machine δ κ) (i : Instruction) (access : MemoryAccess)
    (addr rs rt : UInt32) (hseg : (m.transfer i rs rt).machine.clock.exit.segfault = false) :
    executeAccess m i access addr rs rt =
      { machine :=
          if writesRegister i access then
            (m.transfer i rs rt).machine.setReg i.rt (m.transfer i rs rt).value
          else (m.transfer i rs rt).machine
        access := (m.transfer i rs rt).kind } := by
  unfold executeAccess writesRegister
  simp only [hseg, Bool.false_eq_true, if_false]
  by_cases hs : (access.isStore || decide (access = .lwc2)) = true
  · rw [if_pos hs, if_neg (by grind)]
  · by_cases h0 : i.rt = 0
    · rw [if_neg hs, if_neg (by simp [h0]), h0, Interpreter.setReg_zero]
    · rw [if_neg hs, if_pos (by grind)]

/-- The place of the result of an access, made ready before the access. -/
theorem readying_access {dst : Option HostReg} (hw : s.cache.WellFormed)
    (h : (if writesRegister i access then some <$> allocOut i.rt else pure none) s = .ok dst s') :
    (writesRegister i access = false ∧ dst = none ∧ s' = s) ∨
      (writesRegister i access = true ∧ ∃ k, dst = some k ∧ Readying σ s s' i.rt k) := by
  split at h
  · rename_i hwr
    obtain ⟨k, hk, rfl⟩ := map_ok h
    have h0 : i.rt ≠ 0 := by
      simp only [writesRegister, Bool.and_eq_true, decide_eq_true_eq] at hwr
      exact hwr.2
    exact .inr ⟨hwr, k, rfl, allocOut_ok σ hw i.isOwn_rt h0 hk⟩
  · rename_i hwr
    cases h
    exact .inl ⟨by simpa using hwr, rfl, rfl⟩

theorem execute_memory (hop : i.operation = .memory access) (m : Machine δ κ) (addr : UInt32) :
    execute m i addr =
      executeAccess m i access addr (m.regs.get i.rs) (m.regs.get i.rt) := by
  rw [execute_eq, hop]
  rfl

/-- The frame with the value of an access where it is wanted. -/
def receive (f : Frame δ κ) (dst : Option HostReg) (v : UInt32) : Frame δ κ :=
  match dst with
  | some h => f.put h v
  | none => f

/-- Everything is ready for the access of `o`: the register file is up to date, base and data are
at hand, and whatever value comes, `cache` says right where the guest registers are. -/
structure Poised (σ : Site δ κ) (cache : RegisterCache) (o : Op) (access : MemoryAccess)
    (base : HostReg) (data dst : Option HostReg) (f : Frame δ κ) (c : Cursor δ κ) : Prop where
  mirrors : Mirrors σ Eq f c
  zero : σ.exact → c.machine.regs.get 0 = 0
  base : f.host[base] = c.machine.regs.get o.instr.rs
  data : Machine.readsData access = true → f.dataOf data = c.machine.regs.get o.instr.rt
  holds : ∀ v, cache.Holds { host := (receive f dst v).host, file := f.machine.regs }
    (if writesRegister o.instr access then c.machine.regs.set o.instr.rt v else c.machine.regs)

section Poised

variable {cache : RegisterCache} {index place : Nat} {o : Op} {access : MemoryAccess}
  {base : HostReg} {data dst : Option HostReg} {f g : Frame δ κ} {c : Cursor δ κ}

omit [Device δ] [Coprocessor κ] in
/-- An access leaves the registers alone, so its value comes to where it was expected. -/
theorem Poised.received (h : Poised σ cache o access base data dst f c) {m : Machine δ κ}
    {kind : Option RegionKind} (hm : Mirrors σ Eq g (c.ran index { machine := m, access := kind }))
    (hhost : g.host = f.host) (hregs : m.regs = c.machine.regs) (v : UInt32) :
    let e : Executed δ κ :=
      { machine := if writesRegister o.instr access then m.setReg o.instr.rt v else m
        access := kind }
    (σ.exact → e.machine.regs.get 0 = 0) → Stands σ cache 0 (receive g dst v) (c.ran index e) := by
  intro e hzero
  have hfile : g.machine.regs = f.machine.regs :=
    (hm.agrees.regs.trans hregs).trans h.mirrors.agrees.regs.symm
  -- Receiving a value changes one host register at most.
  have hframe : (receive g dst v).host = (receive f dst v).host ∧
      (receive g dst v).machine = g.machine ∧ (receive g dst v).block = g.block ∧
      (receive g dst v).tagged = g.tagged := by
    cases dst with
    | none => exact ⟨hhost, rfl, rfl, rfl⟩
    | some k => exact ⟨congrArg (Cells.set · k v) hhost, rfl, rfl, rfl⟩
  have hholds := h.holds v
  rw [← hframe.1, ← hfile, ← hregs] at hholds
  have hagrees : Machine.Agrees (σ.Tracks (c.ran index e).tagged)
      (fun file regs => cache.Holds { host := (receive g dst v).host, file } regs) g.machine
      e.machine := by
    cases hwrites : writesRegister o.instr access with
    | false =>
      rw [hwrites] at hholds
      simp only [e, hwrites, Bool.false_eq_true, if_false]
      exact { hm.agrees with regs := hholds }
    | true =>
      rw [hwrites] at hholds
      simp only [e, hwrites, if_true]
      exact { hm.agrees with regs := hholds }
  refine Mirrors.stands ⟨?_, ?_, hm.retags⟩ hzero
  · rw [hframe.2.1]
    exact hagrees
  · rw [hframe.2.2.1, hframe.2.2.2]
    exact hm.tags

/-- The access leaves the code on a fault and else goes on, as the interpreter does. -/
theorem Poised.perform (h : Poised σ cache o access base data dst f c)
    (ho : σ.source.ops[index]? = some o) (hplace : σ.exact → place = index)
    (hop : o.instr.operation = .memory access) (addr : UInt32) :
    let op := HostOp.memory place o base data dst
    let e := execute c.machine o.instr addr
    (e.step = .exit addr ∧ ∃ r, perform σ.source.pc f op = .finished r ∧
      Ends σ r (c.ran index e) (σ.source.pc + place.toUInt32 * 4)) ∨
    (e.step = .next ∧ ∃ f', perform σ.source.pc f op = .running f' ∧
      Stands σ cache 0 f' (c.ran index e) ∧ f'.condition = f.condition ∧ f'.target = f.target) := by
  dsimp only
  obtain ⟨hv, hacc⟩ := h.mirrors.accessed ho hplace (Instruction.memoryAccess?_of_operation hop)
    h.base h.data
  have hzero (hx : σ.exact) := (Interpreter.get_zero_execute c.machine o.instr addr).trans (h.zero hx)
  have hexit := hacc.agrees.exit
  rw [HostProgram.perform, Frame.memory_eq]
  rw [execute_memory hop] at hzero ⊢
  dsimp only at hv ⊢
  -- Both sides look for the fault in the exit flags, which agree.
  cases hseg : (c.machine.transfer o.instr (c.machine.regs.get o.instr.rs)
      (c.machine.regs.get o.instr.rt)).machine.clock.exit.segfault with
  | true =>
    refine .inl ⟨?_, ?_⟩
    · simp only [executeAccess, hseg, if_true]
    · rw [if_pos ((congrArg ExitFlags.segfault hexit).trans hseg)]
      simp only [executeAccess, hseg, if_true]
      exact hacc.ends _
  | false =>
    rw [executeAccess_of_not_segfault _ _ _ _ _ _ hseg] at hzero ⊢
    rw [if_neg (Bool.eq_false_iff.mp ((congrArg ExitFlags.segfault hexit).trans hseg)), hv]
    obtain ⟨-, hhost, hcond, htar⟩ := Frame.tag_frame { f with machine :=
      (f.machine.transfer o.instr f.host[base] (f.dataOf data)).machine } place o
      (f.machine.transfer o.instr f.host[base] (f.dataOf data)).kind
    have hst := h.received hacc hhost (Machine.regs_transfer ..) _ hzero
    cases dst with
    | none => exact .inr ⟨rfl, _, rfl, hst.withControl _ _ _, hcond, htar⟩
    | some k => exact .inr ⟨rfl, _, rfl, hst.withControl _ _ _, hcond, htar⟩

end Poised

/-- The line before an access makes everything ready for it. -/
theorem lowerAccess_poised {u : Unit} {index : Nat} {o : Op} (hw : s.cache.WellFormed)
    (h : lowerAccess index o access s = .ok u s') :
    ∃ s1 ops base data dst, s.Extends s1 ops ∧
      s' = { s1 with program := s1.program.push (.memory (index % 65536) o base data dst) } ∧
      s1.cycles = 0 ∧
      ∀ {f : Frame δ κ} {c : Cursor δ κ}, Stands σ s.cache s.cycles f c →
        ∃ f', runLine σ.source.pc ops f = .running f' ∧
          Poised σ s1.cache o access base data dst f' c ∧
          f'.condition = f.condition ∧ f'.target = f.target := by
  obtain ⟨_, s1, h1, h⟩ := bind_ok h
  obtain ⟨base, s2, h2, h⟩ := bind_ok h
  dsimp only at h
  obtain ⟨data, s3, h3, h⟩ := ite_bind_ok h
  obtain ⟨dst, s4, h4, h5⟩ := ite_bind_ok h
  cases h5
  obtain ⟨⟨ops1, he1, hrun1⟩, hlag, hclean⟩ := beforeCall_ok σ hw h1
  obtain ⟨operands, hr, hbase, hdata⟩ := reading_access (σ := σ) he1.wellFormed h2 h3
  have hlag3 : s3.cycles = 0 := hr.cycles.trans hlag
  have hclean3 := hr.clean hclean
  obtain ⟨ops, he, hrun⟩ := hr.line
  have hdataOf : ∀ {f : Frame δ κ} {c : Cursor δ κ},
      (∀ k ∈ operands, f.host[k.1] = c.machine.regs.get k.2) →
      Machine.readsData access = true → f.dataOf data = c.machine.regs.get o.instr.rt := by
    intro f c hval hreads
    obtain ⟨k, rfl, hk⟩ := hdata hreads
    exact hval (k, o.instr.rt) hk
  rcases readying_access (σ := σ) hr.wellFormed h4 with ⟨hnot, rfl, rfl⟩ | ⟨hwrites, k, rfl, hready⟩
  · -- no destination: nothing is left to do
    refine ⟨s4, ops1 ++ ops, base, data, none, he1.trans he, rfl, hlag3, fun {f c} hst => ?_⟩
    obtain ⟨f1, hr1, hst1, hcond1, htar1⟩ := hrun1 hst
    obtain ⟨f3, hr3, hst3, hval, hcond3, htar3⟩ := hrun hst1
    rw [hlag3] at hst3
    refine ⟨f3, (runLine_append_of_running hr1 _).trans hr3,
      ⟨hst3.mirrors.imp fun _ => hst3.regs_eq hclean3, hst3.zero, hval _ hbase, hdataOf hval, ?_⟩,
      hcond3.trans hcond1, htar3.trans htar1⟩
    intro v
    rw [hnot]
    exact hst3.mirrors.agrees.regs
  · -- the destination is mapped before the access and gets its value after it
    obtain ⟨ops', he', hrun'⟩ := hready.line
    have hlag4 : s4.cycles = 0 := hready.cycles.trans hlag3
    refine ⟨s4, ops1 ++ (ops ++ ops'), base, data, some k, he1.trans (he.trans he'), rfl, hlag4,
      fun {f c} hst => ?_⟩
    obtain ⟨f1, hr1, hst1, hcond1, htar1⟩ := hrun1 hst
    obtain ⟨f3, hr3, hst3, hval, hcond3, htar3⟩ := hrun hst1
    obtain ⟨f4, hr4, hst4, hhost4, hregs4, hcond4, htar4⟩ := hrun' hst3
    rw [hlag4] at hst4
    rw [← hhost4] at hval
    have hfile : f4.machine.regs = c.machine.regs :=
      (hregs4 hclean3).trans (hst3.regs_eq hclean3)
    refine ⟨f4, ?_, ⟨hst4.mirrors.of_setReg.imp fun _ => hfile, hst3.zero, hval _ hbase,
      hdataOf hval, ?_⟩, hcond4.trans (hcond3.trans hcond1), htar4.trans (htar3.trans htar1)⟩
    · rw [runLine_append_of_running hr1, runLine_append_of_running hr3, hr4]
    · intro v
      have hb := hst4.mirrors.agrees.regs.put hready.wellFormed hready.guest hready.dirty v
      rw [hwrites]
      exact (Registers.set_set_self ..) ▸ hb

/-- A load or store in generated code is one in the interpreter. -/
theorem lowerAccess_ok {u : Unit} {index : Nat} {o : Op} (hw : s.cache.WellFormed)
    (ho : σ.source.ops[index]? = some o) (hidx : index < 65536)
    (hop : o.instr.operation = .memory access) (h : lowerAccess index o access s = .ok u s') :
    Executes σ s s' id index o.instr (σ.source.pc + index.toUInt32 * 4) := by
  obtain ⟨s1, ops, base, data, dst, he, rfl, hlag, hrun⟩ := lowerAccess_poised (σ := σ) hw h
  rw [Nat.mod_eq_of_lt hidx]
  refine ⟨ops ++ [.memory index o base data dst],
    he.trans (Extends.push (by trivial) he.wellFormed), fun {f c} hst => ?_⟩
  obtain ⟨f1, hr1, hpoised, hcond, htar⟩ := hrun hst
  dsimp only [id]
  rcases hpoised.perform ho (fun _ => rfl) hop (σ.source.pc + index.toUInt32 * 4) with
    ⟨hstep, r, hr, hend⟩ | ⟨hstep, f2, hr2, hst2, hcond2, htar2⟩
  · rw [hstep]
    exact ⟨r, (runLine_append_of_running hr1 _).trans (runLine_cons_of_finished hr []), hend⟩
  · rw [hstep]
    exact ⟨f2, (runLine_append_of_running hr1 _).trans (runLine_cons_of_running hr2 []),
      hlag ▸ hst2, hcond2.trans hcond, htar2.trans htar⟩

end Lowering

end Dynarec
