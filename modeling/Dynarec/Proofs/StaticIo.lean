/-
  Dynarec.Proofs.StaticIo

  Tags of accesses whose address was worked out in advance are right.

  While a block is annotated the values of registers are tracked from
  instruction to instruction, and forgotten where a branch inside the block
  leads. What is known in front of an instruction describes every machine with
  which the guest can get there, whichever way it took: an instruction changes
  no register but its destination, and where ways meet nothing is known but
  register zero. Generated code accesses memory only where the guest does, so
  its accesses go where their tags say.
-/
import Dynarec.Proofs.Annotate
import Dynarec.Proofs.Host.Accesses

namespace Dynarec

open Interpreter (execute)

variable {δ κ : Type}

/-- Whether the access is tagged with a kind of memory. -/
def OpFlags.hasTag (f : OpFlags) : RegionKind → Bool
  | .direct => f.directIo
  | .device => f.deviceIo

theorem Op.hasTag_of_not_isTagged {o : Op} (h : o.isTagged = false) (kind : RegionKind) :
    o.flags.hasTag kind = false := by
  have hflags := Bool.or_eq_false_iff.mp h
  cases kind with
  | direct => exact hflags.1
  | device => exact hflags.2

/-! ## What is known -/

namespace Annotate

namespace Known

/-- What is known is true of the registers. -/
def Describes (k : Known) (regs : Registers) : Prop :=
  ∀ ⦃r : Reg⦄ ⦃v : UInt32⦄, r.toNat < 32 → k.get r = some v → regs.get r = v

theorem cell_val {r : Reg} (hr : r.toNat < 32) : (RegisterFile.cell r).val = r.toNat := by
  show (r &&& 31).toNat = r.toNat
  rw [UInt8.toNat_and]
  exact (Nat.and_two_pow_sub_one_eq_mod r.toNat 5).trans (Nat.mod_eq_of_lt hr)

theorem get_set_of_ne {k : Known} {q r : Reg} (hq : q.toNat < 32) (hr : r.toNat < 32) (h : q ≠ r)
    (x : Option UInt32) : get (k.set (RegisterFile.cell r) x) q = k.get q := by
  refine k.getElem_set_of_ne (fun heq => h (UInt8.toNat_inj.mp ?_)) x
  rw [← cell_val hq, ← cell_val hr, heq]

theorem get_set_self (k : Known) (r : Reg) (x : Option UInt32) :
    get (k.set (RegisterFile.cell r) x) r = x := by
  simp [get]

theorem describes_initial {regs : Registers} (hzero : regs.get 0 = 0) : initial.Describes regs := by
  intro r v hr hv
  by_cases h0 : r = 0
  · subst h0
    have h : initial.get 0 = some 0 := get_set_self _ 0 _
    cases h.symm.trans hv
    exact hzero
  · have h : initial.get r = none :=
      (get_set_of_ne (r := 0) hr (by decide) h0 _).trans (by simp [get])
    cases h.symm.trans hv

variable [Device δ] [Coprocessor κ] {k : Known} {m : Machine δ κ} {i : Instruction} {v : UInt32}

/-- A value that is worked out is the one that the instruction computes. -/
theorem Describes.execute_of_result? (h : k.Describes m.regs) (hv : k.result? i = some v)
    (pc : UInt32) :
    ∃ d, i.destination? = some d ∧ (execute m i pc).machine = m.setReg d v := by
  have hrs {x : UInt32} : k.get i.rs = some x → m.regs.get i.rs = x := h i.toNat_rs_lt
  have hrt {x : UInt32} : k.get i.rt = some x → m.regs.get i.rt = x := h i.toNat_rt_lt
  rw [Instruction.destination?_eq, Interpreter.execute_eq]
  unfold result? at hv
  -- one case for each operation whose result is worked out
  split at hv
  · rename_i hop
    obtain rfl := Option.some.inj hv
    have hoperation : i.operation = .loadUpper := by simp [Instruction.operation, hop]
    rw [hoperation]
    exact ⟨_, rfl, rfl⟩
  · rename_i hop
    obtain ⟨x, hx, rfl⟩ := Option.map_eq_some_iff.mp hv
    have hoperation : i.operation = .aluImmediate .or false := by simp [Instruction.operation, hop]
    rw [hoperation]
    exact ⟨_, rfl, by rw [← hrs hx]; rfl⟩
  · rename_i hop
    obtain ⟨x, hx, rfl⟩ := Option.map_eq_some_iff.mp hv
    have hoperation : i.operation = .aluImmediate .add true := by simp [Instruction.operation, hop]
    rw [hoperation]
    exact ⟨_, rfl, by rw [← hrs hx]; rfl⟩
  · rename_i hop
    obtain ⟨x, hx, rfl⟩ := Option.map_eq_some_iff.mp hv
    have hoperation : i.operation = .aluImmediate .add false := by simp [Instruction.operation, hop]
    rw [hoperation]
    exact ⟨_, rfl, by rw [← hrs hx]; rfl⟩
  · rename_i hop
    have hspecial : i.operation = Instruction.specialOperation i.funct := by
      simp [Instruction.operation, hop]
    split at hv
    · rename_i x y hfunct hx hy
      obtain rfl := Option.some.inj hv
      rw [hspecial, hfunct]
      exact ⟨_, rfl, by rw [← hrs hx, ← hrt hy]; rfl⟩
    · rename_i x y hfunct hx hy
      obtain rfl := Option.some.inj hv
      rw [hspecial, hfunct]
      exact ⟨_, rfl, by rw [← hrs hx, ← hrt hy]; rfl⟩
    · cases hv
  · cases hv

/-- What is known after an instruction is true after it. -/
theorem Describes.execute (h : k.Describes m.regs) (i : Instruction) (pc : UInt32) :
    (k.after i).Describes (execute m i pc).machine.regs := by
  intro r v hr hv
  -- a register that is not written, or that is register zero, keeps its value
  have hkeeps (hv : k.get r = some v) (hdest : i.destination? = some r → r = 0) :
      (Interpreter.execute m i pc).machine.regs.get r = v := by
    rw [← h hr hv]
    by_cases hd : i.destination? = some r
    · rw [hdest hd]
      exact Interpreter.get_zero_execute m i pc
    · exact Interpreter.get_execute_of_ne hr hd m pc
  unfold after at hv
  split at hv
  · rename_i d hd
    split at hv
    · rename_i hgeneral
      obtain ⟨h0, hlt⟩ := Bool.and_eq_true_iff.mp hgeneral
      by_cases hrd : r = d
      · -- what is known of the destination is the value that was worked out
        subst hrd
        rw [get_set_self] at hv
        obtain ⟨d', hd', hm⟩ := h.execute_of_result? hv pc
        cases hd.symm.trans hd'
        rw [hm]
        exact Registers.get_set_self (by simpa using h0) m.regs v
      · rw [get_set_of_ne hr (UInt8.lt_iff_toNat_lt.mp (by simpa using hlt)) hrd] at hv
        refine hkeeps hv fun hd' => ?_
        cases hd.symm.trans hd'
        exact absurd rfl hrd
    · -- nothing is put down for register zero, which no instruction changes
      rename_i hspecial
      refine hkeeps hv fun hd' => ?_
      cases hd.symm.trans hd'
      have hlt : r < 32 := hr
      simpa [hlt] using hspecial
  · rename_i hd
    exact hkeeps hv fun hd' => by cases hd.symm.trans hd'

end Known

/-- What is known in front of the instruction at a position, when `k` is known at the start. -/
def knownAt : Known → List Op → Nat → Known
  | k, [], _ => k
  | k, o :: _, 0 => if o.flags.sync then Known.initial else k
  | k, o :: rest, index + 1 =>
    knownAt ((if o.flags.sync then Known.initial else k).after o.instr) rest index

section KnownAt

variable {k : Known} {ops : List Op} {index : Nat} {o o' : Op} (layout : Layout)

theorem getElem?_staticIoFrom (k : Known) (ops : List Op) (index : Nat) :
    (staticIoFrom layout k ops)[index]? =
      ops[index]?.map (tagKnown layout (knownAt k ops index)) := by
  induction ops generalizing k index with
  | nil => rfl
  | cons o ops ih =>
    cases index with
    | zero => rfl
    | succ index => exact ih _ index

/-- Where a branch inside the block leads nothing is known. -/
theorem knownAt_of_sync (ho : ops[index]? = some o) (hsync : o.flags.sync = true) :
    knownAt k ops index = Known.initial := by
  induction ops generalizing k index with
  | nil => cases ho
  | cons o1 ops ih =>
    cases index with
    | zero =>
      cases ho
      exact if_pos hsync
    | succ index => exact ih ho

theorem knownAt_zero (ops : List Op) : knownAt .initial ops 0 = .initial := by
  cases ops with
  | nil => rfl
  | cons o ops => exact ite_self _

/-- Elsewhere it is what the instruction in front makes of it. -/
theorem knownAt_succ (ho : ops[index]? = some o) (ho' : ops[index + 1]? = some o')
    (hsync : o'.flags.sync = false) :
    knownAt k ops (index + 1) = (knownAt k ops index).after o.instr := by
  induction ops generalizing k index with
  | nil => cases ho
  | cons o1 ops ih =>
    cases index with
    | zero =>
      cases ho
      cases ops with
      | nil => cases ho'
      | cons o2 ops =>
        cases ho'
        exact if_neg (by simp [hsync])
    | succ index => exact ih ho ho'

theorem frame_tagKnown (k : Known) (o : Op) :
    (tagKnown layout k o).instr = o.instr ∧ (tagKnown layout k o).flags.sync = o.flags.sync := by
  unfold tagKnown
  split
  · split
    · exact ⟨rfl, rfl⟩
    · split
      · refine ⟨rfl, ?_⟩
        dsimp only [OpFlags.tagged]
        split
        · rfl
        · rename_i r _ _
          cases r.kind <;> exact Bool.or_false _
      · exact ⟨rfl, rfl⟩
  · exact ⟨rfl, rfl⟩

/-- Tags play no part in what is known. -/
theorem knownAt_staticIoFrom (k k' : Known) (ops : List Op) (index : Nat) :
    knownAt k (staticIoFrom layout k' ops) index = knownAt k ops index := by
  induction ops generalizing k k' index with
  | nil => rfl
  | cons o ops ih =>
    obtain ⟨hinstr, hsync⟩ := frame_tagKnown layout (if o.flags.sync then Known.initial else k') o
    cases index with
    | zero =>
      simp only [staticIoFrom, knownAt]
      rw [hsync]
    | succ index =>
      simp only [staticIoFrom, knownAt]
      rw [hsync, hinstr, ih]

/-- A tag that was put on an access says where its known address leads. -/
theorem resolve_of_tagKnown {layout : Layout} {kind : RegionKind} (hnot : o.isTagged = false)
    (htag : (tagKnown layout k o).flags.hasTag kind = true) :
    ∃ base r, k.get o.instr.rs = some base ∧ layout.resolve (base + o.instr.simm) = .ok r ∧
      r.kind = kind := by
  have hnone := o.hasTag_of_not_isTagged hnot kind
  unfold tagKnown at htag
  split at htag
  · split at htag
    · cases hnone.symm.trans htag
    · rename_i base hbase
      split at htag
      · rename_i r hr
        refine ⟨base, r, hbase, hr, ?_⟩
        have htagged : o.flags.tagged r.kind = o.flags.union (.ofKind r.kind) :=
          if_neg (Bool.eq_false_iff.mp hnot)
        dsimp only at htag
        rw [htagged] at htag
        -- the two kinds have a flag each
        generalize r.kind = kind' at htag ⊢
        cases kind <;> cases kind' <;> simp_all [OpFlags.hasTag, OpFlags.union, OpFlags.ofKind]
      · cases hnone.symm.trans htag
  · cases hnone.symm.trans htag

end KnownAt

/-! ## Tags -/

/-- No access is tagged. -/
def Untagged (ops : Array Op) : Prop :=
  ∀ ⦃index : Nat⦄ ⦃o : Op⦄, ops[index]? = some o → o.isTagged = false

section Untagged

variable {ops : Array Op}

variable (h : Untagged ops)
include h

theorem untagged_mapIdx {g : Nat → Op → Op}
    (hg : ∀ index o, (g index o).isTagged = o.isTagged) : Untagged (ops.mapIdx g) := by
  intro index o' ho'
  rw [Array.getElem?_mapIdx] at ho'
  obtain ⟨o, ho, rfl⟩ := Option.map_eq_some_iff.mp ho'
  exact (hg index o).trans (h ho)

theorem untagged_modify {g : Op → Op} (hg : ∀ o, (g o).isTagged = o.isTagged)
    (k : Nat) : Untagged (ops.modify k g) := by
  intro index o' ho'
  rw [Array.getElem?_modify] at ho'
  split at ho'
  · obtain ⟨o, ho, rfl⟩ := Option.map_eq_some_iff.mp ho'
    exact (hg o).trans (h ho)
  · exact h ho'

theorem untagged_impossibleBranches : Untagged (impossibleBranches ops) := by
  refine untagged_mapIdx h fun index o => ?_
  split <;> rfl

theorem untagged_markLocal (pc : UInt32) (index : Nat) : Untagged (markLocal pc ops index) := by
  unfold markLocal
  split
  · exact h
  · dsimp only
    refine untagged_modify (untagged_modify h ?_ _) ?_ _
    · exact fun _ => rfl
    · exact fun _ => rfl

theorem untagged_localBranches (pc : UInt32) : Untagged (localBranches pc ops) := by
  unfold localBranches
  generalize List.range ops.size = indices
  induction indices generalizing ops with
  | nil => exact h
  | cons index indices ih => exact ih (untagged_markLocal h pc index)

theorem untagged_nopDelaySlots : Untagged (nopDelaySlots ops) := by
  refine untagged_mapIdx h fun index o => ?_
  split
  · split <;> rfl
  · rfl

end Untagged

/-- A pass that is made if the settings ask for it. -/
theorem untagged_if {ops : Array Op} (h : Untagged ops) {pass : Array Op → Array Op}
    (hpass : ∀ ⦃ops⦄, Untagged ops → Untagged (pass ops)) (wanted : Bool) :
    Untagged (if wanted then pass ops else ops) := by
  cases wanted with
  | true => exact hpass h
  | false => exact h

/-- Tags of an annotated block are there because the address is known and leads to memory of that
kind. -/
theorem resolve_of_annotate {layout : Layout} {config : Config} {pc : UInt32} {ops : Array Op}
    (h : Untagged ops) {index : Nat} {o : Op} {kind : RegionKind}
    (ho : (annotate layout config pc ops).ops[index]? = some o) (htag : o.flags.hasTag kind = true) :
    ∃ base r, (knownAt .initial (annotate layout config pc ops).ops.toList index).get o.instr.rs =
        some base ∧
      layout.resolve (base + o.instr.simm) = .ok r ∧ r.kind = kind := by
  have h1 := untagged_if h (fun _ h => untagged_impossibleBranches h) config.detectImpossibleBranches
  have h2 := untagged_if h1 (fun _ h => untagged_localBranches h pc) config.localBranches
  have h3 := untagged_nopDelaySlots h2
  unfold annotate at ho ⊢
  dsimp only at ho ⊢
  generalize nopDelaySlots _ = ops3 at h3 ho ⊢
  -- The passes before add no tags, so that this one has.
  cases hwanted : config.flagIo with
  | false =>
    rw [hwanted, if_neg Bool.false_ne_true] at ho
    cases (o.hasTag_of_not_isTagged (h3 ho) kind).symm.trans htag
  | true =>
    rw [hwanted, if_pos rfl] at ho
    have hget : (staticIoFrom layout .initial ops3.toList)[index]? = some o := by
      simpa [staticIo] using ho
    -- tags do not change what is known of the registers
    have hknown : knownAt .initial (staticIo layout ops3).toList index =
        knownAt .initial ops3.toList index := by
      rw [staticIo]
      exact knownAt_staticIoFrom layout _ _ _ _
    rw [getElem?_staticIoFrom] at hget
    obtain ⟨o3, ho3, rfl⟩ := Option.map_eq_some_iff.mp hget
    rw [if_pos rfl, hknown, (frame_tagKnown _ _ _).1]
    exact resolve_of_tagKnown (h3 (Array.getElem?_toList.symm.trans ho3)) htag

end Annotate

/-! ## The guest -/

section Guest

variable [Device δ] [Coprocessor κ] {source : BlockSource} {m m' : Machine δ κ} {index : Nat} {o : Op}

/-- No way through a block changes register zero or the memory map. -/
theorem BlockSource.Leads.frame (h : source.Leads m index m') :
    m'.regs.get 0 = m.regs.get 0 ∧ m'.memory.layout = m.memory.layout := by
  induction h with
  | enter => exact ⟨rfl, rfl⟩
  | next h ho hstays ih =>
    exact ⟨(Interpreter.get_zero_execute _ _ _).trans ih.1,
      ((Machine.guestRelation_changes.tick_execute _ _ _ _).layout).trans ih.2⟩
  | jump ho hbranch hlocal hbehind h htarget ih => exact ih

/-- What is known in front of an instruction is true whenever the guest gets there. -/
theorem BlockSource.Leads.describes (h : source.Leads m index m') (hzero : m.regs.get 0 = 0)
    (ho : source.ops[index]? = some o) :
    (Annotate.knownAt .initial source.ops.toList index).Describes m'.regs := by
  -- where ways may meet nothing is known but register zero, so the way taken does not matter
  have hopen {target : Nat} {o : Op} {m' : Machine δ κ} (hopens : source.Opens target)
      (ho : source.ops[target]? = some o) (hzero : m'.regs.get 0 = 0) :
      (Annotate.knownAt .initial source.ops.toList target).Describes m'.regs := by
    have hinitial : Annotate.knownAt .initial source.ops.toList target = .initial := by
      rcases hopens with rfl | ⟨o', ho', hsync⟩
      · exact Annotate.knownAt_zero _
      · exact Annotate.knownAt_of_sync (Array.getElem?_toList.trans ho') hsync
    rw [hinitial]
    exact Annotate.Known.describes_initial hzero
  induction h generalizing o with
  | enter hopens => exact hopen hopens ho hzero
  | next h ho' hstays ih =>
    rename_i index' o' m''
    cases hsync : o.flags.sync with
    | true => exact hopen (.inr ⟨o, ho, hsync⟩) ho ((h.next ho' hstays).frame.1.trans hzero)
    | false =>
      rw [Annotate.knownAt_succ (Array.getElem?_toList.trans ho') (Array.getElem?_toList.trans ho)
        hsync]
      exact Annotate.Known.Describes.execute (m := m''.tick Interpreter.cyclesPerOp) (ih ho') _ _
  | jump ho' hbranch hlocal hbehind h htarget ih =>
    exact hopen htarget ho (h.frame.1.trans hzero)

end Guest

/-! ## Generated code -/

namespace HostProgram

variable [Device δ] [Coprocessor κ]

theorem skipsNops_annotate (layout : Layout) (config : Config) (pc : UInt32) {ops : Array Op}
    (h : ∀ o ∈ ops, o.flags.noDelaySlot = false) :
    BlockSource.SkipsNops { pc, ops := (annotate layout config pc ops).ops } := by
  intro index o' d' ho' hflag hd'
  have hannotates := annotates_annotate layout config pc ops
  obtain ⟨o, ho, -, -, hnop, -⟩ := hannotates.op ho'
  obtain ⟨d, hd, hi, -⟩ := hannotates.op hd'
  rcases hnop hflag with hold | hslot
  · rw [h o (Array.mem_of_getElem? ho)] at hold
    cases hold
  · rw [hi]
    exact hslot hd

/-- In every call of the code of an annotated block, from wherever it is entered and however often it
goes round, an access that was tagged in advance goes to memory of the kind that its tag says. The
block comes with no tags and no delay slots to be left out, the registers with zero in register
zero. -/
theorem call_accesses_as_tagged {g : HostGenerator} {config : Config} {pc : UInt32} {ops : Array Op}
    {cache : RegisterCache} {emitted : Emitted} {m : Machine δ κ} {b : Block} {n entry : Nat}
    {f : Frame δ κ} {place : Nat} {o : Op} {base : HostReg} {data dst : Option HostReg}
    (hplain : ∀ o ∈ ops, o.isTagged = false ∧ o.flags.noDelaySlot = false)
    (hzero : m.regs.get 0 = 0)
    (hcompile : (g.compile { pc, ops := (annotate m.memory.layout config pc ops).ops }
      cache.reset).result = .ok emitted)
    (hcall : emitted.program.call n entry m b = .running f)
    (hop : emitted.program.ops[f.place]? = some (.memory place o base data dst)) :
    (∃ index, (annotate m.memory.layout config pc ops).ops[index]? = some o ∧
      place = index % 65536) ∧
    ∀ kind, o.flags.hasTag kind = true →
      ∃ r, f.machine.memory.layout.resolve (f.host[base] + o.instr.simm) = .ok r ∧
        r.kind = kind := by
  have hskips := skipsNops_annotate m.memory.layout config pc fun o ho => (hplain o ho).2
  have huntagged : Annotate.Untagged ops := fun _ _ ho => (hplain _ (Array.mem_of_getElem? ho)).1
  -- the code has the registers of the guest in front of this instruction, which are as known there
  obtain ⟨index, m', hplace, haccess⟩ := accessAt_of_call hskips cache.wellFormed_reset
    (generate_of_compile hcompile).1 hcall hop
  refine ⟨⟨index, haccess.op, hplace⟩, fun kind htag => ?_⟩
  obtain ⟨value, r, hknown, hr, hkind⟩ := Annotate.resolve_of_annotate huntagged haccess.op htag
  have hvalue := haccess.leads.describes hzero haccess.op o.instr.toNat_rs_lt hknown
  have hlayout : f.machine.memory.layout = m.memory.layout :=
    (congrArg Memory.layout haccess.machine.memory).trans haccess.leads.frame.2
  refine ⟨r, ?_, hkind⟩
  rw [hlayout, haccess.base, hvalue]
  exact hr

/-- A loop that writes to a device and counts register 5 down, with a write to memory in the delay slot
of its branch, and a return. -/
def polling : Array Op :=
  #[.ofWord 0x3c041f80, .ofWord 0xac800004, .ofWord 0x24a5ffff, .ofWord 0x14a0fffc,
    .ofWord 0xac000008, .ofWord 0x03e00008, .ofWord 0]

/-- A machine about to go round twice, with memory and a device where the loop writes. -/
def pollingMachine : Machine RegisterBank StandardCoprocessor :=
  { countdownMachine with
    memory := (Memory.ofRegions #[.ram 0 0x10, .ofDevice 0x1f800000 0x10 default]).toOption.getD default
    regs := ({} : Registers).set 5 2 }

def pollingSource : BlockSource :=
  { pc := 0x1000, ops := (annotate pollingMachine.memory.layout {} 0x1000 polling).ops }

/-- In the second round the device is written at the address that was worked out in advance, and
memory behind it. -/
theorem call_accesses_as_tagged_polling :
    (∃ emitted f o, pausedAt? pollingSource 16 0 pollingMachine default =
        some (emitted, f, .memory 1 o 0 (some 1) none) ∧ o.flags.deviceIo = true ∧
      ∃ r, f.machine.memory.layout.resolve (f.host[(0 : HostReg)] + o.instr.simm) = .ok r ∧
        r.kind = .device) ∧
    ∃ emitted f o, pausedAt? pollingSource 22 0 pollingMachine default =
        some (emitted, f, .memory 4 o 1 (some 1) none) ∧ o.flags.directIo = true ∧
      ∃ r, f.machine.memory.layout.resolve (f.host[(1 : HostReg)] + o.instr.simm) = .ok r ∧
        r.kind = .direct := by
  have hplain : ∀ o ∈ polling, o.isTagged = false ∧ o.flags.noDelaySlot = false := by decide
  constructor
  · obtain ⟨⟨emitted, f, op⟩, hpaused, hop⟩ := (Option.any_eq_true _ _).mp (show
      (pausedAt? pollingSource 16 0 pollingMachine default).any (fun p => decide (p.2.2 =
        .memory 1 ⟨⟨0xac800004⟩, { deviceIo := true }⟩ 0 (some 1) none)) = true by decide +kernel)
    cases of_decide_eq_true hop
    obtain ⟨hcompile, hcall, hop⟩ := exists_of_pausedAt? hpaused
    exact ⟨emitted, f, _, hpaused, rfl,
      (call_accesses_as_tagged hplain (by decide) hcompile hcall hop).2 .device rfl⟩
  · obtain ⟨⟨emitted, f, op⟩, hpaused, hop⟩ := (Option.any_eq_true _ _).mp (show
      (pausedAt? pollingSource 22 0 pollingMachine default).any (fun p => decide (p.2.2 =
        .memory 4 ⟨⟨0xac000008⟩, { directIo := true }⟩ 1 (some 1) none)) = true by decide +kernel)
    cases of_decide_eq_true hop
    obtain ⟨hcompile, hcall, hop⟩ := exists_of_pausedAt? hpaused
    exact ⟨emitted, f, _, hpaused, rfl,
      (call_accesses_as_tagged hplain (by decide) hcompile hcall hop).2 .direct rfl⟩

end HostProgram

end Dynarec
