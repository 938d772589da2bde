/-
  Dynarec.Proofs.Host.Reach

  The accesses of generated code are those of the guest.

  `Leads` says with which machines the guest can get to an instruction of a
  block, whatever its branches do. Code keeps to that: in front of an access it
  has the machine that the guest has in front of the load or store, with the
  values of its registers at hand. Unlike the run of the interpreter that a call
  follows to its end, this holds for blocks of any size, also where offsets and
  cycles wrap around.

  `Sound` is what has to hold when code runs through a list of operations;
  `Guards` says it of what the generator appends, for every frame that stands
  for a machine of the guest. A jump inside the block may lead to any of its
  entries, so the whole of the program is put together from what is sound behind
  each entry (`Covers`).
-/
import Dynarec.Proofs.Guest
import Dynarec.Proofs.Host.Departures
import Dynarec.Proofs.Host.Reports
import Dynarec.Proofs.Host.Totality

namespace Dynarec

open Interpreter (Cursor execute)
open HostProgram (Frame Returned Site Stands Ends Mirrors perform runLine)

variable {δ κ : Type} [Device δ] [Coprocessor κ]

/-! ## The guest -/

namespace BlockSource

omit [Device δ] [Coprocessor κ] in
/-- Code can be entered in front of the instruction. -/
def Opens (source : BlockSource) (index : Nat) : Prop :=
  index = 0 ∨ ∃ o, source.ops[index]? = some o ∧ o.flags.sync = true

/-- Delay slots that are left out have no effect. -/
def SkipsNops (source : BlockSource) : Prop :=
  ∀ ⦃index : Nat⦄ ⦃o d : Op⦄, source.ops[index]? = some o → o.flags.noDelaySlot = true →
    source.ops[index + 1]? = some d → d.instr.isNop = true

/-- What instruction `o` at `index` does, its cycles charged. -/
def effect (source : BlockSource) (index : Nat) (o : Op) (m : Machine δ κ) :
    Interpreter.Executed δ κ :=
  execute (m.tick Interpreter.cyclesPerOp) o.instr (source.pc + index.toUInt32 * 4)

/-- A guest that comes to the block with `m` can get in front of the instruction at a position with
a machine. Which branches are taken, and to which entry of the block, is left open. -/
inductive Leads (source : BlockSource) (m : Machine δ κ) : Nat → Machine δ κ → Prop
  | enter {index : Nat} (h : source.Opens index) : Leads source m index m
  | next {index : Nat} {o : Op} {m' : Machine δ κ} (h : Leads source m index m')
      (ho : source.ops[index]? = some o)
      (hstays : ∀ pc, (source.effect index o m').step ≠ .exit pc) :
      Leads source m (index + 1) (source.effect index o m').machine
  /-- From behind a branch and its delay slot, if that is in the block. -/
  | jump {index behind target : Nat} {o : Op} {m' : Machine δ κ} (ho : source.ops[index]? = some o)
      (hbranch : o.instr.hasDelaySlot = true) (hlocal : o.flags.localBranch = true)
      (hbehind : behind = min (index + 2) source.ops.size) (h : Leads source m behind m')
      (htarget : source.Opens target) : Leads source m target m'

/-- The instruction at `index` is about to run, its cycles charged. -/
def Due (source : BlockSource) (m : Machine δ κ) (index : Nat) (m' : Machine δ κ) : Prop :=
  ∃ m'', source.Leads m index m'' ∧ m' = m''.tick Interpreter.cyclesPerOp

/-- The guest can get in front of every entry with the machine. -/
def LeadsEverywhere (source : BlockSource) (m m' : Machine δ κ) : Prop :=
  ∀ ⦃index : Nat⦄, source.Opens index → source.Leads m index m'

theorem Due.next {source : BlockSource} {m m' : Machine δ κ} {index : Nat} {o : Op}
    (h : source.Due m index m') (ho : source.ops[index]? = some o)
    (hstep : (execute m' o.instr (source.pc + index.toUInt32 * 4)).step = .next) :
    source.Leads m (index + 1) (execute m' o.instr (source.pc + index.toUInt32 * 4)).machine := by
  obtain ⟨m'', hm, rfl⟩ := h
  refine hm.next ho fun pc hexit => ?_
  cases hstep.symm.trans hexit

end BlockSource

/-! ## Accesses -/

namespace HostProgram

/-- A frame in front of the access of `o`: the guest is in front of instruction `index` with
`m'`, and the values of the registers the access needs are at hand. -/
structure AccessAt (source : BlockSource) (m : Machine δ κ) (o : Op) (base : HostReg)
    (data : Option HostReg) (f : Frame δ κ) (index : Nat) (m' : Machine δ κ) : Prop where
  leads : source.Leads m index m'
  op : source.ops[index]? = some o
  machine : f.machine.Alike (m'.tick Interpreter.cyclesPerOp)
  base : f.host[base] = m'.regs.get o.instr.rs
  data : ∀ {access : MemoryAccess}, o.instr.operation = .memory access →
    Machine.readsData access = true → f.dataOf data = m'.regs.get o.instr.rt

/-- If the operation in front of the frame is an access it is one of the block. -/
def Fits (source : BlockSource) (m : Machine δ κ) (f : Frame δ κ) : HostOp → Prop
  | .memory place o base data _ =>
    ∃ index m', place = index % 65536 ∧ AccessAt source m o base data f index m'
  | _ => True

/-- Code may jump to any entry of the block. -/
def MayJump (source : BlockSource) (m : Machine δ κ) (f : Frame δ κ) : Prop :=
  ∃ m', source.LeadsEverywhere m m' ∧ f.machine.Alike m'

/-- While the operations are run through in order, every access is one of the block and jumps are
made where they may be. -/
def Sound (source : BlockSource) (m : Machine δ κ) : List HostOp → Frame δ κ → Prop
  | [], _ => True
  | op :: rest, f =>
    Fits source m f op ∧ (¬op.IsStraight → MayJump source m f) ∧
      ∀ {f' : Frame δ κ}, perform source.pc f op = .running f' → Sound source m rest f'

variable {source : BlockSource} {m : Machine δ κ} {f f' : Frame δ κ} {ops rest : List HostOp}

theorem sound_append (hops : Sound source m ops f)
    (hrest : ∀ {f'}, runLine source.pc ops f = .running f' → Sound source m rest f') :
    Sound source m (ops ++ rest) f := by
  induction ops generalizing f with
  | nil => exact hrest rfl
  | cons op ops ih =>
    obtain ⟨hfits, hjump, hnext⟩ := hops
    refine ⟨hfits, hjump, fun {g} hg => ih (hnext hg) fun {f'} hf' => hrest ?_⟩
    rw [runLine_cons_of_running hg, hf']

/-- Quiet operations do no harm anywhere. -/
theorem sound_of_quiet (h : ∀ op ∈ ops, op.isQuiet = true) (f : Frame δ κ) : Sound source m ops f := by
  induction ops generalizing f with
  | nil => trivial
  | cons op ops ih =>
    have hop := h op List.mem_cons_self
    refine ⟨?_, ?_, fun _ => ih (fun x hx => h x (List.mem_cons_of_mem op hx)) _⟩
    · cases op <;> trivial
    · intro hs
      cases op with
      | jump | jumpIf => cases hop
      | _ =>
        exact absurd trivial hs

end HostProgram

/-! ## What the generator appends -/

namespace Lowering

open HostProgram (AccessAt Fits MayJump Sound sound_append sound_of_quiet Mirrors
  exists_of_runLine_append runLine_append_of_running runLine_cons_of_running)

/-- Code for a block that may be any, where nothing is said about what happens to the block. -/
def anySite (source : BlockSource) : Site δ κ where
  block := default
  source
  exact := False

/-- From `s` to `s'` the generator appended `ops`; each jump among them has its fixup. -/
structure Adds (s s' : Lowering) (ops : List HostOp) : Prop where
  program : s'.program.toList = s.program.toList ++ ops
  labels : s'.labels = s.labels
  fixups : ∀ {fixup : Nat × Nat}, fixup ∈ s.fixups → fixup ∈ s'.fixups
  jumps : ∀ {k : Nat} {op : HostOp}, ops[k]? = some op → ¬op.IsStraight →
    ∃ inside, (s.program.size + k, inside) ∈ s'.fixups
  wellFormed : s'.cache.WellFormed

variable {s s' s'' : Lowering} {ops ops' : List HostOp}

omit [Device δ] [Coprocessor κ] in
theorem Extends.adds (h : s.Extends s' ops) : s.Adds s' ops where
  program := h.program
  labels := h.labels
  fixups := fun hmem => h.fixups ▸ hmem
  jumps := fun hop hs => absurd (h.straight _ (List.mem_of_getElem? hop)) hs
  wellFormed := h.wellFormed

omit [Device δ] [Coprocessor κ] in
theorem Adds.trans (h1 : s.Adds s' ops) (h2 : s'.Adds s'' ops') : s.Adds s'' (ops ++ ops') where
  program := by rw [h2.program, h1.program, List.append_assoc]
  labels := h2.labels.trans h1.labels
  fixups := fun hmem => h2.fixups (h1.fixups hmem)
  jumps := by
    intro k op hop hs
    have hsize : s'.program.size = s.program.size + ops.length := by
      rw [← Array.length_toList, h1.program, List.length_append, Array.length_toList]
    rw [List.getElem?_append] at hop
    split at hop
    · obtain ⟨inside, hmem⟩ := h1.jumps hop hs
      exact ⟨inside, h2.fixups hmem⟩
    · rename_i hge
      obtain ⟨inside, hmem⟩ := h2.jumps hop hs
      rw [hsize, Nat.add_assoc, Nat.add_sub_cancel' (Nat.le_of_not_lt hge)] at hmem
      exact ⟨inside, hmem⟩
  wellFormed := h2.wellFormed

/-- From `s` to `s'` the generator appended code that is sound where the guest has a machine with
`P`, and that ends where it has one with `Q`. -/
def Guards (source : BlockSource) (m : Machine δ κ) (s s' : Lowering)
    (P Q : Machine δ κ → Prop) : Prop :=
  ∃ ops, s.Adds s' ops ∧ ∀ {f : Frame δ κ} {c : Cursor δ κ},
    Stands (anySite source) s.cache s.cycles f c → P c.machine →
      Sound source m ops f ∧ ∀ {f' : Frame δ κ}, runLine source.pc ops f = .running f' →
        ∃ c', Stands (anySite source) s'.cache s'.cycles f' c' ∧ Q c'.machine

section Guards

variable {source : BlockSource} {m : Machine δ κ} {P Q R : Machine δ κ → Prop}
  {F : Machine δ κ → Machine δ κ} {index : Nat} {o : Op} {addr : UInt32}

theorem Guards.wellFormed (h : Guards source m s s' P Q) : s'.cache.WellFormed := by
  obtain ⟨ops, ha, -⟩ := h
  exact ha.wellFormed

theorem Guards.trans (h1 : Guards source m s s' P Q) (h2 : Guards source m s' s'' Q R) :
    Guards source m s s'' P R := by
  obtain ⟨ops, ha, hrun⟩ := h1
  obtain ⟨ops', ha', hrun'⟩ := h2
  refine ⟨ops ++ ops', ha.trans ha', fun {f c} hst hP => ?_⟩
  obtain ⟨hsound, hend⟩ := hrun hst hP
  refine ⟨sound_append hsound fun hf => ?_, fun {f'} hf' => ?_⟩
  · obtain ⟨c', hst', hQ⟩ := hend hf
    exact (hrun' hst' hQ).1
  · obtain ⟨g, hg, hf'⟩ := exists_of_runLine_append hf'
    obtain ⟨c', hst', hQ⟩ := hend hg
    exact (hrun' hst' hQ).2 hf'

/-- Quiet code is sound whatever it does. -/
theorem guards_of_quiet (he : s.Extends s' ops) (hq : s.QuietTo s')
    (hend : ∀ {f f' c}, Stands (anySite source) s.cache s.cycles f c →
      P c.machine → runLine source.pc ops f = .running f' →
        ∃ c', Stands (anySite source) s'.cache s'.cycles f' c' ∧ Q c'.machine) :
    Guards source m s s' P Q :=
  ⟨ops, he.adds, fun {f} _ hst hP => ⟨sound_of_quiet (he.quiet hq) f, hend hst hP⟩⟩

/-- Quiet code does what it is known to do. -/
theorem guards_of_realizes (h : Realizes (anySite source) s s' F) (hq : s.QuietTo s')
    (hPQ : ∀ {m'}, P m' → Q (F m')) : Guards source m s s' P Q := by
  obtain ⟨ops, he, hrun⟩ := h
  refine guards_of_quiet he hq fun hst hP hf' => ?_
  obtain ⟨f1, hr, hst1, -⟩ := hrun hst
  cases hr.symm.trans hf'
  exact ⟨_, hst1, hPQ hP⟩

/-- Code that is left ends nowhere. -/
theorem guards_of_leaves {next : UInt32 → UInt32} (h : Leaves (anySite source) s s' F next)
    (hq : s.QuietTo s') : Guards source m s s' P Q := by
  obtain ⟨ops, he, hrun⟩ := h
  refine guards_of_quiet he hq fun hst hP hf' => ?_
  obtain ⟨r, hr, -⟩ := hrun hst
  cases hr.symm.trans hf'

theorem guards_of_executes (h : Executes (anySite source) s s' F index o.instr addr)
    (hq : s.QuietTo s')
    (hPQ : ∀ {m'}, P m' → (execute (F m') o.instr addr).step = .next →
      Q (execute (F m') o.instr addr).machine) : Guards source m s s' P Q := by
  obtain ⟨ops, he, hrun⟩ := h
  refine guards_of_quiet he hq fun {f f' c} hst hP hf' => ?_
  have hexec := hrun hst
  dsimp only at hexec
  cases hstep : (execute (F c.machine) o.instr addr).step with
  | next =>
    rw [hstep] at hexec
    obtain ⟨f1, hr, hst1, -⟩ := hexec
    cases hr.symm.trans hf'
    exact ⟨_, hst1, hPQ hP hstep⟩
  | exit next =>
    rw [hstep] at hexec
    obtain ⟨r, hr, -⟩ := hexec
    cases hr.symm.trans hf'
  | branch target =>
    rw [hstep] at hexec
    exact hexec.elim

/-- A branch up to its delay slot. -/
theorem guards_of_prepares {i : Instruction} (h : Prepares (anySite (δ := δ) (κ := κ) source) s s' i addr)
    (hq : s.QuietTo s') (hPQ : ∀ {m'}, P m' → Q (execute (m'.tick cyclesPerOp) i addr).machine) :
    Guards source m s s' P Q := by
  obtain ⟨ops, he, hrun⟩ := h
  refine guards_of_quiet he hq fun hst hP hf' => ?_
  obtain ⟨f1, hr, hst1, -⟩ := hrun hst
  cases hr.symm.trans hf'
  exact ⟨_, hst1, hPQ hP⟩

/-! ## Instructions -/

variable {u : Unit}

section

variable (hw : s.cache.WellFormed)
include hw

/-- The code of a load or store has its one access where the guest has it. -/
theorem lowerAccess_guards {access : MemoryAccess} (ho : source.ops[index]? = some o)
    (hop : o.instr.operation = .memory access) (h : lowerAccess index o access s = .ok u s') :
    Guards source m s s' (source.Due m index) (source.Leads m (index + 1)) := by
  obtain ⟨s1, op, hquiet, hs1⟩ :=
    yields_lowerAccess (P := (·.isQuiet = true)) (N := fun _ => True) (fun _ h => h) h
  obtain ⟨s2, ops, base, data, dst, he, rfl, hlag, hrun⟩ :=
    lowerAccess_poised (σ := anySite (δ := δ) (κ := κ) source) hw h
  have hprogram : s2.program = s1.program := by
    exact (Array.push_eq_push.mp (congrArg Lowering.program hs1)).2
  have hquiet2 : s.QuietTo s2 := ⟨hprogram ▸ hquiet.ops, fun _ _ => .inr trivial⟩
  refine ⟨ops ++ [.memory (index % 65536) o base data dst],
    (he.trans (Extends.push (by trivial) he.wellFormed)).adds, fun {f c} hst hdue => ?_⟩
  obtain ⟨f2, hr2, hpoised, -⟩ := hrun hst
  have hplace : (anySite (δ := δ) (κ := κ) source).exact → index % 65536 = index := fun h => h.elim
  have hperform := hpoised.perform ho hplace hop (source.pc + index.toUInt32 * 4)
  have hpc : (anySite (δ := δ) (κ := κ) source).source.pc = source.pc := rfl
  rw [hpc] at hr2
  simp only [hpc] at hperform
  refine ⟨sound_append (sound_of_quiet (he.quiet hquiet2) f) fun {g} hg => ?_, fun {f'} hf' => ?_⟩
  · -- in front of the access the frame mirrors the machine that the guest has there
    cases hr2.symm.trans hg
    obtain ⟨m', hleads, hm'⟩ := hdue
    refine ⟨⟨index, m', rfl, hleads, ho, ?_, ?_, ?_⟩, fun hs => absurd trivial hs, fun _ => trivial⟩
    · rw [← hm']
      exact hpoised.mirrors.agrees.alike
    · exact hpoised.base.trans (by rw [hm']; rfl)
    · intro access' hop' hreads
      cases hop.symm.trans hop'
      exact (hpoised.data hreads).trans (by rw [hm']; rfl)
  · rw [runLine_append_of_running hr2] at hf'
    rcases hperform with ⟨-, r, hr, -⟩ | ⟨hstep, f3, hr3, hst3, -⟩
    · rw [HostProgram.runLine_cons_of_finished hr] at hf'
      cases hf'
    · rw [runLine_cons_of_running hr3] at hf'
      cases hf'
      exact ⟨_, hlag ▸ hst3, hdue.next ho hstep⟩

/-- An instruction that is no branch. -/
theorem lowerSimple_guards (ho : source.ops[index]? = some o) (hslot : o.instr.hasDelaySlot = false)
    (haddr : addr = source.pc + index.toUInt32 * 4) (h : lowerSimple index o addr s = .ok u s') :
    Guards source m s s' (source.Due m index) (source.Leads m (index + 1)) := by
  by_cases hop : ∃ access, o.instr.operation = .memory access
  · obtain ⟨access, hop⟩ := hop
    rw [lowerSimple_eq] at h
    unfold lowerOperation at h
    simp only [hop] at h
    exact lowerAccess_guards hw ho hop h
  · have hop' (access : MemoryAccess) : o.instr.operation ≠ .memory access :=
      fun heq => hop ⟨access, heq⟩
    refine guards_of_executes (lowerSimple_ok (σ := anySite source) hw ho
      (fun access heq => absurd heq (hop' access)) hslot haddr h) ((emits_lowerSimple (fun _ h => h)
      ⟨fun heq => absurd heq (hop' _), fun _ => trivial⟩ hslot).ok h) ?_
    intro m' hdue hstep
    rw [haddr] at hstep ⊢
    exact hdue.next ho hstep

theorem charge_guards (h : charge cyclesPerOp s = .ok u s') :
    Guards source m s s' (source.Leads m index) (source.Due m index) :=
  guards_of_realizes (charge_ok _ hw h) ((emits_charge _).ok h) fun hm => ⟨_, hm, rfl⟩

theorem releaseLocks_guards (h : releaseLocks s = .ok u s') : Guards source m s s' P P :=
  guards_of_realizes (releaseLocks_ok _ hw h).1 (emits_releaseLocks.ok h) id

/-- In front of a label or a jump all cycles are charged and all registers put back. -/
theorem settle_guards {u v : Unit} (h1 : flushCycles s = .ok u s') (h2 : unloadAll s' = .ok v s'') :
    Guards source m s s'' P P ∧ s''.cycles = 0 ∧ s''.cache.Empty := by
  obtain ⟨hr1, hlag1, -⟩ := flushCycles_ok (anySite (δ := δ) (κ := κ) source) hw h1
  obtain ⟨hr2, hlag2, hempty⟩ :=
    unloadAll_ok (anySite (δ := δ) (κ := κ) source) hr1.wellFormed h2
  refine ⟨?_, hlag2.trans hlag1, hempty⟩
  exact guards_of_realizes (hr1.trans hr2) (((emits_flushCycles fun _ h => h).ok h1).trans
    ((emits_unloadAll fun _ h => h).ok h2)) id

end

theorem exitWith_guards {op : HostOp} (next : UInt32 → UInt32) (hquiet : op.isQuiet = true)
    (hs : op.IsStraight) (hop : ∀ f : Frame δ κ, perform source.pc f op = f.leave (next f.target))
    (hw : s.cache.WellFormed) (h : exitWith op s = .ok u s') : Guards source m s s' P Q :=
  guards_of_leaves (exitWith_ok (anySite source) next hs hop hw h).1
    ((emits_exitWith (fun _ h => h) hquiet).ok h)

/-- The delay slot of a branch. -/
theorem lowerSlot_guards {d : Op} (hw : s.cache.WellFormed) (hd : source.ops[index]? = some d)
    (hslot : d.instr.hasDelaySlot = false) (haddr : addr = source.pc + index.toUInt32 * 4)
    (hnop : o.flags.noDelaySlot = true → d.instr.isNop = true)
    (h : lowerSlot index o d addr s = .ok u s') :
    Guards source m s s' (source.Leads m index) (source.Leads m (index + 1)) := by
  obtain ⟨_, s1, h1, h⟩ := bind_ok h
  have hcharge : Guards source m s s1 (source.Leads m index) (source.Due m index) :=
    charge_guards hw h1
  split at h
  · rename_i hflag
    cases h
    -- nothing is emitted for a slot without effect, and the guest gets behind it all the same
    refine guards_of_realizes (charge_ok _ hw h1) ((emits_charge _).ok h1) fun {m'} hm => ?_
    have hexec : source.effect index d m' = { machine := m'.tick cyclesPerOp } :=
      Interpreter.execute_of_isNop (hnop hflag) _ _
    have hnext := hm.next hd (by rw [hexec]; exact fun pc => Interpreter.Step.noConfusion)
    rwa [hexec] at hnext
  · obtain ⟨_, s2, h2, h3⟩ := bind_ok h
    have hsimple := hcharge.trans (lowerSimple_guards hcharge.wellFormed hd hslot haddr h2)
    exact hsimple.trans (releaseLocks_guards hsimple.wellFormed h3)

/-! ## Branches -/

/-- An operation that moves nothing but control. -/
def Steers (op : HostOp) : Prop :=
  ∀ {δ κ : Type} [Device δ] [Coprocessor κ] {pc : UInt32} {f f' : Frame δ κ},
    perform pc f op = .running f' → ∃ place, f' = { f with place }

omit [Device δ] [Coprocessor κ] in
theorem steers_exit (conditional : Bool) (target : UInt32) :
    Steers (if conditional then .exitIf target else .exit target) := by
  intro δ κ _ _ pc f f' h
  cases conditional with
  | false => cases h
  | true =>
    simp only [if_true, perform] at h
    split at h
    · cases h
    · cases h
      exact ⟨_, rfl⟩

omit [Device δ] [Coprocessor κ] in
theorem steers_jump (conditional : Bool) (target : UInt32) :
    Steers (if conditional then .jumpIf 0 target else .jump 0 target) := by
  intro δ κ _ _ pc f f' h
  have hjump (h : f.jump 0 target = .running f') : ∃ place, f' = { f with place } := by
    unfold Frame.jump at h
    split at h
    · cases h
    · cases h
      exact ⟨_, rfl⟩
  cases conditional with
  | false => exact hjump h
  | true =>
    simp only [if_true, perform] at h
    split at h
    · exact hjump h
    · cases h
      exact ⟨_, rfl⟩

/-- The operation at the end of a branch, all registers in the file. A jump inside the block is made
where the guest may be behind the branch. -/
theorem guards_of_steers {op : HostOp} (fixups : Array (Nat × Nat)) (hw : s.cache.WellFormed)
    (hlag : s.cycles = 0) (hempty : s.cache.Empty) (hop : Steers op)
    (hfits : ∀ f : Frame δ κ, Fits source m f op)
    (hfixups : ∀ {fixup}, fixup ∈ s.fixups → fixup ∈ fixups)
    (hjump : ¬op.IsStraight → (∃ inside, (s.program.size, inside) ∈ fixups) ∧
      ∀ {m'}, P m' → source.LeadsEverywhere m m') :
    Guards source m s { s with program := s.program.push op, fixups } P P := by
  refine ⟨[op], ⟨by simp, rfl, hfixups, ?_, hw⟩, fun {f c} hst hP => ⟨⟨hfits f, fun hs => ?_,
    fun _ => trivial⟩, fun {f'} hf' => ?_⟩⟩
  · intro k op' hk hs
    cases k with
    | zero =>
      cases hk
      exact (hjump hs).1
    | succ k => cases hk
  · -- no register is cached any more, so the machine of the frame is that of the guest
    rw [hlag] at hst
    refine ⟨c.machine, (hjump hs).2 hP, ?_⟩
    exact (hst.mirrors.agrees.imp fun _ => hst.regs_eq (hempty.clean hw)).alike
  · cases hperform : perform source.pc f op with
    | running g =>
      rw [runLine_cons_of_running hperform] at hf'
      cases hf'
      obtain ⟨place, rfl⟩ := hop hperform
      exact ⟨c, hst.withControl _ _ _, hP⟩
    | finished r =>
      rw [HostProgram.runLine_cons_of_finished hperform] at hf'
      cases hf'

/-- Going where a branch leads, behind its delay slot. -/
theorem lowerJump_guards (hw : s.cache.WellFormed)
    (hP : o.flags.localBranch = true → ∀ {m'}, P m' → source.LeadsEverywhere m m')
    (h : lowerJump source o addr s = .ok u s') : Guards source m s s' P P := by
  unfold lowerJump at h
  split at h
  · exact exitWith_guards id (by trivial) (by trivial) (fun _ => rfl) hw h
  · cases ht : o.instr.branchTarget? addr with
    | none =>
      rw [ht] at h
      cases h
    | some target =>
      rw [ht] at h
      obtain ⟨_, s1, h1, h⟩ := bind_ok h
      obtain ⟨_, s2, h2, h⟩ := bind_ok h
      obtain ⟨hsettled, hlag, hempty⟩ :
          Guards source m s s2 P P ∧ s2.cycles = 0 ∧ s2.cache.Empty := settle_guards hw h1 h2
      refine hsettled.trans ?_
      split at h
      · -- a jump inside the block has its fixup
        rename_i hlocal
        obtain ⟨_, s3, h3, h4⟩ := bind_ok h
        cases h3
        cases h4
        refine guards_of_steers _ hsettled.wellFormed hlag hempty (steers_jump _ target) (fun f => ?_)
          (fun hmem => Array.mem_push_of_mem _ hmem) fun _ => ⟨⟨_, Array.mem_push_self⟩, hP hlocal⟩
        split <;> trivial
      · cases h
        refine guards_of_steers s2.fixups hsettled.wellFormed hlag hempty
          (steers_exit _ target) (fun f => ?_) id fun hs => absurd ?_ hs
        · split <;> trivial
        · split <;> trivial

/-- A branch with its delay slot. -/
theorem lowerBranch_guards (hskips : source.SkipsNops) {next : Nat} (hw : s.cache.WellFormed)
    (ho : source.ops[index]? = some o) (hi : o.instr.hasDelaySlot = true)
    (hcharge : charge cyclesPerOp s = .ok u s')
    (h : lowerBranch source index o (source.pc + index.toUInt32 * 4) s' = .ok next s'') :
    Guards source m s s'' (source.Leads m index) (source.Leads m next) := by
  unfold lowerBranch at h
  split at h
  · -- a branch in the delay slot is left to the interpreter
    obtain ⟨_, s2, h2, h⟩ := bind_ok h
    obtain ⟨_, s3, h3, h4⟩ := bind_ok h
    cases h4
    rw [uncharge_charge hcharge h2] at h3
    exact exitWith_guards (fun _ => _) (by trivial) (by trivial) (fun _ => rfl) hw h3
  · rename_i hslot
    obtain ⟨_, s2, h2, h⟩ := bind_ok h
    obtain ⟨_, s3, h3, h⟩ := bind_ok h
    obtain ⟨_, s4, h4, h⟩ := bind_ok h
    have hquiet : s.QuietTo s4 := ((((emits_charge _).ok hcharge).trans
      ((emits_latch (fun _ h => h) _).ok h2)).trans
      ((emits_lowerLink (fun _ h => h) _ _).ok h3)).trans (emits_releaseLocks.ok h4)
    have hprepared : Guards source m s s4 (source.Leads m index) (source.Leads m (index + 1)) :=
      guards_of_prepares (prepares_of_ok _ hi hw hcharge h2 h3 h4) hquiet fun hm =>
        hm.next ho (Interpreter.step_ne_exit hi _ _)
    cases hd : source.ops[index + 1]? with
    | none =>
      rw [hd] at h
      obtain ⟨_, s5, h5, h6⟩ := bind_ok h
      cases h6
      -- at the end of the block there is no delay slot to be run
      have hend : index + 1 = min (index + 2) source.ops.size := by
        have hlt := (Array.getElem?_eq_some_iff.mp ho).1
        have hge := Array.getElem?_eq_none_iff.mp hd
        omega
      exact hprepared.trans (lowerJump_guards hprepared.wellFormed (fun hlocal _ hm _ hopen =>
        .jump ho hi hlocal hend hm hopen) h5)
    | some d =>
      have hdi : d.instr.hasDelaySlot = false := by simpa [hd] using hslot
      rw [hd] at h
      obtain ⟨_, s5, h5, h⟩ := bind_ok h
      obtain ⟨_, s6, h6, h7⟩ := bind_ok h
      cases h7
      have hend : index + 2 = min (index + 2) source.ops.size := by
        have hlt := (Array.getElem?_eq_some_iff.mp hd).1
        omega
      have hran := hprepared.trans (lowerSlot_guards hprepared.wellFormed hd hdi
        (Interpreter.address_succ source.pc index) (fun hflag => hskips ho hflag hd) h5)
      exact hran.trans (lowerJump_guards hran.wellFormed (fun hlocal _ hm _ hopen =>
        .jump ho hi hlocal hend hm hopen) h6)

theorem lowerOp_guards (hskips : source.SkipsNops) {next : Nat} (hw : s.cache.WellFormed)
    (ho : source.ops[index]? = some o) (h : lowerOp source index o s = .ok next s') :
    Guards source m s s' (source.Leads m index) (source.Leads m next) := by
  unfold lowerOp at h
  split at h
  · obtain ⟨_, s1, h1, h2⟩ := bind_ok h
    cases h2
    exact exitWith_guards (fun _ => _) (by trivial) (by trivial) (fun _ => rfl) hw h1
  · obtain ⟨_, s1, h1, h⟩ := bind_ok h
    split at h
    · rename_i hi
      exact lowerBranch_guards hskips hw ho hi h1 h
    · rename_i hi
      obtain ⟨_, s2, h2, h3⟩ := bind_ok h
      cases h3
      have hcharge : Guards source m s s1 (source.Leads m index) (source.Due m index) :=
        charge_guards hw h1
      exact hcharge.trans (lowerSimple_guards hcharge.wellFormed ho (by simpa using hi) rfl h2)

end Guards

end Lowering

end Dynarec
