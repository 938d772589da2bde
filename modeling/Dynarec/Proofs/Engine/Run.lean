/-
  Dynarec.Proofs.Engine.Run

  What the host can do to an engine.

  Every call from the host that comes back is an evolution of the core, and one
  that runs guest code leaves nothing to be reclaimed. An engine is reached by
  calls from a new one, so what holds at first and survives every evolution
  holds of all engines there are.
-/
import Dynarec.Proofs.Engine.Dispatch

namespace Dynarec

variable {δ κ γ : Type}

/-- The core with `waiting` still to be reclaimed, when `blocks` blocks have been reclaimed but not
yet counted. -/
def Core.amid (c : Core δ κ γ) (waiting : List Discarded) (blocks : Nat) : Core δ κ γ :=
  { c with
    waiting
    tally := { c.tally with reclaimed := c.tally.reclaimed + blocks } }

namespace Engine

variable [Generator γ] {R : Rules} {e e' : Engine δ κ γ}

/-! ## Reclaiming -/

omit [Generator γ] in
theorem ensures_forgetCode? (code : Option CompiledCode) :
    Ensures (forgetCode? code) e fun _ e' => e'.core = e.core.forgot? code := by
  cases code with
  | none => exact Ensures.pure rfl
  | some k => exact Ensures.run rfl (Ensures.of_eq rfl rfl)

omit [Generator γ] in
/-- Without a background compiler nothing has to wait for it. -/
theorem mustWait_eq_false (hidle : e.core.busy = false) (d : Discarded) :
    mustWait e.queue d = false := by
  have hcurrent : e.queue.current = none := by
    have hidle : (e.background || e.queue.current.isSome || e.inProgress.isSome) = false := hidle
    simp only [Bool.or_eq_false_iff] at hidle
    exact Option.isSome_eq_false_iff.mp hidle.1.2 |> Option.isNone_iff_eq_none.mp
  have hnot : ∀ id, e.queue.isCurrent id = false := by
    intro id
    rw [JobQueue.isCurrent, hcurrent]
    rfl
  cases d with
  | block id => exact hnot id
  | code k =>
    show k.block.any e.queue.isCurrent = false
    cases k.block with
    | none => rfl
    | some id => exact hnot id

/-- The thing whose turn it is is reclaimed. -/
theorem ensures_reclaimOne {sum : Reclaimed} {d : Discarded} {rest : List Discarded}
    (hs : (e.core.amid (d :: rest) sum.blocks).Sound R) :
    Ensures (reclaimOne sum d) e fun sum' e' => e'.core.waiting = e.core.waiting ∧
      Core.Steps R (e.core.amid (d :: rest) sum.blocks) (e'.core.amid rest sum'.blocks) := by
  unfold reclaimOne
  refine Ensures.run rfl ?_
  -- nothing runs code while things are reclaimed, so that nothing has to wait on
  rw [mustWait_eq_false hs.idle d, if_neg Bool.false_ne_true]
  cases d with
  | code k =>
    refine Ensures.bind (ensures_forgetCode? (some k)) ?_
    intro _ e1 h1
    refine Ensures.pure ?_
    rw [h1]
    exact ⟨rfl, .single (.scrap rfl)⟩
  | block id =>
    obtain ⟨-, b, slot, hget, -⟩ := hs.waiting List.mem_cons_self
    refine Ensures.run rfl ?_
    rw [Registry.getD_eq_of_get? (r := e.blocks) hget]
    refine Ensures.bind (ensures_forgetCode? b.code) ?_
    intro _ e1 h1
    refine Ensures.run_core (c := e1.core.withBlock id none) rfl ?_ ?_
    · exact congrArg (fun blocks => { e1.core with blocks }) (Registry.get?_erase_eq_update ..)
    intro e2 h2
    refine Ensures.pure ?_
    rw [h2, h1]
    have hbury := Core.Step.bury (R := R) (c := e.core.amid (.block id :: rest) sum.blocks) rfl hget
    cases hcode : b.code with
    | none =>
      rw [hcode] at hbury
      exact ⟨rfl, .single hbury⟩
    | some k =>
      rw [hcode] at hbury
      exact ⟨rfl, .single hbury⟩

theorem ensures_reclaimAll (sum : Reclaimed) {waiting : List Discarded}
    (hs : (e.core.amid waiting sum.blocks).Sound R) :
    Ensures (waiting.foldlM reclaimOne sum) e fun sum' e' => e'.core.waiting = e.core.waiting ∧
      Core.Steps R (e.core.amid waiting sum.blocks) (e'.core.amid [] sum'.blocks) := by
  induction waiting generalizing sum e with
  | nil => exact Ensures.pure ⟨rfl, .refl _⟩
  | cons d rest ih =>
    rw [List.foldlM_cons]
    refine Ensures.bind (ensures_reclaimOne hs) ?_
    rintro sum1 e1 ⟨hwaiting1, hsteps1⟩
    refine (ih _ (hsteps1.sound hs)).mono ?_
    rintro sum2 e2 ⟨hwaiting2, hsteps2⟩
    exact ⟨hwaiting2.trans hwaiting1, hsteps1.trans hsteps2⟩

omit [Generator γ] in
/-- What was reclaimed is counted. -/
theorem ensures_reportReclaimed (sum : Reclaimed) (hnone : e.core.waiting = []) :
    Ensures (reportReclaimed sum) e fun _ e' =>
      ∃ log, e'.core = { e.core.amid [] sum.blocks with machine := { e.core.machine with log } } := by
  have hsame : e.core.amid [] 0 = e.core := by
    rw [← hnone]
    rfl
  unfold reportReclaimed
  split
  · refine Ensures.run rfl (Ensures.run rfl (Ensures.of_eq rfl
      ⟨(e.machine.note (.reclaimed sum.blocks sum.codes)).log, ?_⟩))
    rw [← hnone]
    rfl
  · rename_i hzero
    have hblocks : sum.blocks = 0 := by omega
    refine Ensures.pure ⟨e.core.machine.log, ?_⟩
    rw [hblocks, hsame]

theorem takes_releasePrograms : Takes R none releasePrograms e fun _ e' =>
      e'.core.waiting = e.core.waiting ∧ e'.core.unreleased = [] := by
  intro hs
  unfold releasePrograms
  refine Takes.look rfl (.ite (fun hempty => .pure ⟨rfl, List.isEmpty_iff.mp hempty⟩) fun _ => ?_) hs
  rw [if_neg]
  · exact .of_steps rfl (fun _ => .single .release) ⟨rfl, rfl⟩
  · intro hbusy
    have hidle : (e.background || e.queue.current.isSome || e.inProgress.isSome) = false := hs.idle
    rw [hbusy, Bool.or_true] at hidle
    cases hidle

/-- Reclaiming leaves nothing to reclaim. -/
theorem takes_reclaim : Takes R none reclaim e fun _ e' =>
    e'.core.waiting = [] ∧ e'.core.unreleased = [] := by
  intro hs
  unfold reclaim
  refine Ensures.bind (P := fun waiting e1 => e1.core.waiting = [] ∧ e1.core.amid waiting 0 = e.core)
    (Ensures.modifyGet ⟨rfl, rfl⟩) ?_
  rintro waiting e1 ⟨hnone, hcore⟩
  refine Ensures.bind (ensures_reclaimAll (R := R) {} (hcore ▸ hs)) ?_
  rintro sum e2 ⟨hwaiting2, hsteps2⟩
  rw [show e1.core.amid waiting (Reclaimed.blocks {}) = e.core from hcore] at hsteps2
  refine Ensures.bind (ensures_reportReclaimed sum (hwaiting2.trans hnone)) ?_
  rintro _ e3 ⟨log, h3⟩
  have hsteps3 : Core.Steps R e.core e3.core := hsteps2.trans (h3 ▸ .single (.log log))
  refine (takes_releasePrograms.ensures (hsteps3.sound hs)).mono ?_
  rintro _ e4 ⟨hsteps4, hwaiting4, hunreleased⟩
  exact ⟨hsteps3.trans hsteps4, hwaiting4.trans (congrArg Core.waiting h3), hunreleased⟩

theorem takes_reportExit (pc : UInt32) : Takes R none (reportExit pc) e fun _ e' => e.Quiet e' := by
  unfold reportExit
  refine .look rfl (.ite (fun _ => ?_) fun _ => .pure ⟨_, rfl⟩)
  refine Takes.bind (takes_note _) ?_
  intro _ e1 _ h1
  exact (takes_record _).mono h1.trans

theorem takes_reportUsage : Takes R none reportUsage e fun _ e' => e.Quiet e' := by
  unfold reportUsage
  refine .look rfl (.ite (fun _ => .pure ⟨_, rfl⟩) fun _ => ?_)
  refine Takes.bind (takes_of_quiet rfl ⟨_, rfl⟩) ?_
  intro _ e1 _ h1
  exact (takes_note _).mono h1.trans

/-- Nothing waits to be reclaimed, and the generator has all programs back that are gone. -/
def Drained (e : Engine δ κ γ) : Prop := e.core.waiting = [] ∧ e.core.unreleased = []

/-- The end of a run. -/
theorem takes_finishRun (pc : UInt32) : Takes R none (finishRun pc) e fun _ e' => e'.Drained := by
  unfold finishRun
  refine Takes.bind (takes_reportExit pc) ?_
  intro _ e1 _ _
  refine Takes.bind takes_reclaim ?_
  intro _ e2 _ hdrained
  refine takes_reportUsage.mono ?_
  rintro _ e3 ⟨log, h3⟩
  exact ⟨(congrArg Core.waiting h3).trans hdrained.1, (congrArg Core.unreleased h3).trans hdrained.2⟩

/-! ## Running -/

/-- The core evolved, with nothing done by the host. -/
abbrev Moved (R : Rules) (e e' : Engine δ κ γ) : Prop := Core.Evolves R False e.core e'.core

variable {pc : UInt32}

theorem LooksUp.moved {found : Option BlockId} (h : LooksUp R e pc found e') : Moved R e e' := by
  cases found with
  | none =>
    obtain ⟨c, hsteps, -, hcore⟩ := h
    rw [Moved, hcore]
    exact (Core.Evolves.of_steps hsteps).trans (.of_changes (.control rfl rfl rfl))
  | some id => exact .of_steps h.1

/-- A clock that is set is nothing that happens to memory or entries. -/
theorem moved_of_clock (hcore : ∃ clock, e'.core =
    { e.core with machine := { e.core.machine with clock } }) : Moved R e e' := by
  obtain ⟨clock, hcore⟩ := hcore
  rw [Moved, hcore]
  exact .of_changes (.control rfl rfl rfl)

/-- The end of a run, after what happened before. -/
theorem ensures_finish {e1 : Engine δ κ γ} (hs : e.core.Sound R) (hmoved : Moved R e e1)
    (next : UInt32) :
    Ensures (do finishRun next; return next : EngineM δ κ γ UInt32) e1 fun _ e' =>
      Moved R e e' ∧ e'.Drained := by
  refine Ensures.bind ((takes_finishRun next).ensures (hmoved.sound hs)) ?_
  rintro _ e2 ⟨hsteps, hdrained⟩
  exact Ensures.pure ⟨hmoved.trans (.of_steps hsteps), hdrained⟩

variable [Device δ] [Coprocessor κ]

/-- A run that is to go on at `pc` gets, dispatch by dispatch, to where it is to go on next. -/
inductive Passes (fuel : Nat) (e : Engine δ κ γ) (pc : UInt32) : Engine δ κ γ → UInt32 → Prop
  | here : Passes fuel e pc e pc
  | next {e1 e2 : Engine δ κ γ} {pc1 pc2 : UInt32} (h : Passes fuel e pc e1 pc1)
      (hdispatch : dispatch fuel pc1 e1 = .ok pc2 e2)
      (hgoes : e2.machine.clock.shouldStop = false) : Passes fuel e pc e2 pc2

variable {fuel : Nat}

theorem Passes.head {pc pc1 pc2 : UInt32} {e1 e2 : Engine δ κ γ}
    (hdispatch : dispatch fuel pc e = .ok pc1 e1) (hgoes : e1.machine.clock.shouldStop = false)
    (h : Passes fuel e1 pc1 e2 pc2) : Passes fuel e pc e2 pc2 := by
  induction h with
  | here => exact .next .here hdispatch hgoes
  | next _ hdispatch hgoes ih => exact .next ih hdispatch hgoes

/-- Whatever a run gets to, the core has evolved. -/
theorem Passes.moved (hR : R.Admits γ) {pc pc' : UInt32}
    (hstart : ∀ {e1 pc1}, Passes fuel e pc e1 pc1 → R.start pc1) (hs : e.core.Sound R)
    (h : Passes fuel e pc e' pc') : Moved R e e' := by
  induction h with
  | here => exact .refl _
  | next hpasses hdispatch _ ih =>
    have hserves := (ensures_dispatch hR (fun _ => hstart hpasses) (ih.sound hs) fuel).ok hdispatch
    exact ih.trans hserves.evolves

theorem ensures_runBlocks (hR : R.Admits γ) {fuel count : Nat}
    (hstart : ∀ {e1 pc1}, Passes fuel e pc e1 pc1 → R.start pc1) (hs : e.core.Sound R) :
    Ensures (runBlocks fuel count pc) e fun _ e' => Moved R e e' := by
  induction count generalizing pc e with
  | zero => exact Ensures.throw trivial
  | succ count ih =>
    unfold runBlocks
    refine Ensures.bind (ensures_dispatch hR (fun _ => hstart .here) hs fuel).self ?_
    rintro next e1 ⟨hdispatch, hserves⟩
    refine Ensures.run rfl ?_
    split
    · exact Ensures.pure hserves.evolves
    · rename_i hgoes
      have hrest : ∀ {e2 pc2}, Passes fuel e1 next e2 pc2 → R.start pc2 :=
        fun h => hstart (h.head hdispatch (Bool.eq_false_iff.mpr hgoes))
      exact (ih hrest (hserves.evolves.sound hs)).mono fun h => hserves.evolves.trans h

theorem ensures_run (hR : R.Admits γ) {pc target : UInt32}
    (hstart : ∀ {e1 pc1}, Passes fuel (e.armed target) pc e1 pc1 → R.start pc1)
    (hs : e.core.Sound R) :
    Ensures (run fuel pc target) e fun _ e' => Moved R e e' ∧ e'.Drained := by
  have harmed : Moved R e (e.armed target) := moved_of_clock ⟨_, rfl⟩
  unfold run
  refine Ensures.run rfl (Ensures.bind (ensures_runBlocks hR hstart (harmed.sound hs)) ?_)
  intro next e1 hmoved
  exact ensures_finish hs (harmed.trans hmoved) next

theorem ensures_executeOne (hR : R.Admits γ) (hstart : R.start pc) (hs : e.core.Sound R) :
    Ensures (executeOne fuel pc) e fun _ e' => Moved R e e' ∧ e'.Drained := by
  unfold executeOne
  refine Ensures.run rfl (Ensures.bind (P := fun _ e1 => Moved R e e1)
    (Ensures.of_eq rfl (moved_of_clock ⟨_, rfl⟩)) ?_)
  intro _ e1 hmoved1
  refine Ensures.bind (ensures_dispatch hR (fun _ => hstart) (hmoved1.sound hs) fuel) ?_
  intro next e2 hserves
  have hmoved2 := hmoved1.trans hserves.evolves
  refine Ensures.bind (P := fun _ e3 => Moved R e2 e3) (Ensures.of_eq rfl ?_) ?_
  · refine Core.Evolves.of_changes (c := e2.core) ?_
    show Machine.Changes False e2.machine (if e2.machine.clock.exit.isNormal then _ else e2.machine)
    split
    · exact .control rfl rfl rfl
    · exact .refl _
  · intro _ e3 hmoved3
    exact ensures_finish hs (hmoved2.trans hmoved3) next

theorem ensures_runInterpreter (hstart : R.start pc) (hs : e.core.Sound R) :
    Ensures (runInterpreter fuel pc) e fun _ e' => Moved R e e' ∧ e'.Drained := by
  unfold runInterpreter
  refine Ensures.bind (P := fun _ e1 => Moved R e e1)
    (Ensures.of_eq rfl (moved_of_clock ⟨_, rfl⟩)) ?_
  intro _ e1 hmoved1
  have hs1 := hmoved1.sound hs
  refine Ensures.bind (ensures_getBlock hstart hs1) ?_
  intro found e2 hlooks
  have hmoved2 := hmoved1.trans hlooks.moved
  have hs2 := hmoved2.sound hs
  cases found with
  | none => exact Ensures.run rfl (ensures_finish hs hmoved2 pc)
  | some id =>
    obtain ⟨-, b, hfound⟩ := hlooks
    refine Ensures.bind (ensures_interpret R hfound.get hfound.start fuel) ?_
    rintro next e3 ⟨hruns, -⟩
    have hmoved3 := hmoved2.trans hruns.evolves
    refine Ensures.bind ((takes_dropUncached id).ensures (hmoved3.sound hs)) ?_
    rintro _ e4 ⟨hsteps, -⟩
    exact Ensures.run rfl (ensures_finish hs (hmoved3.trans (.of_steps hsteps)) next)

end Engine

/-! ## Calls from the host -/

/-- What the host can ask of an engine. -/
inductive HostCall where
  | run (pc target : UInt32)
  | executeOne (pc : UInt32)
  | runInterpreter (pc : UInt32)
  | invalidate (addr length : UInt32)
  | invalidateAll
  | setInvalidateMode (hostOnly : Bool)
  | reenableCompiler
  | write (w : HostWrite)
  | restoreRegisters (regs : Registers)
  | resetCycle (cycles : UInt32)
  | setTargetCycle (cycles : UInt32)
  | dumpTrace (count : Nat)

namespace HostCall

/-- Whether guest code runs. -/
def runsGuest : HostCall → Bool
  | run _ _ | executeOne _ | runInterpreter _ => true
  | _ => false

/-- Whether the host leaves alone memory and the choice of who invalidates. -/
def isTame : HostCall → Bool
  | write _ | setInvalidateMode _ => false
  | _ => true

variable [Device δ] [Coprocessor κ] [Generator γ]

/-- Do what the host asks for, with `fuel` for loops. -/
def perform (fuel : Nat) : HostCall → EngineM δ κ γ Unit
  | run pc target => discard (Engine.run fuel pc target)
  | executeOne pc => discard (Engine.executeOne fuel pc)
  | runInterpreter pc => discard (Engine.runInterpreter fuel pc)
  | invalidate addr length => Engine.invalidate addr length
  | invalidateAll => Engine.invalidateAll
  | setInvalidateMode hostOnly => Engine.setInvalidateMode hostOnly
  | reenableCompiler => Engine.reenableCompiler
  | write w => discard (Engine.writeMemory w.apply)
  | restoreRegisters regs => Engine.restoreRegisters regs
  | resetCycle cycles => Engine.resetCycle cycles
  | setTargetCycle cycles => Engine.setTargetCycle cycles
  | dumpTrace count => Engine.dumpTrace count

/-- Guest code that the call runs is dispatched at addresses of `start` only. -/
def StartsIn (start : UInt32 → Prop) (fuel : Nat) (e : Engine δ κ γ) : HostCall → Prop
  | run pc target => ∀ {e' : Engine δ κ γ} {pc' : UInt32},
      Engine.Passes fuel (e.armed target) pc e' pc' → start pc'
  | executeOne pc | runInterpreter pc => start pc
  | _ => True

theorem startsIn_of_forall {start : UInt32 → Prop} (h : ∀ pc, start pc) (fuel : Nat)
    (e : Engine δ κ γ) (call : HostCall) : call.StartsIn start fuel e := by
  cases call with
  | run => exact fun _ => h _
  | executeOne pc | runInterpreter pc => exact h pc
  | _ => trivial

end HostCall

namespace Machine

variable {free free' : Prop} {m m' : Machine δ κ}

theorem Change.mono (h : Change free m m') (hfree : free → free') : Change free' m m' := by
  cases h with
  | control hmemory hentries hmode => exact .control hmemory hentries hmode
  | write hplaces hmemory hentries hmode => exact .write hplaces hmemory hentries hmode
  | overwrite hallowed hmemory hentries hmode =>
    exact .overwrite (hallowed.imp_left hfree) hmemory hentries hmode
  | demote slot id => exact .demote slot id
  | invalidate addr length => exact .invalidate addr length
  | invalidateAll => exact .invalidateAll
  | mode h hostOnly => exact .mode (hfree h) hostOnly

end Machine

theorem Core.Evolves.mono [Generator γ] {R : Rules} {free free' : Prop} {c c' : Core δ κ γ}
    (h : Evolves R free c c') (hfree : free → free') : Evolves R free' c c' := by
  induction h with
  | refl => exact refl c
  | tail _ hmove ih =>
    refine Relation.ReflTransGen.tail ih ?_
    cases hmove with
    | step hstep => exact .step hstep
    | machine hchange => exact .machine (hchange.mono hfree)

namespace Engine

/-! ### Calls that run no guest code -/

section Host

variable {free : Prop} {e e' : Engine δ κ γ}

/-- Something happened to the machine, and nothing else. -/
def Touched (free : Prop) (e e' : Engine δ κ γ) : Prop :=
  ∃ m, Machine.Changes free e.machine m ∧ e'.core = { e.core with machine := m }

namespace Touched

theorem of_core (h : e'.core = e.core) : Touched free e e' := ⟨e.machine, .refl _, h⟩

theorem trans {e'' : Engine δ κ γ} (h1 : Touched free e e') (h2 : Touched free e' e'') :
    Touched free e e'' := by
  obtain ⟨m1, hm1, h1⟩ := h1
  obtain ⟨m2, hm2, h2⟩ := h2
  rw [show e'.machine = m1 from congrArg Core.machine h1] at hm2
  rw [h1] at h2
  exact ⟨m2, hm1.trans hm2, h2⟩

theorem evolves [Generator γ] {R : Rules} (h : Touched free e e') :
    Core.Evolves R free e.core e'.core := by
  obtain ⟨m, hm, h⟩ := h
  rw [h]
  exact .of_changes hm

end Touched

theorem touched_of_change (hcore : e'.core = { e.core with machine := e'.machine })
    (h : Machine.Change free e.machine e'.machine) : Touched free e e' :=
  ⟨e'.machine, .single h, hcore⟩

/-- Neither memory nor entries are concerned. -/
theorem touched_of_control (hcore : e'.core = { e.core with machine := e'.machine })
    (hmemory : e'.machine.memory = e.machine.memory)
    (hentries : e'.machine.entries = e.machine.entries)
    (hmode : e'.machine.hostInvalidationOnly = e.machine.hostInvalidationOnly) :
    Touched free e e' :=
  ⟨e'.machine, .control hmemory hentries hmode, hcore⟩

theorem ensures_invalidate (addr length : UInt32) :
    Ensures (invalidate addr length) e fun _ e' => Touched free e e' := by
  have hentries : Touched free e { e with machine := { e.machine with
      entries := (e.machine.entries.invalidate addr length).2 } } :=
    touched_of_change rfl (.invalidate addr length)
  have hclear : Touched free e { e with machine := (e.machine.invalidate addr length).2 } :=
    hentries.trans (touched_of_control rfl rfl rfl rfl)
  unfold invalidate
  refine Ensures.bind (P := fun _ e1 => Touched free e e1) (Ensures.modifyGet hclear) ?_
  intro cleared e1 h1
  split
  · exact Ensures.of_eq rfl (h1.trans (.of_core rfl))
  · exact Ensures.pure h1

theorem ensures_invalidateAll (free : Prop) :
    Ensures invalidateAll e fun _ e' => Touched free e e' := by
  refine Ensures.run rfl (Ensures.run rfl (Ensures.of_eq rfl ?_))
  have hentries : Touched free e { e with machine := { e.machine with
      entries := e.machine.entries.invalidateAll } } := touched_of_change rfl .invalidateAll
  exact hentries.trans (touched_of_control rfl rfl rfl rfl)

theorem ensures_setInvalidateMode (hfree : free) (hostOnly : Bool) :
    Ensures (setInvalidateMode hostOnly) e fun _ e' => Touched free e e' := by
  unfold setInvalidateMode
  refine Ensures.run rfl ?_
  split
  · refine Ensures.bind (ensures_invalidateAll free) ?_
    intro _ e1 h1
    exact Ensures.of_eq rfl (h1.trans (touched_of_change rfl (.mode hfree hostOnly)))
  · exact Ensures.pure (.of_core rfl)

theorem ensures_writeMemory (hfree : free) (w : HostWrite) :
    Ensures (writeMemory w.apply) e fun _ e' => Touched free e e' :=
  Ensures.modifyGet (touched_of_change rfl
    (.overwrite (.inl hfree) (w.sameExcept_apply e.machine.memory) rfl rfl))

theorem ensures_dumpTrace (count : Nat) :
    Ensures (dumpTrace count) e fun _ e' => Touched free e e' :=
  Ensures.run rfl (Ensures.of_eq rfl (touched_of_control rfl rfl rfl rfl))

theorem ensures_reenableCompiler : Ensures reenableCompiler e fun _ e' => Touched free e e' :=
  Ensures.run rfl (Ensures.of_eq rfl (touched_of_control rfl rfl rfl rfl))

end Host

/-! ### All calls -/

variable [Device δ] [Coprocessor κ] [Generator γ] {R : Rules} {e e' : Engine δ κ γ}

/-- Everything that the host asks for is an evolution of the core, and runs of guest code leave
nothing to reclaim. Only some calls are more than guest code could bring about. -/
theorem ensures_call (hR : R.Admits γ) {free : Prop} {fuel : Nat} {call : HostCall}
    (hstart : call.StartsIn R.start fuel e) (hfree : call.isTame = false → free)
    (hs : e.core.Sound R) :
    Ensures (call.perform fuel) e fun _ e' =>
      Core.Evolves R free e.core e'.core ∧ (call.runsGuest = true → e'.Drained) := by
  have hruns : ∀ {x : EngineM δ κ γ UInt32}, Ensures x e (fun _ e' => Moved R e e' ∧ e'.Drained) →
      Ensures (Functor.discard x) e fun _ e' =>
        Core.Evolves R free e.core e'.core ∧ (true = true → e'.Drained) :=
    fun hx => Ensures.map (hx.mono fun h => ⟨h.1.mono False.elim, fun _ => h.2⟩)
  have hhost : ∀ {x : EngineM δ κ γ Unit}, Ensures x e (fun _ e' => Touched free e e') →
      Ensures x e fun _ e' => Core.Evolves R free e.core e'.core ∧ (false = true → e'.Drained) :=
    fun hx => hx.mono fun h => ⟨h.evolves, fun h => by cases h⟩
  cases call with
  | run pc target => exact hruns (ensures_run hR hstart hs)
  | executeOne pc => exact hruns (ensures_executeOne hR hstart hs)
  | runInterpreter pc => exact hruns (ensures_runInterpreter hstart hs)
  | invalidate addr length => exact hhost (ensures_invalidate addr length)
  | invalidateAll => exact hhost (ensures_invalidateAll _)
  | setInvalidateMode hostOnly => exact hhost (ensures_setInvalidateMode (hfree rfl) hostOnly)
  | reenableCompiler => exact hhost ensures_reenableCompiler
  | write w => exact hhost (Ensures.map (ensures_writeMemory (hfree rfl) w))
  | restoreRegisters | resetCycle | setTargetCycle =>
    exact hhost (Ensures.of_eq rfl (touched_of_control rfl rfl rfl rfl))
  | dumpTrace count => exact hhost (ensures_dumpTrace count)

/-- The same where guest code may start anywhere. -/
theorem ensures_perform (hR : R.Admits γ) (hstart : ∀ pc, R.start pc) (hs : e.core.Sound R)
    (fuel : Nat) (call : HostCall) :
    Ensures (call.perform fuel) e fun _ e' =>
      Core.Evolves R True e.core e'.core ∧ (call.runsGuest = true → e'.Drained) :=
  ensures_call hR (HostCall.startsIn_of_forall hstart fuel e call) (fun _ => trivial) hs

/-! ## All engines there are -/

/-- An engine without background compiler that the host can get at, given generator `g` at first. -/
inductive Reachable (g : γ) : Engine δ κ γ → Prop
  | new (memory : Memory δ) (cop0 cop2 : κ) {config : Config} (log : Log)
      (hsync : config.threaded = false) : Reachable g (create memory cop0 cop2 config g log)
  | call {e e' : Engine δ κ γ} {fuel : Nat} {call : HostCall} (h : Reachable g e)
      (hcall : call.perform fuel e = .ok () e') : Reachable g e'

/-- Calls, one after the other. -/
def performAll (fuel : Nat) : List HostCall → EngineM δ κ γ Unit
  | [] => pure ()
  | call :: calls => do
    call.perform fuel
    performAll fuel calls

theorem Reachable.performAll {g : γ} {e e' : Engine δ κ γ} {fuel : Nat} {calls : List HostCall}
    (h : Reachable g e) (hcalls : Engine.performAll fuel calls e = .ok () e') : Reachable g e' := by
  induction calls generalizing e with
  | nil =>
    cases hcalls
    exact h
  | cons call calls ih =>
    obtain ⟨_, e1, hcall, hcalls⟩ := bind_ok hcalls
    exact ih (h.call hcall) hcalls

omit [Device δ] [Coprocessor κ] in
/-- A new engine has no blocks, so nothing about them can be wrong. -/
theorem sound_create (memory : Memory δ) (cop0 cop2 : κ) {config : Config} (g : γ) (log : Log)
    (hsync : config.threaded = false) :
    (create memory cop0 cop2 config g log : Engine δ κ γ).core.Sound R where
  maxBlockOps := Nat.min_le_right _ _
  idle := by
    show (config.threaded || _ || _) = false
    rw [hsync]
    rfl
  cache := BlockCache.wellFormed_empty
  block {id b} h := by
    cases (Registry.get?_empty id).symm.trans h
  cached h := absurd h (BlockCache.not_holds_empty _)
  waiting h := by cases h
  condemned := List.Pairwise.nil
  code {n k id} h := by
    cases (Registry.get?_empty n).symm.trans h

/-- An engine that can be reached has evolved from a new one. -/
theorem Reachable.evolves {g : γ} (h : Reachable g e) (hR : R.Admits γ)
    (hstart : ∀ pc, R.start pc) :
    ∃ memory cop0 cop2 config log,
      config.threaded = false ∧
      Core.Evolves R True (create memory cop0 cop2 config g log).core e.core := by
  induction h with
  | new memory cop0 cop2 log hsync =>
    exact ⟨memory, cop0, cop2, _, log, hsync, .refl _⟩
  | call _ hcall ih =>
    obtain ⟨memory, cop0, cop2, config, log, hsync, hevolves⟩ := ih
    have hs := hevolves.sound (sound_create memory cop0 cop2 g log hsync)
    exact ⟨memory, cop0, cop2, config, log, hsync,
      hevolves.trans ((ensures_perform hR hstart hs _ _).ok hcall).1⟩

/-- What holds of new engines and survives every evolution of a sound one holds of all. -/
theorem Reachable.invariant {g : γ} {I : Core δ κ γ → Prop} (h : Reachable g e) (hR : R.Admits γ)
    (hstart : ∀ pc, R.start pc)
    (hcreate : ∀ memory cop0 cop2 config log,
      I (create memory cop0 cop2 config g log).core)
    (hmove : ∀ {c c'}, Core.Sound R c → I c → Core.Move R True c c' → I c') :
    e.core.Sound R ∧ I e.core := by
  obtain ⟨memory, cop0, cop2, config, log, hsync, hevolves⟩ := h.evolves hR hstart
  have hs := sound_create (R := R) memory cop0 cop2 g log hsync
  have hI := hcreate memory cop0 cop2 config log
  generalize (create memory cop0 cop2 config g log).core = c0 at hevolves hs hI
  generalize e.core = c at hevolves ⊢
  induction hevolves with
  | refl => exact ⟨hs, hI⟩
  | tail _ hm ih => exact ⟨hm.sound ih.1, hmove ih.1 ih.2 hm⟩

end Engine

end Dynarec
