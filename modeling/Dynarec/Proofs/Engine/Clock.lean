/-
  Dynarec.Proofs.Engine.Clock

  What an engine does to the clock of its machine.

  Blocks, code, entries and reports take no guest time: whatever the engine
  does about them, in whichever order and with a background compiler or
  without, leaves the clock alone. Time passes in guest code, and that moves
  the target only if it gives a reason to leave.
-/
import Dynarec.Engine.Run
import Dynarec.Proofs.Engine.Operations
import Dynarec.Proofs.Machine.Time

namespace Dynarec

variable {δ κ γ α β : Type}

instance : IsPreorder Clock Clock.Follows where
  refl := .refl
  trans _ _ _ := .trans

/-- A target is never behind the counter. -/
theorem Clock.current_le_arm (c : Clock) (target : UInt32) : c.current ≤ (c.arm target).target := by
  unfold arm
  dsimp only
  split
  · exact UInt32.le_iff_toNat_le.mpr (Nat.le_of_lt_succ c.current.toNat_lt)
  · exact UInt32.not_lt.mp ‹_›

/-! ## Operations and the clock -/

/-- Whenever the operation comes back, `P` relates the clocks before and after. -/
def OnClock (P : Clock → Clock → Prop) (x : EngineM δ κ γ α) : Prop :=
  ∀ e a e', x e = .ok a e' → P e.machine.clock e'.machine.clock

/-- The operation leaves the clock alone. -/
abbrev Timeless (x : EngineM δ κ γ α) : Prop := OnClock Eq x

namespace OnClock

variable {P : Clock → Clock → Prop} {x : EngineM δ κ γ α} {f : α → EngineM δ κ γ β}
  {g : Engine δ κ γ → α × Engine δ κ γ}

theorem modifyGet (h : ∀ e, P e.machine.clock (g e).2.machine.clock) :
    OnClock P (modifyGet g : EngineM δ κ γ α) := by
  intro e a e' hx
  cases hx
  exact h e

theorem modify {g : Engine δ κ γ → Engine δ κ γ} (h : ∀ e, P e.machine.clock (g e).machine.clock) :
    OnClock P (modify g : EngineM δ κ γ PUnit) := modifyGet h

theorem throw (abort : Abort) : OnClock P (throw abort : EngineM δ κ γ α) :=
  fun _ _ _ h => by cases h

variable [IsPreorder Clock P]

theorem pure (a : α) : OnClock P (pure a : EngineM δ κ γ α) := by
  intro e a' e' hx
  cases hx
  exact refl_of P _

theorem get : OnClock P (get : EngineM δ κ γ (Engine δ κ γ)) := by
  intro e a e' hx
  cases hx
  exact refl_of P _

theorem of_timeless (h : Timeless x) : OnClock P x :=
  fun e a e' hx => h e a e' hx ▸ refl_of P _

theorem bind (hx : OnClock P x) (hf : ∀ a, OnClock P (f a)) : OnClock P (x >>= f) := by
  intro e b e' h
  obtain ⟨a, e1, h1, h2⟩ := bind_ok h
  exact trans_of P (hx _ _ _ h1) (hf a _ _ _ h2)

/-- Nothing is said about a step after which the operation does not come back. -/
theorem step (h : ∀ e a e', g e = (a, e') → (P e.machine.clock e'.machine.clock ∧ OnClock P (f a)) ∨
      ∃ abort, f a = MonadExcept.throw abort) :
    OnClock P (MonadState.modifyGet g >>= f) := by
  intro e b e' hx
  obtain ⟨a, e1, h1, h2⟩ := bind_ok hx
  cases h1
  rcases h e _ _ rfl with ⟨hP, hf⟩ | ⟨abort, habort⟩
  · exact trans_of P hP (hf _ _ _ h2)
  · rw [habort] at h2
    cases h2

theorem map {g : α → β} (hx : OnClock P x) : OnClock P (g <$> x) := by
  rw [map_eq_pure_bind]
  exact hx.bind fun _ => pure _

/-- First look at the engine. -/
theorem look {f : Engine δ κ γ → EngineM δ κ γ β} (hf : ∀ e, OnClock P (f e)) :
    OnClock P (MonadState.get >>= f) := get.bind hf

omit [IsPreorder Clock P] in
theorem ite {c : Prop} [Decidable c] {y : EngineM δ κ γ α} (hx : OnClock P x) (hy : OnClock P y) :
    OnClock P (if c then x else y) := by
  split
  · exact hx
  · exact hy

theorem forM {body : β → EngineM δ κ γ PUnit} (hbody : ∀ b, OnClock P (body b)) (items : List β) :
    OnClock P (items.forM body) := by
  induction items with
  | nil => exact pure _
  | cons b items ih => exact (hbody b).bind fun _ => ih

theorem foldlM {body : α → β → EngineM δ κ γ α} (hbody : ∀ a b, OnClock P (body a b))
    (items : List β) (a : α) : OnClock P (items.foldlM body a) := by
  induction items generalizing a with
  | nil => exact pure a
  | cons b items ih =>
    rw [List.foldlM_cons]
    exact (hbody a b).bind ih

end OnClock

/-- The operation always comes back, and it leaves the clock alone. -/
def Harmless (x : EngineM δ κ γ α) : Prop :=
  ∀ e, ∃ a e', x e = .ok a e' ∧ e'.machine.clock = e.machine.clock

namespace Harmless

variable {x : EngineM δ κ γ α} {f : α → EngineM δ κ γ β}

theorem modifyGet {g : Engine δ κ γ → α × Engine δ κ γ}
    (h : ∀ e, (g e).2.machine.clock = e.machine.clock) :
    Harmless (modifyGet g : EngineM δ κ γ α) := fun e => ⟨_, _, rfl, h e⟩

theorem modify {g : Engine δ κ γ → Engine δ κ γ} (h : ∀ e, (g e).machine.clock = e.machine.clock) :
    Harmless (modify g : EngineM δ κ γ PUnit) := modifyGet h

theorem pure (a : α) : Harmless (pure a : EngineM δ κ γ α) := fun _ => ⟨_, _, rfl, rfl⟩

theorem bind (hx : Harmless x) (hf : ∀ a, Harmless (f a)) : Harmless (x >>= f) := by
  intro e
  obtain ⟨a, e1, h1, hclock1⟩ := hx e
  obtain ⟨b, e2, h2, hclock2⟩ := hf a e1
  refine ⟨b, e2, ?_, hclock2.trans hclock1⟩
  rw [bind_eq_of_ok h1, h2]

theorem look {f : Engine δ κ γ → EngineM δ κ γ β} (hf : ∀ e, Harmless (f e)) :
    Harmless (MonadState.get >>= f) := bind (fun _ => ⟨_, _, rfl, rfl⟩) hf

theorem ite {c : Prop} [Decidable c] {y : EngineM δ κ γ α} (hx : Harmless x) (hy : Harmless y) :
    Harmless (if c then x else y) := by
  split
  · exact hx
  · exact hy

theorem foldlM {body : α → β → EngineM δ κ γ α} (hbody : ∀ a b, Harmless (body a b))
    (items : List β) (a : α) : Harmless (items.foldlM body a) := by
  induction items generalizing a with
  | nil => exact pure a
  | cons b items ih =>
    rw [List.foldlM_cons]
    exact (hbody a b).bind ih

end Harmless

namespace Engine

/-! ## Blocks and code

The proofs follow the operations line by line. A line that updates something else than the clock is
`.modify fun _ => rfl`, whatever it updates. -/

variable (id : BlockId)

theorem timeless_blockOf : Timeless (blockOf id : EngineM δ κ γ Block) :=
  .look fun _ => .pure _

theorem timeless_submit : Timeless (submit id : EngineM δ κ γ Unit) :=
  .bind (.modifyGet fun _ => rfl) fun _ => .bind (timeless_blockOf id) fun _ => .modify fun _ => rfl

theorem timeless_kill : Timeless (kill id : EngineM δ κ γ Unit) :=
  .bind (.modify fun _ => rfl) fun _ => .bind (.modify fun _ => rfl) fun _ =>
    .bind (timeless_blockOf id) fun _ => .look fun _ =>
      .ite (.modify fun _ => rfl) (.bind (.modify fun _ => rfl) fun _ => .throw _)

theorem timeless_flagRecompile : Timeless (flagRecompile id : EngineM δ κ γ Unit) :=
  .bind (timeless_blockOf id) fun _ => .modify fun _ => rfl

theorem timeless_beginCompile (background : Bool) :
    Timeless (beginCompile id background : EngineM δ κ γ (Option PendingCompile)) := by
  refine .look fun e => .ite (.pure _) (.bind (timeless_blockOf id) fun b => ?_)
  cases b.ops with
  | none => exact .pure _
  | some ops =>
    exact .bind (.ite (.modify fun _ => rfl) (.pure _)) fun _ =>
      .bind (.modify fun _ => rfl) fun _ => .pure _

theorem timeless_failCompile (error : CodegenError) :
    Timeless (failCompile id error : EngineM δ κ γ Unit) :=
  .bind (timeless_blockOf id) fun _ => .bind (.modify fun _ => rfl) fun _ =>
    .bind (.modify fun _ => rfl) fun _ => .bind (.modify fun _ => rfl) fun _ =>
      .bind (.modify fun _ => rfl) fun _ => .bind (.modifyGet fun _ => rfl) fun _ =>
        .modify fun _ => rfl

theorem timeless_killCovered (pc : UInt32) (offset : Nat) :
    Timeless (killCovered id pc offset : EngineM δ κ γ Unit) := by
  refine .look fun e => ?_
  cases e.cache.find? (pc + offset.toUInt32 * 4) with
  | none => exact .pure _
  | some other =>
    exact .ite (.bind (timeless_kill other) fun _ => .bind (.modify fun _ => rfl) fun _ =>
      .bind (.modify fun _ => rfl) fun _ => .modify fun _ => rfl) (.pure _)

theorem timeless_publishEntry (code : CodeId) (b : Block) (slots : Array Nat) (offset : Nat) :
    Timeless (publishEntry code b slots offset : EngineM δ κ γ (Array Nat)) := by
  refine .look fun e => ?_
  cases e.machine.entries.index? (b.start + offset.toUInt32 * 4) with
  | none => exact .pure _
  | some slot => exact .bind (.modify fun _ => rfl) fun _ => .pure _

theorem timeless_chargeBudget (code : CodeId) (size : Nat) :
    Timeless (chargeBudget code size : EngineM δ κ γ Unit) := by
  refine .bind (.modifyGet fun _ => rfl) fun evicted => .forM (fun victim => .look fun e => ?_) _
  cases e.codes.get? victim.toNat with
  | none => exact .pure _
  | some old => exact .bind (.modify fun _ => rfl) fun _ => .modify fun _ => rfl

variable (p : PendingCompile)

theorem timeless_adoptCode (compiled : CompiledCode) :
    Timeless (adoptCode p compiled : EngineM δ κ γ Unit) := by
  refine .bind (.modify fun _ => rfl) fun _ => .bind (timeless_blockOf p.block) fun b =>
    .bind (.modify fun _ => rfl) fun _ => .bind ?_ fun _ => .bind ?_ fun _ =>
      .bind (timeless_chargeBudget _ _) fun _ => .bind (.modify fun _ => rfl) fun _ =>
        .bind (.modify fun _ => rfl) fun _ => .modify fun _ => rfl
  · cases b.code with
    | none => exact .pure _
    | some old =>
      exact .bind (.modify fun _ => rfl) fun _ => .bind (.modify fun _ => rfl) fun _ =>
        .modify fun _ => rfl
  · exact .ite (timeless_flagRecompile p.block) (.ite (.modify fun _ => rfl) (.pure _))

theorem timeless_publish (emitted : Emitted) :
    Timeless (publish p emitted : EngineM δ κ γ Bool) := by
  refine .bind (.modify fun _ => rfl) fun _ => .bind (.modifyGet fun _ => rfl) fun code =>
    .bind (timeless_blockOf p.block) fun b => .look fun e => ?_
  cases e.machine.entries.index? b.start with
  | none => exact .bind (.modify fun _ => rfl) fun _ => .throw _
  | some start =>
    refine .ite (.bind (.modify fun _ => rfl) fun _ => .bind (.modify fun _ => rfl) fun _ =>
      .pure _) ?_
    refine .bind (.forM (timeless_killCovered _ _) _) fun _ =>
      .bind (.foldlM (timeless_publishEntry _ _) _ _) fun slots =>
        .bind (.modify fun _ => rfl) fun _ => .bind ?_ fun published => .ite ?_ ?_
    · exact .look fun _ => .ite (.pure _) (.bind (.modify fun _ => rfl) fun _ => .pure _)
    · exact .bind (timeless_adoptCode _ _) fun _ => .pure _
    · exact .bind (.modify fun _ => rfl) fun _ => .bind (.modify fun _ => rfl) fun _ =>
        .bind (.modify fun _ => rfl) fun _ => .pure _

variable [Generator γ]

theorem timeless_finishCompile (background : Bool) :
    Timeless (finishCompile p background : EngineM δ κ γ Bool) := by
  refine .bind (.modifyGet fun e => ?_) fun outcome => .bind (.modify fun _ => rfl) fun _ => ?_
  · cases background with
    | true => rfl
    | false => rfl
  · obtain ⟨error | emitted, notices⟩ := outcome
    · cases error with
      | registersExhausted => exact .throw _
      | codegen error => exact .bind (timeless_failCompile _ _) fun _ => .pure _
    · exact timeless_publish p emitted

theorem timeless_compileNow : Timeless (compileNow id : EngineM δ κ γ Unit) := by
  refine .bind (timeless_beginCompile id false) fun pending => ?_
  cases pending with
  | none => exact .pure _
  | some p => exact .bind (timeless_finishCompile p false) fun _ => .pure _

/-! ## The background compiler -/

theorem timeless_workOn : Timeless (workOn p : EngineM δ κ γ Bool) :=
  .look fun _ => .ite
    (.bind (timeless_finishCompile p true) fun _ => .bind (.modify fun _ => rfl) fun _ => .pure _)
    (.bind (.modify fun _ => rfl) fun _ => .pure _)

theorem timeless_takeJob : Timeless (takeJob : EngineM δ κ γ Bool) := by
  refine .bind (.modifyGet fun _ => rfl) fun job => ?_
  cases job with
  | none => exact .pure _
  | some id =>
    refine .bind (timeless_blockOf id) fun b => .ite (.pure _)
      (.bind (.modify fun _ => rfl) fun _ => .bind (timeless_beginCompile id true) fun pending => ?_)
    cases pending with
    | none => exact .pure _
    | some p => exact timeless_workOn p

theorem timeless_takeJobs (fuel : Nat) : Timeless (takeJobs fuel : EngineM δ κ γ Unit) := by
  induction fuel with
  | zero => exact .pure _
  | succ fuel ih => exact .bind timeless_takeJob fun _ => .ite ih (.pure _)

theorem timeless_work : Timeless (work : EngineM δ κ γ Unit) := by
  -- the rest is the same whether or not a job had been begun
  have hrest : ∀ goOn : Bool, Timeless
      (if goOn then do takeJobs ((← get).queue.size + 1) else pure () : EngineM δ κ γ Unit) :=
    fun _ => .ite (.look fun _ => timeless_takeJobs _) (.pure _)
  refine .look fun _ => .ite (.look fun e => ?_) (.pure _)
  cases e.inProgress with
  | none => exact .bind (.pure _) hrest
  | some p => exact .bind (timeless_workOn p) hrest

/-! ## The end of a run -/

section

omit [Generator γ]

theorem harmless_forgetCode (code : CompiledCode) :
    Harmless (forgetCode code : EngineM δ κ γ Unit) :=
  .bind (.modify fun _ => rfl) fun _ => .modify fun _ => rfl

theorem harmless_reclaimOne (sum : Reclaimed) (d : Discarded) :
    Harmless (reclaimOne sum d : EngineM δ κ γ Reclaimed) := by
  refine .look fun _ => .ite (.bind (.modify fun _ => rfl) fun _ => .pure _) ?_
  cases d with
  | code code => exact .bind (harmless_forgetCode code) fun _ => .pure _
  | block id =>
    refine .bind (.look fun _ => .pure _) fun b => .bind ?_ fun _ =>
      .bind (.modify fun _ => rfl) fun _ => .pure _
    cases b.code with
    | none => exact .pure _
    | some code => exact harmless_forgetCode code

end

theorem harmless_reclaim : Harmless (reclaim : EngineM δ κ γ Unit) := by
  refine .bind (.modifyGet fun _ => rfl) fun waiting =>
    .bind (.foldlM harmless_reclaimOne waiting {}) fun sum => .bind ?_ fun _ => ?_
  · exact .ite (.bind (.modify fun _ => rfl) fun _ => .bind (.modify fun _ => rfl) fun _ =>
      .modify fun _ => rfl) (.pure _)
  · exact .look fun _ => .ite (.pure _) (.ite (.modify fun _ => rfl) (.modify fun _ => rfl))

theorem harmless_finishRun (pc : UInt32) : Harmless (finishRun pc : EngineM δ κ γ Unit) := by
  refine .bind ?_ fun _ => .bind harmless_reclaim fun _ => ?_
  · exact .look fun _ => .ite (.bind (.modify fun _ => rfl) fun _ => .modify fun _ => rfl) (.pure _)
  · exact .look fun _ => .ite (.pure _) (.bind (.modify fun _ => rfl) fun _ => .modify fun _ => rfl)

/-! ## Guest code -/

section

omit [Generator γ]

theorem timeless_republish (id : BlockId) : Timeless (republish id : EngineM δ κ γ Unit) := by
  refine .bind (timeless_blockOf id) fun b => .look fun e => ?_
  cases e.machine.entries.index? b.start with
  | none => exact .pure _
  | some slot => exact .bind (.modify fun _ => rfl) fun _ => .modify fun _ => rfl

theorem timeless_cacheBlock (config : Config) (id : BlockId) (b : Block) (slot : Option Nat) :
    Timeless (cacheBlock config id b slot : EngineM δ κ γ Unit) := by
  cases slot with
  | none => exact .modify fun _ => rfl
  | some slot => exact .bind (.modify fun _ => rfl) fun _ => .ite (.modify fun _ => rfl) (.pure _)

theorem follows_precompile (pc : UInt32) :
    OnClock Clock.Follows (precompile pc : EngineM δ κ γ (Option BlockId)) := by
  refine .look fun _ => .look fun _ => .look fun _ => .look fun _ => ?_
  split
  · exact .bind (.modify fun _ => .refl _) fun _ =>
      .bind (.modify fun e => .setExit e.machine.clock _) fun _ => .pure _
  · -- once the code has been fetched there is nothing about it that takes time
    refine .of_timeless (.bind ?_ fun _ => .bind (.modifyGet fun _ => rfl) fun id =>
      .bind (.modify fun _ => rfl) fun _ => .bind (.modify fun _ => rfl) fun _ =>
        .bind (.modify fun _ => rfl) fun _ => .bind (timeless_cacheBlock _ _ _ _) fun _ => .pure _)
    exact .bind (.modify fun _ => rfl) fun _ => .ite (.modify fun _ => rfl) (.pure _)

theorem follows_getBlock (pc : UInt32) :
    OnClock Clock.Follows (getBlock pc : EngineM δ κ γ (Option BlockId)) := by
  refine .look fun e => ?_
  cases e.cache.find? pc with
  | none => exact follows_precompile pc
  | some id =>
    refine .bind (.of_timeless (timeless_blockOf id)) fun b =>
      .look fun _ => .ite (.pure _) (.ite (.of_timeless ?_) (.bind (.of_timeless ?_) fun _ => ?_))
    · exact .bind (timeless_republish id) fun _ => .bind (.modify fun _ => rfl) fun _ =>
        .bind (.modify fun _ => rfl) fun _ => .pure _
    · exact .modify fun _ => rfl
    · exact .bind (.of_timeless (timeless_kill id)) fun _ =>
        .bind (.modify fun _ => .refl _) fun _ => .bind (.modify fun _ => .refl _) fun _ =>
          .bind (.modify fun _ => .refl _) fun _ => follows_precompile pc

end

variable [Device δ] [Coprocessor κ] (ht : KeepsTime δ κ) (fuel : Nat)
include ht

section

omit [Generator γ]

theorem follows_callCode (code : CompiledCode) (offset : Nat) (id : BlockId) (b : Block) :
    OnClock Clock.Follows (callCode fuel code offset id b : EngineM δ κ γ UInt32) := by
  refine .step fun e answer e' h => ?_
  dsimp only at h
  split at h
  · -- the code is still running
    cases h
    exact .inr ⟨_, rfl⟩
  · rename_i r hcall
    have hfollows := (Machine.guestRelation_follows ht).call hcall
    cases h
    refine .inl ⟨?_, .pure _⟩
    split
    · exact hfollows
    · exact hfollows

variable (id : BlockId)

theorem follows_interpret : OnClock Clock.Follows (interpret fuel id : EngineM δ κ γ UInt32) := by
  refine .bind (.of_timeless (timeless_blockOf id)) fun b => .look fun _ =>
    .step fun e answer e' h => ?_
  split at h
  · -- the interpreter is still running
    cases h
    exact .inr ⟨_, rfl⟩
  · rename_i r hemulate
    cases h
    refine .inl ⟨(Machine.guestRelation_follows ht).emulate hemulate, .of_timeless ?_⟩
    exact .bind (.modify fun _ => rfl) fun _ => .look fun _ => .bind (.modify fun _ => rfl) fun _ =>
      .pure _

theorem follows_runMemset : OnClock Clock.Follows (runMemset fuel id : EngineM δ κ γ UInt32) := by
  refine .bind (.of_timeless (timeless_blockOf id)) fun b => .look fun _ =>
    .bind (.of_timeless (.modifyGet fun e => (Machine.clock_memset e.machine).symm)) fun answer => ?_
  cases answer with
  | none => exact follows_interpret ht fuel id
  | some cycles =>
    refine .bind (.modify fun _ => .of_eq rfl rfl) fun _ => .of_timeless ?_
    exact .bind (.modify fun _ => rfl) fun _ => .bind (.modify fun _ => rfl) fun _ =>
      .look fun _ => .pure _

theorem follows_callPublished (code : CodeId) (offset : Nat) :
    OnClock Clock.Follows (callPublished fuel code offset : EngineM δ κ γ (Option UInt32)) := by
  refine .look fun e => ?_
  cases e.codes.get? code.toNat with
  | none => exact .pure _
  | some c =>
    dsimp only
    cases c.block with
    | none => exact .pure _
    | some id =>
      dsimp only
      cases e.blocks.get? id with
      | none => exact .pure _
      | some b => exact .map (follows_callCode ht fuel c offset id b)

theorem follows_runWithWorker (canCompile shouldRecompile : Bool) : OnClock Clock.Follows
      (runWithWorker fuel id canCompile shouldRecompile : EngineM δ κ γ UInt32) := by
  have hsubmit : ∀ needed, OnClock Clock.Follows (submitIf needed id : EngineM δ κ γ Unit) :=
    fun _ => .of_timeless (.ite (timeless_submit id) (.pure _))
  refine .bind (hsubmit _) fun _ => .bind (.of_timeless (timeless_blockOf id)) fun b => ?_
  cases b.code with
  | some code => exact follows_callCode ht fuel code 0 id b
  | none =>
    exact .bind (follows_interpret ht fuel id) fun _ => .bind (hsubmit _) fun _ => .pure _

theorem follows_runCodeOrInterpret :
    OnClock Clock.Follows (runCodeOrInterpret fuel id : EngineM δ κ γ UInt32) := by
  refine .bind (.of_timeless (timeless_blockOf id)) fun b => ?_
  cases b.code with
  | some code => exact follows_callCode ht fuel code 0 id b
  | none => exact follows_interpret ht fuel id

end

theorem follows_runAndCompile (id : BlockId) (canCompile shouldRecompile : Bool) :
    OnClock Clock.Follows
      (runAndCompile fuel id canCompile shouldRecompile : EngineM δ κ γ UInt32) := by
  have hcompile : OnClock Clock.Follows (compileNow id : EngineM δ κ γ Unit) :=
    .of_timeless (timeless_compileNow id)
  refine .bind (.ite hcompile (.pure _)) fun _ =>
    .bind (.of_timeless (timeless_blockOf id)) fun b => ?_
  cases b.code with
  | some code => exact follows_callCode ht fuel code 0 id b
  | none =>
    refine .ite (follows_interpret ht fuel id) (.look fun _ => .ite ?_ ?_)
    · exact .bind (follows_interpret ht fuel id) fun _ => .bind hcompile fun _ => .pure _
    · exact .bind hcompile fun _ => follows_runCodeOrInterpret ht fuel id

theorem follows_dispatchBlock (pc : UInt32) :
    OnClock Clock.Follows (dispatchBlock fuel pc : EngineM δ κ γ UInt32) := by
  refine .bind (follows_getBlock pc) fun found => ?_
  cases found with
  | none => exact .pure _
  | some id =>
    refine .bind (.bind (.of_timeless (timeless_blockOf id)) fun b => .look fun e => ?_) fun _ =>
      .bind (.of_timeless (.look fun _ => .ite (.modify fun _ => rfl) (.pure _))) fun _ => .pure _
    exact .ite (follows_runMemset ht fuel id)
      (.ite (follows_runWithWorker ht fuel id _ _) (follows_runAndCompile ht fuel id _ _))

/-- Where a dispatch gives no reason to leave, the target has not moved. -/
theorem follows_dispatch (pc : UInt32) :
    OnClock Clock.Follows (dispatch fuel pc : EngineM δ κ γ UInt32) := by
  refine .look fun e => ?_
  cases e.machine.entries.get pc with
  | code code offset =>
    refine .bind (follows_callPublished ht fuel code offset) fun next => ?_
    cases next with
    | none => exact follows_dispatchBlock ht fuel pc
    | some next => exact .pure _
  | null | pending | memset => exact follows_dispatchBlock ht fuel pc

/-! ## Runs -/

theorem follows_runBlocks (count : Nat) (pc : UInt32) :
    OnClock Clock.Follows (runBlocks fuel count pc : EngineM δ κ γ UInt32) := by
  induction count generalizing pc with
  | zero => exact .throw _
  | succ count ih =>
    exact .bind (follows_dispatch ht fuel pc) fun next => .look fun _ => .ite (.pure _) (ih next)

omit ht
variable {fuel} {count : Nat} {pc target next : UInt32} {e e' : Engine δ κ γ}

theorem shouldStop_of_runBlocks (h : runBlocks fuel count pc e = .ok next e') :
    e'.machine.clock.shouldStop = true := by
  induction count generalizing pc e with
  | zero => cases h
  | succ count ih =>
    obtain ⟨pc1, e1, -, h⟩ := bind_ok h
    replace h : (if e1.machine.clock.shouldStop then pure pc1
      else runBlocks fuel count pc1 : EngineM δ κ γ UInt32) e1 = .ok next e' := h
    split at h
    · cases h
      assumption
    · exact ih h

/-- The end of a run takes no time. -/
theorem run_ok_iff (fuel : Nat) (pc target next : UInt32) (e : Engine δ κ γ) (clock : Clock) :
    (∃ e', run fuel pc target e = .ok next e' ∧ e'.machine.clock = clock) ↔
      ∃ e1, runBlocks fuel fuel pc (e.armed target) = .ok next e1 ∧ e1.machine.clock = clock := by
  constructor
  · rintro ⟨e', hrun, rfl⟩
    obtain ⟨_, _, harmed, hrun⟩ := bind_ok hrun
    cases harmed
    obtain ⟨next1, e1, hblocks, hrun⟩ := bind_ok hrun
    obtain ⟨_, e2, hfinish, hrun⟩ := bind_ok hrun
    cases hrun
    obtain ⟨_, e3, hfinish', hclock⟩ := harmless_finishRun next e1
    cases hfinish.symm.trans hfinish'
    exact ⟨e1, hblocks, hclock.symm⟩
  · rintro ⟨e1, hblocks, rfl⟩
    obtain ⟨_, e', hfinish, hclock⟩ := harmless_finishRun next e1
    refine ⟨e', ?_, hclock⟩
    show (runBlocks fuel fuel pc >>= fun next => finishRun next >>= fun _ => pure next)
      (e.armed target) = _
    rw [bind_eq_of_ok hblocks, bind_eq_of_ok hfinish]
    rfl

include ht in
/-- A run that gives no reason to leave has reached its target. -/
theorem target_le_of_run (hrun : run fuel pc target e = .ok next e')
    (hnormal : e'.machine.clock.exit.isNormal = true) :
    (e.machine.clock.arm target).target ≤ e'.machine.clock.current := by
  obtain ⟨e1, hblocks, hclock⟩ := (run_ok_iff fuel pc target next e _).mp ⟨e', hrun, rfl⟩
  rw [← hclock] at hnormal ⊢
  -- blocks stop for a reason or because the target, which has not moved, is reached
  have htarget := (follows_runBlocks ht fuel fuel pc _ _ _ hblocks hnormal).2
  have hstop := shouldStop_of_runBlocks hblocks
  rw [Clock.shouldStop, hnormal, Bool.not_true, Bool.false_or, Clock.exhausted, htarget] at hstop
  exact of_decide_eq_true hstop

end Engine

end Dynarec
