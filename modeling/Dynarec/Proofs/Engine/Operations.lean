/-
  Dynarec.Proofs.Engine.Operations

  How to reason about operations of an engine.

  `Ensures` says what holds when an operation comes back, and that it gives up
  only where no promise of the engine is broken. `Takes` adds that the
  operation takes a sound engine through steps of its core. Both have a rule
  for each way to put operations together, so that nothing has to look into
  the state that is passed along.
-/
import Dynarec.Proofs.Engine.Core
import Dynarec.Proofs.Stateful

namespace Dynarec

variable {δ κ γ α β : Type}

/-! ## Operations that come back -/

/-- A reason to give up that is no broken promise about blocks: a loop that does not end, or a
generator that runs out of registers. -/
def Abort.Excused : Abort → Prop
  | .outOfFuel | .registersExhausted => True
  | .unregisteringUncached _ | .compiledUncached _ => False

/-- If the operation comes back from `e`, its answer and the engine then satisfy `Q`. If it gives
up, there is an excuse. -/
def Ensures (x : EngineM δ κ γ α) (e : Engine δ κ γ) (Q : α → Engine δ κ γ → Prop) : Prop :=
  match x e with
  | .ok a e' => Q a e'
  | .error abort _ => abort.Excused

theorem EngineM.get_bind_eq (f : Engine δ κ γ → EngineM δ κ γ α) (e : Engine δ κ γ) :
    ((get : EngineM δ κ γ (Engine δ κ γ)) >>= f) e = f e e := rfl

/-- Whether an operation comes back with a result that passes a check. -/
def EngineM.passes (x : EngineM δ κ γ α) (check : α → Engine δ κ γ → Bool) (e : Engine δ κ γ) :
    Bool :=
  match x e with
  | .ok a e' => check a e'
  | .error _ _ => false

theorem EngineM.exists_of_passes {x : EngineM δ κ γ α} {check : α → Engine δ κ γ → Bool}
    {e : Engine δ κ γ} (h : x.passes check e = true) :
    ∃ a e', x e = .ok a e' ∧ check a e' = true := by
  unfold passes at h
  split at h
  · rename_i a e' hx
    exact ⟨a, e', hx, h⟩
  · cases h

namespace Ensures

variable {x : EngineM δ κ γ α} {f : α → EngineM δ κ γ β} {e e1 : Engine δ κ γ} {a : α}
  {P Q : α → Engine δ κ γ → Prop} {S : β → Engine δ κ γ → Prop}

theorem ok (h : Ensures x e Q) (hx : x e = .ok a e1) : Q a e1 := by
  unfold Ensures at h
  rw [hx] at h
  exact h

theorem excused (h : Ensures x e Q) {abort : Abort} (hx : x e = .error abort e1) :
    abort.Excused := by
  unfold Ensures at h
  rw [hx] at h
  exact h

theorem intro (hok : ∀ {a e'}, x e = .ok a e' → Q a e')
    (herror : ∀ {abort e'}, x e = .error abort e' → abort.Excused) : Ensures x e Q := by
  unfold Ensures
  split
  · rename_i h
    exact hok h
  · rename_i h
    exact herror h

theorem mono (h : Ensures x e P) (hPQ : ∀ {a e'}, P a e' → Q a e') : Ensures x e Q :=
  intro (fun hx => hPQ (h.ok hx)) h.excused

/-- What is known of an operation by itself. -/
theorem self (h : Ensures x e P) : Ensures x e fun a e' => x e = .ok a e' ∧ P a e' :=
  intro (fun hx => ⟨hx, h.ok hx⟩) h.excused

/-- An operation whose outcome is known. -/
theorem of_eq (hx : x e = .ok a e1) (h : Q a e1) : Ensures x e Q := by
  unfold Ensures
  rw [hx]
  exact h

theorem bind (hx : Ensures x e P) (hf : ∀ {a e1}, P a e1 → Ensures (f a) e1 S) :
    Ensures (x >>= f) e S := by
  show match EStateM.bind x f e with | .ok a e' => S a e' | .error abort _ => abort.Excused
  unfold EStateM.bind
  cases h : x e with
  | ok a e1 => exact hf (hx.ok h)
  | error abort e1 => exact hx.excused h

theorem map {g : α → β} (hx : Ensures x e fun a e' => S (g a) e') : Ensures (g <$> x) e S := by
  show match EStateM.map g x e with | .ok a e' => S a e' | .error abort _ => abort.Excused
  unfold EStateM.map
  cases h : x e with
  | ok a e1 => exact hx.ok h
  | error abort e1 => exact hx.excused h

/-- First an operation whose outcome is known. -/
theorem run (hx : x e = .ok a e1) (h : Ensures (f a) e1 S) : Ensures (x >>= f) e S :=
  bind (of_eq (Q := fun b e' => b = a ∧ e' = e1) hx ⟨rfl, rfl⟩) (by
    rintro _ _ ⟨rfl, rfl⟩
    exact h)

/-- First an operation of whose outcome the core is known. -/
theorem run_core {c : Core δ κ γ} (hx : x e = .ok a e1) (hcore : e1.core = c)
    (h : ∀ {e'}, e'.core = c → Ensures (f a) e' S) : Ensures (x >>= f) e S :=
  run hx (h hcore)

theorem pure (h : Q a e) : Ensures (pure a) e Q := of_eq rfl h

theorem modifyGet {g : Engine δ κ γ → α × Engine δ κ γ} (h : Q (g e).1 (g e).2) :
    Ensures (modifyGet g) e Q := of_eq rfl h

theorem throw {abort : Abort} (h : abort.Excused) : Ensures (throw abort : EngineM δ κ γ α) e Q := h

end Ensures

/-! ## Operations that take steps -/

namespace Core

/-- The core before the generator made what it has just made, if `before` is given: the generator,
the next code number and the number of pieces of code then. -/
def holding (before : Option (γ × CodeId × Nat)) (c : Core δ κ γ) : Core δ κ γ :=
  match before with
  | none => c
  | some (generator, nextCode, made) => { c with generator, nextCode, made }

theorem Sound.holding {R : Rules} {c : Core δ κ γ} (h : Sound R c)
    (before : Option (γ × CodeId × Nat)) : Sound R (c.holding before) := by
  cases before with
  | none => exact h
  | some => exact h.congr rfl rfl rfl rfl rfl rfl rfl (.refl _)

theorem Sound.of_holding {R : Rules} {c : Core δ κ γ} {before : Option (γ × CodeId × Nat)}
    (h : Sound R (c.holding before)) : Sound R c := by
  cases before with
  | none => exact h
  | some => exact h.congr rfl rfl rfl rfl rfl rfl rfl (.refl _)

end Core

variable [Generator γ]

/-- From a sound engine the operation takes steps, and `Q` holds when it comes back. -/
def Takes (R : Rules) (before : Option (γ × CodeId × Nat)) (x : EngineM δ κ γ α) (e : Engine δ κ γ)
    (Q : α → Engine δ κ γ → Prop) : Prop :=
  e.core.Sound R → Ensures x e fun a e' =>
    Core.Steps R (e.core.holding before) (e'.core.holding before) ∧ Q a e'

namespace Takes

variable {R : Rules} {before : Option (γ × CodeId × Nat)} {x : EngineM δ κ γ α}
  {f : α → EngineM δ κ γ β} {e e1 : Engine δ κ γ} {a : α} {P Q : α → Engine δ κ γ → Prop}
  {S : β → Engine δ κ γ → Prop}

theorem ensures (hs : e.core.Sound R) (h : Takes R none x e Q) :
    Ensures x e fun a e' => Core.Steps R e.core e'.core ∧ Q a e' := h hs

theorem mono (h : Takes R before x e P) (hPQ : ∀ {a e'}, P a e' → Q a e') : Takes R before x e Q :=
  fun hs => (h hs).mono fun hp => ⟨hp.1, hPQ hp.2⟩

/-- The engine after the first operation is sound, too. -/
theorem bind (hx : Takes R before x e P)
    (hf : ∀ {a e1}, e1.core.Sound R → P a e1 → Takes R before (f a) e1 S) :
    Takes R before (x >>= f) e S := by
  intro hs
  refine Ensures.bind (hx hs) ?_
  rintro a e1 ⟨hsteps, hP⟩
  have hs1 := (hsteps.sound (hs.holding before)).of_holding
  refine (hf hs1 hP hs1).mono ?_
  rintro b e' ⟨hsteps', hS⟩
  exact ⟨hsteps.trans hsteps', hS⟩

/-- First an operation that only looks at the engine. -/
theorem look (hx : x e = .ok a e) (h : Takes R before (f a) e S) : Takes R before (x >>= f) e S :=
  fun hs => Ensures.run hx (h hs)

theorem pure (h : Q a e) : Takes R before (pure a) e Q := fun _ => Ensures.pure ⟨.refl _, h⟩

/-- An operation whose outcome is known and which is a number of steps. -/
theorem of_steps (hx : x e = .ok a e1)
    (hsteps : e.core.Sound R → Core.Steps R (e.core.holding before) (e1.core.holding before))
    (h : Q a e1) : Takes R before x e Q :=
  fun hs => Ensures.of_eq hx ⟨hsteps hs, h⟩

theorem ite {c : Prop} [Decidable c] {y : EngineM δ κ γ α} (hx : c → Takes R before x e Q)
    (hy : ¬ c → Takes R before y e Q) : Takes R before (if c then x else y) e Q := by
  by_cases h : c
  · rw [if_pos h]
    exact hx h
  · rw [if_neg h]
    exact hy h

variable {body : β → EngineM δ κ γ PUnit}

/-- A loop whose rounds all keep `I`, each with an effect of its own that later rounds keep. -/
theorem forM_each {I : Engine δ κ γ → Prop} {T : β → Engine δ κ γ → Prop} {items : List β}
    (hbody : ∀ {b e}, b ∈ items → I e →
      Takes R before (body b) e fun _ e' => I e' ∧ T b e' ∧ ∀ {b'}, T b' e → T b' e') (h : I e) :
    Takes R before (items.forM body) e fun _ e' =>
      I e' ∧ (∀ b ∈ items, T b e') ∧ ∀ {b'}, T b' e → T b' e' := by
  induction items generalizing e with
  | nil =>
    refine pure ⟨h, ?_, id⟩
    intro b hb
    cases hb
  | cons b items ih =>
    refine bind (hbody List.mem_cons_self h) ?_
    rintro _ e1 _ ⟨h1, hT, hkept⟩
    refine (ih (fun hmem => hbody (List.mem_cons_of_mem b hmem)) h1).mono ?_
    rintro _ e' ⟨h', hall, hkept'⟩
    refine ⟨h', ?_, fun hb => hkept' (hkept hb)⟩
    intro b' hb'
    rcases List.mem_cons.mp hb' with rfl | hmem
    · exact hkept' hT
    · exact hall b' hmem

/-- A loop whose rounds all keep `I`. -/
theorem forM {I : Engine δ κ γ → Prop} {items : List β}
    (hbody : ∀ {b e}, I e → Takes R before (body b) e fun _ e' => I e') (h : I e) :
    Takes R before (items.forM body) e fun _ e' => I e' :=
  (forM_each (T := fun _ _ => True) (fun _ hI => (hbody hI).mono fun h => ⟨h, trivial, id⟩)
    h).mono And.left

end Takes

namespace Engine

variable {R : Rules} {before : Option (γ × CodeId × Nat)} {e e' : Engine δ κ γ}

/-! ## Reports and statistics -/

omit [Generator γ] in
/-- Nothing happened but reports and statistics. -/
def Quiet (e e' : Engine δ κ γ) : Prop :=
  ∃ log, e'.core = { e.core with machine := { e.core.machine with log } }

namespace Quiet

omit [Generator γ]

theorem of_eq (h : e'.core = e.core) : e.Quiet e' := ⟨_, h⟩

theorem trans {e'' : Engine δ κ γ} (h1 : e.Quiet e') (h2 : e'.Quiet e'') : e.Quiet e'' := by
  obtain ⟨log1, h1⟩ := h1
  obtain ⟨log2, h2⟩ := h2
  rw [h1] at h2
  exact ⟨log2, h2⟩

theorem config (h : e.Quiet e') : e'.config = e.config := by
  obtain ⟨log, h⟩ := h
  exact congrArg Core.config h

theorem get? (h : e.Quiet e') : e'.blocks.get? = e.blocks.get? := by
  obtain ⟨log, h⟩ := h
  exact congrArg Core.blocks h

theorem cache (h : e.Quiet e') : e'.cache = e.cache := by
  obtain ⟨log, h⟩ := h
  exact congrArg Core.cache h

theorem entries (h : e.Quiet e') : e'.machine.entries = e.machine.entries := by
  obtain ⟨log, h⟩ := h
  exact congrArg (·.machine.entries) h

theorem memory (h : e.Quiet e') : e'.machine.memory = e.machine.memory := by
  obtain ⟨log, h⟩ := h
  exact congrArg (·.machine.memory) h

end Quiet

theorem Quiet.steps (h : e.Quiet e') :
    Core.Steps R (e.core.holding before) (e'.core.holding before) := by
  obtain ⟨log, h⟩ := h
  rw [h]
  cases before with
  | none => exact .single (.log log)
  | some => exact .single (.log log)

/-- An operation whose outcome is known and which reports or counts something. -/
theorem takes_of_quiet {x : EngineM δ κ γ α} {a : α} (hx : x e = .ok a e') (h : e.Quiet e') :
    Takes R before x e fun _ e' => e.Quiet e' :=
  .of_steps hx (fun _ => h.steps) h

theorem takes_note (n : Notice) : Takes R before (note n) e fun _ e' => e.Quiet e' :=
  takes_of_quiet rfl ⟨_, rfl⟩

theorem takes_noteAll (ns : List Notice) : Takes R before (noteAll ns) e fun _ e' => e.Quiet e' :=
  takes_of_quiet rfl ⟨_, rfl⟩

theorem takes_record (event : TraceEvent) :
    Takes R before (record event) e fun _ e' => e.Quiet e' :=
  takes_of_quiet rfl ⟨_, rfl⟩

theorem takes_count {f : Counters → Counters} (hf : ∀ c, (f c).tally = c.tally) :
    Takes R before (count f) e fun _ e' => e.Quiet e' := by
  have hcore : { e.core with tally := (f e.counters).tally } = e.core :=
    congrArg (fun tally => { e.core with tally }) (hf e.counters)
  exact takes_of_quiet rfl (.of_eq hcore)

/-! ## Entries and blocks -/

theorem takes_retire (id : CodeId) (slots : Array Nat) :
    Takes R before (modifyEntries (·.retire id slots)) e fun _ e' =>
      e'.core = e.core.withEntries (e.machine.entries.retire id slots) := by
  refine .of_steps rfl (fun _ => ?_) rfl
  cases before with
  | none => exact .single (.retire id slots)
  | some => exact .single (.retire id slots)

omit [Generator γ] in
theorem core_modifyBlock {id : BlockId} {b : Block} (hget : e.blocks.get? id = some b)
    (f : Block → Block) :
    { e with blocks := e.blocks.modify id f }.core = e.core.withBlock id (some (f b)) :=
  congrArg (fun blocks => { e.core with blocks }) (Registry.get?_modify_eq_update hget f)

/-- A block changes and stays the same block. -/
theorem takes_modifyBlock {id : BlockId} {b : Block} {f : Block → Block}
    (hget : e.blocks.get? id = some b) (hkeeps : b.Keeps (f b)) :
    Takes R none (modifyBlock id f) e fun _ e' => e'.core = e.core.withBlock id (some (f b)) := by
  refine .of_steps rfl (fun _ => ?_) (core_modifyBlock hget f)
  show Core.Steps R e.core { e with blocks := e.blocks.modify id f }.core
  rw [core_modifyBlock hget f]
  exact .single (.change hget hkeeps)

end Engine

end Dynarec
