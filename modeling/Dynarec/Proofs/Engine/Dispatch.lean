/-
  Dynarec.Proofs.Engine.Dispatch

  Dispatching is steps, one run of guest code, and steps again.

  Guest code runs in one of three ways: generated code is called, a block is
  interpreted, or memory is cleared in place of a block. The only other way out
  is that there is no code to run.
-/
import Dynarec.Proofs.ClearLoop
import Dynarec.Proofs.Engine.Lookup

namespace Dynarec

variable {δ κ γ : Type}

/-- Code `k` of block `id`, which is `b`, is what runs at `pc`, from instruction `offset` on: the
block starts there and has this code, or the entry of `pc` leads into it. -/
def Core.Leads (c : Core δ κ γ) (pc : UInt32) (id : BlockId) (b : Block) (k : CompiledCode)
    (offset : Nat) : Prop :=
  (offset = 0 ∧ b.start = physical pc ∧ b.code = some k) ∨
    ∃ code, c.machine.entries.get pc = .code code offset ∧ c.codes.get? code.toNat = some k ∧
      k.block = some id

variable [Device δ] [Coprocessor κ]

/-- Guest code ran from `pc`, for at most `fuel` rounds of a loop, and goes on at `next`. -/
inductive Core.Runs (R : Rules) (fuel : Nat) (c : Core δ κ γ) (pc : UInt32) :
    (next : UInt32) → Core δ κ γ → Prop
  /-- It could not be fetched. -/
  | fault (hfault : c.Undecodable pc) : Runs R fuel c pc pc c.faulted
  /-- Code of a block was called. -/
  | call {id : BlockId} {b : Block} {k : CompiledCode} {offset : Nat}
      {r : HostProgram.Returned δ κ} (hget : c.blocks id = some b) (hsuits : b.Suits R k.program [])
      (hleads : c.Leads pc id b k offset)
      (hcall : k.program.call fuel offset c.machine b = .finished r) :
      Runs R fuel c pc r.next { c with
        machine := r.machine
        budget := c.budget.touch k.id
        blocks := if r.tagged then Function.update c.blocks id (some r.block) else c.blocks }
  /-- A block was interpreted. -/
  | interpret {id : BlockId} {b : Block} {r : Interpreter.Emulated δ κ}
      (hget : c.blocks id = some b) (hstart : b.start = physical pc)
      (hemulate : Interpreter.emulate fuel c.machine b b.pc = .finished r) :
      Runs R fuel c pc r.next { c with
        machine := r.machine
        blocks := Function.update c.blocks id (some r.block) }
  /-- Memory was cleared in place of a block. -/
  | memset {cycles : UInt32} {m : Machine δ κ} (hreplace : c.config.replaceMemset = true)
      (hmemset : c.machine.memset = (some cycles, m)) :
      Runs R fuel c pc (m.regs.get .ra) { c with machine := m.tick cycles }

theorem Core.Runs.evolves [Generator γ] {R : Rules} {fuel : Nat} {c c' : Core δ κ γ}
    {pc next : UInt32} (h : Runs R fuel c pc next c') : Evolves R False c c' := by
  cases h with
  | fault => exact .of_changes (.control rfl rfl rfl)
  | @call id b k _ r hget _ _ hcall =>
    refine (Evolves.of_changes (Machine.guestRelation_changes.call hcall)).trans
      (.of_steps ((Steps.single (.touch k.id)).trans ?_))
    split
    · exact .single (.change hget (HostProgram.keeps_call hcall))
    · exact .refl _
  | interpret hget _ hemulate =>
    refine (Evolves.of_changes (Machine.guestRelation_changes.emulate hemulate)).trans ?_
    exact .of_steps (.single (.change hget (Interpreter.keeps_emulate hemulate)))
  | memset _ hmemset =>
    have hchanges := c.machine.changes_memset
    rw [hmemset] at hchanges
    exact .of_changes (hchanges.trans (.control rfl rfl rfl))

namespace Engine

variable [Generator γ] {R : Rules} {fuel : Nat} {e e' : Engine δ κ γ} {pc : UInt32}

/-- Steps, a run of guest code from `pc`, and steps again. -/
def Serves (R : Rules) (fuel : Nat) (e : Engine δ κ γ) (pc next : UInt32) (e' : Engine δ κ γ) : Prop :=
  ∃ c1 c2, Core.Steps R e.core c1 ∧ Core.Runs R fuel c1 pc next c2 ∧ Core.Steps R c2 e'.core

namespace Serves

variable {e1 : Engine δ κ γ} {next : UInt32}

theorem of_runs (h : Core.Runs R fuel e.core pc next e'.core) : Serves R fuel e pc next e' :=
  ⟨_, _, .refl _, h, .refl _⟩

theorem after (hsteps : Core.Steps R e.core e1.core) (h : Serves R fuel e1 pc next e') :
    Serves R fuel e pc next e' := by
  obtain ⟨c1, c2, h1, hruns, h2⟩ := h
  exact ⟨c1, c2, hsteps.trans h1, hruns, h2⟩

theorem before (h : Serves R fuel e pc next e1) (hsteps : Core.Steps R e1.core e'.core) :
    Serves R fuel e pc next e' := by
  obtain ⟨c1, c2, h1, hruns, h2⟩ := h
  exact ⟨c1, c2, h1, hruns, h2.trans hsteps⟩

theorem evolves (h : Serves R fuel e pc next e') : Core.Evolves R False e.core e'.core := by
  obtain ⟨c1, c2, h1, hruns, h2⟩ := h
  exact (Core.Evolves.of_steps h1).trans (hruns.evolves.trans (.of_steps h2))

end Serves

variable {id : BlockId} {b : Block}

/-! ## Running a block -/

omit [Generator γ] in
theorem ensures_callCode {k : CompiledCode} {offset : Nat} (hget : e.blocks.get? id = some b)
    (hsuits : b.Suits R k.program []) (hleads : e.core.Leads pc id b k offset) (fuel : Nat) :
    Ensures (callCode fuel k offset id b) e fun next e' =>
      Core.Runs R fuel e.core pc next e'.core ∧ e'.cache = e.cache := by
  unfold callCode
  refine Ensures.bind (P := fun next e1 => ∀ n, next = some n →
    Core.Runs R fuel e.core pc n e1.core ∧ e1.cache = e.cache) (Ensures.modifyGet ?_) ?_
  · intro n hn
    dsimp only at hn ⊢
    cases hcall : k.program.call fuel offset e.machine b with
    | running f =>
      rw [hcall] at hn
      cases hn
    | finished r =>
      rw [hcall] at hn
      cases hn
      have hruns := Core.Runs.call (c := e.core) hget hsuits hleads hcall
      dsimp only
      split
      · rename_i htagged
        rw [if_pos htagged, ← show _ = Function.update e.core.blocks id (some r.block) from
          Registry.get?_insert_eq_update e.blocks id r.block] at hruns
        exact ⟨hruns, rfl⟩
      · rename_i htagged
        rw [if_neg htagged] at hruns
        exact ⟨hruns, rfl⟩
  · intro next e1 h1
    cases next with
    | none => exact Ensures.throw trivial
    | some n => exact Ensures.pure (h1 n rfl)

omit [Generator γ] in
theorem ensures_interpret (R : Rules) (hget : e.blocks.get? id = some b)
    (hstart : b.start = physical pc) (fuel : Nat) :
    Ensures (interpret fuel id) e fun next e' =>
      Core.Runs R fuel e.core pc next e'.core ∧ e'.cache = e.cache := by
  unfold interpret
  refine Ensures.run rfl (Ensures.run rfl ?_)
  rw [Registry.getD_eq_of_get? hget]
  refine Ensures.bind (P := fun next e1 => ∀ n, next = some n →
    Core.Runs R fuel e.core pc n e1.core ∧ e1.cache = e.cache) (Ensures.modifyGet ?_) ?_
  · intro n hn
    cases hemulate : Interpreter.emulate fuel e.machine b b.pc with
    | running c =>
      rw [hemulate] at hn
      cases hn
    | finished r =>
      rw [hemulate] at hn
      cases hn
      have hruns := Core.Runs.interpret (R := R) (c := e.core) hget hstart hemulate
      rw [← show _ = Function.update e.core.blocks id (some r.block) from
        Registry.get?_insert_eq_update e.blocks id r.block] at hruns
      exact ⟨hruns, rfl⟩
  · intro next e1 h1
    cases next with
    | none => exact Ensures.throw trivial
    | some n => exact Ensures.run rfl (Ensures.run rfl (Ensures.run rfl (Ensures.pure (h1 n rfl))))

theorem ensures_runMemset (hget : e.blocks.get? id = some b) (hstart : b.start = physical pc)
    (hreplace : e.config.replaceMemset = true)
    (fuel : Nat) : Ensures (runMemset fuel id) e (Serves R fuel e pc) := by
  unfold runMemset
  refine Ensures.run rfl (Ensures.run rfl ?_)
  rcases hmemset : e.machine.memset with ⟨cycles, m⟩
  refine Ensures.bind (P := fun a e1 => cycles = a ∧ e1.core = { e.core with machine := m })
    (Ensures.modifyGet ?_) ?_
  · rw [hmemset]
    exact ⟨rfl, rfl⟩
  rintro _ e1 ⟨rfl, h1⟩
  cases cycles with
  | none =>
    -- nothing has happened yet
    have hsame : e1.core = e.core := by
      rw [h1, Machine.memset_eq_of_declined hmemset]
      rfl
    have hget1 : e1.blocks.get? id = some b := by
      rw [show e1.blocks.get? = e.blocks.get? from congrArg Core.blocks h1, hget]
    refine (ensures_interpret R hget1 hstart fuel).mono ?_
    rintro next e2 ⟨hruns, -⟩
    exact .of_runs (hsame ▸ hruns)
  | some cycles =>
    have hruns : Core.Runs R fuel e.core pc _ _ := .memset hreplace hmemset
    refine Ensures.run_core (c := { e.core with machine := m.tick cycles }) rfl ?_ ?_
    · show { e1.core with machine := e1.machine.tick cycles } = _
      rw [show e1.machine = m from congrArg Core.machine h1, h1]
    · intro e2 h2
      refine Ensures.run rfl (Ensures.run rfl (Ensures.run rfl (Ensures.pure (.of_runs ?_))))
      show Core.Runs R fuel e.core pc (e2.machine.regs.get .ra) e2.core
      rw [h2, show e2.machine = m.tick cycles from congrArg Core.machine h2]
      exact hruns

/-! ## Running a block or its code -/

omit [Generator γ] in
/-- The code that a block has belongs to it. -/
theorem ensures_callOwn {k : CompiledCode} (hs : e.core.Sound R) (hget : e.blocks.get? id = some b)
    (hstart : b.start = physical pc) (hcode : b.code = some k) (fuel : Nat) :
    Ensures (callCode fuel k 0 id b) e fun next e' =>
      Core.Runs R fuel e.core pc next e'.core ∧ e'.cache = e.cache :=
  ensures_callCode hget ((hs.block hget).1.code hcode) (.inl ⟨rfl, hstart, hcode⟩) fuel

theorem ensures_runCodeOrInterpret (hs : e.core.Sound R) (hget : e.blocks.get? id = some b)
    (hstart : b.start = physical pc) (fuel : Nat) :
    Ensures (runCodeOrInterpret fuel id) e (Serves R fuel e pc) := by
  unfold runCodeOrInterpret
  refine Ensures.run rfl ?_
  rw [Registry.getD_eq_of_get? hget]
  cases hcode : b.code with
  | some k => exact (ensures_callOwn hs hget hstart hcode fuel).mono fun h => .of_runs h.1
  | none => exact (ensures_interpret R hget hstart fuel).mono fun h => .of_runs h.1

omit [Device δ] [Coprocessor κ] in
/-- Code is generated for a cached block; the block stays. -/
theorem takes_compileCached (hR : R.Admits γ) {start : UInt32}
    (hheld : e.cache.Holds { start, block := id }) :
    Takes R none (compileNow id) e fun _ e' => e'.cache.Holds { start, block := id } ∧
      ∃ b, e'.blocks.get? id = some b ∧ b.start = start := by
  intro hs
  refine (takes_compileNow hR hheld hs).mono ?_
  rintro _ e1 ⟨hsteps, hkeeps⟩
  obtain ⟨b, _, ⟨hget, -⟩, hstart, -⟩ := (hsteps.sound hs).cached (hkeeps hheld)
  exact ⟨hsteps, hkeeps hheld, b, hget, hstart⟩

omit [Device δ] [Coprocessor κ] in
theorem takes_compileIf (hR : R.Admits γ) {needed canCompile : Bool}
    (hget : e.blocks.get? id = some b) (hheld : canCompile = true → e.cache.Holds ⟨b.start, id⟩)
    (hneeded : needed = true → canCompile = true) :
    Takes R none (compileIf needed id) e fun _ e' =>
      (canCompile = true → e'.cache.Holds ⟨b.start, id⟩) ∧
        ∃ b', e'.blocks.get? id = some b' ∧ b'.start = b.start := by
  unfold compileIf
  refine .ite (fun h => ?_) fun _ => .pure ⟨hheld, b, hget, rfl⟩
  exact (takes_compileCached hR (hheld (hneeded h))).mono fun h => ⟨fun _ => h.1, h.2⟩

/-- A block is run, and code generated for it if it may have some. -/
theorem ensures_runAndCompile (hR : R.Admits γ) (hs : e.core.Sound R)
    (hget : e.blocks.get? id = some b) (hstart : b.start = physical pc)
    {canCompile shouldRecompile : Bool} (hheld : canCompile = true → e.cache.Holds ⟨b.start, id⟩)
    (hcan : shouldRecompile = true → canCompile = true) (fuel : Nat) :
    Ensures (runAndCompile fuel id canCompile shouldRecompile) e (Serves R fuel e pc) := by
  unfold runAndCompile
  refine Ensures.bind ((takes_compileIf hR hget hheld hcan).ensures hs) ?_
  rintro _ e1 ⟨hsteps1, hheld1, b1, hget1, hstart1⟩
  have hs1 := hsteps1.sound hs
  have hstart1 := hstart1.trans hstart
  refine Ensures.run rfl ?_
  rw [Registry.getD_eq_of_get? hget1]
  cases hcode : b1.code with
  | some k =>
    refine (ensures_callOwn hs1 hget1 hstart1 hcode fuel).mono ?_
    rintro next e2 ⟨hruns, -⟩
    exact (Serves.of_runs hruns).after hsteps1
  | none =>
    dsimp only
    split
    · -- a block that may have no code
      refine (ensures_interpret R hget1 hstart1 fuel).mono ?_
      rintro next e2 ⟨hruns, -⟩
      exact (Serves.of_runs hruns).after hsteps1
    · rename_i hcompile
      have hline1 := hheld1 (by simpa using hcompile)
      refine Ensures.run rfl ?_
      split
      · -- the first pass is interpreted, and the code made behind it
        refine Ensures.bind (ensures_interpret R hget1 hstart1 fuel) ?_
        rintro next e2 ⟨hruns, hcache⟩
        have hline2 := hcache.symm ▸ hline1
        refine Ensures.bind ((takes_compileNow hR hline2).ensures (hruns.evolves.sound hs1)) ?_
        rintro _ e3 ⟨hsteps3, -⟩
        exact Ensures.pure (((Serves.of_runs hruns).after hsteps1).before hsteps3)
      · -- code is made first, and may not come about
        refine Ensures.bind ((takes_compileCached hR hline1).ensures hs1) ?_
        rintro _ e2 ⟨hsteps2, -, b2, hget2, hstart2⟩
        refine (ensures_runCodeOrInterpret (hsteps2.sound hs1) hget2 (hstart2.trans hstart) fuel).mono
          fun h => h.after (hsteps1.trans hsteps2)

/-- A block that was found is run. -/
theorem ensures_runBlock (hR : R.Admits γ) (hs : e.core.Sound R) (hfound : Found e pc id b)
    (fuel : Nat) :
    Ensures (runBlock fuel id) e (Serves R fuel e pc) := by
  unfold runBlock
  refine Ensures.run rfl (Ensures.run rfl ?_)
  rw [Registry.getD_eq_of_get? hfound.get]
  dsimp only
  split
  · rename_i hmemset
    exact ensures_runMemset hfound.get hfound.start (Bool.and_eq_true_iff.mp hmemset).2 fuel
  · rw [if_neg]
    · refine ensures_runAndCompile hR hs hfound.get hfound.start ?_ ?_ fuel
      · intro hcan
        rcases hfound.runs with hheld | hnever
        · exact hheld
        · simp [hnever] at hcan
      · intro hshould
        simp only [Bool.and_eq_true] at hshould
        simpa using hshould.1.1
    · intro hbackground
      have hidle : (e.background || e.queue.current.isSome || e.inProgress.isSome) = false := hs.idle
      rw [hbackground] at hidle
      cases hidle

omit [Device δ] [Coprocessor κ] in
/-- A block without an entry is forgotten. -/
theorem takes_dropUncached (id : BlockId) : Takes R none (dropUncached id) e fun _ _ => True := by
  unfold dropUncached
  refine .look rfl (.ite (fun hnone => ?_) fun _ => .pure trivial)
  refine .of_steps rfl (fun hs => ?_) trivial
  show Core.Steps R e.core { e.core with blocks := (e.blocks.erase id).get? }
  rw [Registry.get?_erase_eq_update]
  refine .single (.drop ?_)
  intro b hget
  rw [Registry.getD_eq_of_get? hget] at hnone
  exact (e.machine.entries.index?_physical b.pc).trans (Option.isNone_iff_eq_none.mp hnone)

theorem ensures_dispatchBlock (hR : R.Admits γ) (hstart : R.start pc) (hs : e.core.Sound R)
    (fuel : Nat) : Ensures (dispatchBlock fuel pc) e (Serves R fuel e pc) := by
  unfold dispatchBlock
  refine Ensures.bind (ensures_getBlock hstart hs) ?_
  intro found e1 h1
  cases found with
  | none =>
    obtain ⟨c, hsteps, hfault, hcore⟩ := h1
    exact Ensures.pure ⟨c, _, hsteps, .fault hfault, hcore ▸ .refl _⟩
  | some id =>
    obtain ⟨hsteps1, b, hfound⟩ := h1
    have hs1 := hsteps1.sound hs
    refine Ensures.bind (ensures_runBlock hR hs1 hfound fuel) ?_
    intro next e2 hserves
    refine Ensures.bind ((takes_dropUncached id).ensures (hserves.evolves.sound hs1)) ?_
    rintro _ e3 ⟨hsteps3, -⟩
    exact Ensures.pure ((hserves.after hsteps1).before hsteps3)

omit [Generator γ] [Device δ] [Coprocessor κ] in
/-- The entry of `pc` leads into code that is there, and so is its block. -/
def Published (e : Engine δ κ γ) (pc : UInt32) : Prop :=
  ∃ n offset k id b, e.machine.entries.get pc = .code n offset ∧ e.codes.get? n.toNat = some k ∧
    k.block = some id ∧ e.blocks.get? id = some b

omit [Generator γ] in
/-- Published code, if it and its block are still there, is run as it is. -/
theorem ensures_callPublished (hs : e.core.Sound R) (fuel : Nat) {code : CodeId} {offset : Nat}
    (hentry : e.machine.entries.get pc = .code code offset) :
    Ensures (callPublished fuel code offset) e fun next e' =>
      (next = none ∧ e' = e ∧ ¬ e.Published pc) ∨
        ∃ n, next = some n ∧ Core.Runs R fuel e.core pc n e'.core := by
  -- Only where all of entry, code and block are there is the code called.
  have hnot : (∀ {k id}, e.codes.get? code.toNat = some k → k.block = some id →
      e.blocks.get? id = none) → ¬ e.Published pc := by
    rintro hnone ⟨n, o, k, id, b, hentry', hcode, hblock, hget⟩
    cases hentry.symm.trans hentry'
    cases (hnone hcode hblock).symm.trans hget
  unfold callPublished
  refine Ensures.run rfl ?_
  cases hcode : e.codes.get? code.toNat with
  | none =>
    refine Ensures.pure (.inl ⟨rfl, rfl, hnot fun hk => ?_⟩)
    cases hcode.symm.trans hk
  | some k =>
    dsimp only
    cases hblock : k.block with
    | none =>
      refine Ensures.pure (.inl ⟨rfl, rfl, hnot fun hk hid => ?_⟩)
      cases hcode.symm.trans hk
      cases hblock.symm.trans hid
    | some id =>
      dsimp only
      cases hget : e.blocks.get? id with
      | none =>
        refine Ensures.pure (.inl ⟨rfl, rfl, hnot fun hk hid => ?_⟩)
        cases hcode.symm.trans hk
        cases hblock.symm.trans hid
        exact hget
      | some b =>
        refine Ensures.map ((ensures_callCode hget ((hs.code hcode hblock).2 hget)
          (.inr ⟨code, hentry, hcode, hblock⟩) fuel).mono ?_)
        intro n e' h
        exact .inr ⟨n, rfl, h.1⟩

/-- Every dispatch is steps, one run of guest code, and steps. -/
theorem ensures_dispatch (hR : R.Admits γ) (hstart : ¬ e.Published pc → R.start pc)
    (hs : e.core.Sound R) (fuel : Nat) : Ensures (dispatch fuel pc) e (Serves R fuel e pc) := by
  unfold dispatch
  refine Ensures.run rfl ?_
  cases hentry : e.machine.entries.get pc with
  | null | pending | memset =>
    refine ensures_dispatchBlock hR (hstart ?_) hs fuel
    rintro ⟨n, o, k, id, b, hentry', -⟩
    cases hentry.symm.trans hentry'
  | code code offset =>
    refine Ensures.bind (ensures_callPublished hs fuel hentry) ?_
    rintro next e1 (⟨rfl, rfl, hnot⟩ | ⟨n, rfl, hruns⟩)
    · exact ensures_dispatchBlock hR (hstart hnot) hs fuel
    · exact Ensures.pure (.of_runs hruns)

end Engine

end Dynarec
