/-
  Dynarec.Proofs.Engine.Publication

  From a cached block to code that runs, in steps.

  The generator makes code, the blocks that it covers are killed, its entries
  are written, and then it is put into its place. As steps this is told in
  another order: the covered blocks die first, and making code and publishing
  it are one step.
-/
import Dynarec.Proofs.Engine.Operations

namespace Dynarec

variable {δ κ γ α : Type}

theorem CompilerHealth.successes_recordFailure (h : CompilerHealth)
    (pc maxConsecutive maxTotal : UInt32) :
    (h.recordFailure pc maxConsecutive maxTotal).2.successes = h.successes := by
  unfold recordFailure
  dsimp only
  split
  · rfl
  · split <;> rfl

theorem BlockCache.isRegistered_of_holds {c : BlockCache} {id : BlockId} {b : Block}
    (h : c.Holds ⟨b.start, id⟩) : c.isRegistered id b = true :=
  List.any_eq_true.mpr ⟨_, h, beq_self_eq_true id⟩

theorem Core.holding_killed (before : Option (γ × CodeId × Nat)) (c : Core δ κ γ) (id : BlockId)
    (b : Block) : (c.killed id b).holding before = (c.holding before).killed id b := by
  cases before <;> rfl

namespace Engine

variable {R : Rules} {before : Option (γ × CodeId × Nat)} {e e' : Engine δ κ γ}

/-! ## Blocks that leave the cache -/

theorem ensures_kill {id : BlockId} {b : Block} (hget : e.blocks.get? id = some b)
    (hheld : e.cache.Holds ⟨b.start, id⟩) :
    Ensures (kill id) e fun _ e' => e'.core = e.core.unlisted id b := by
  have hblocks := Registry.get?_modify_eq_update hget (·.setFlags { isDead := true })
  have hdead : (e.blocks.modify id (·.setFlags { isDead := true })).getD id default =
      b.setFlags { isDead := true } := by
    refine Registry.getD_eq_of_get? ?_ _
    rw [hblocks, Function.update_self]
  unfold kill
  refine Ensures.run rfl (Ensures.run rfl (Ensures.run rfl (Ensures.run rfl ?_)))
  rw [if_pos]
  · refine Ensures.of_eq rfl ?_
    dsimp only
    rw [hdead]
    exact congrArg (fun blocks => { e.core.unlisted id b with blocks }) hblocks
  · dsimp only
    rw [hdead]
    exact BlockCache.isRegistered_of_holds hheld

/-- A block is killed, counted and handed in, and then something else is done. -/
theorem ensures_condemn {id : BlockId} {b : Block} (hget : e.blocks.get? id = some b)
    (hheld : e.cache.Holds ⟨b.start, id⟩) {f : Counters → Counters}
    (hf : ∀ c, (f c).tally = { c.tally with lost := c.tally.lost + 1 }) (event : TraceEvent)
    {x : EngineM δ κ γ α} {Q : α → Engine δ κ γ → Prop}
    (hrest : ∀ {e'}, e'.core = e.core.killed id b → Ensures x e' Q) :
    Ensures (do kill id; count f; record event; discard (.block id); x) e Q := by
  refine Ensures.bind (ensures_kill hget hheld) ?_
  intro _ e1 h1
  refine Ensures.run rfl (Ensures.run rfl (Ensures.run_core rfl ?_ hrest))
  have htally : (f e1.counters).tally = { e.core.tally with lost := e.core.tally.lost + 1 } := by
    rw [hf, show e1.counters.tally = e.core.tally from congrArg Core.tally h1]
  have hwaiting : e1.reclaimer.deferred ++ (Discarded.block id :: e1.reclaimer.posted).reverse =
      e.core.waiting ++ [.block id] := by
    rw [List.reverse_cons, ← List.append_assoc,
      show e1.reclaimer.deferred ++ e1.reclaimer.posted.reverse = _ from congrArg Core.waiting h1]
    rfl
  show { e1.core with
    tally := (f e1.counters).tally
    waiting := e1.reclaimer.deferred ++ (Discarded.block id :: e1.reclaimer.posted).reverse } = _
  rw [htally, hwaiting, h1]
  rfl

/-- The block that starts at instruction `offset` of block `id`, if there is one, is `id`. -/
def Covers (id : BlockId) (pc : UInt32) (offset : Nat) (e : Engine δ κ γ) : Prop :=
  ∀ {line : CacheLine}, e.cache.Holds line → line.start = physical (pc + offset.toUInt32 * 4) →
    line.block = id

/-- Other blocks than `id` may have been taken out of the cache. -/
structure Spares (id : BlockId) (e e' : Engine δ κ γ) : Prop where
  codes : e'.codes = e.codes
  nextCode : e'.nextCode = e.nextCode
  made : e'.health.successes = e.health.successes
  generator : e'.generator = e.generator
  block : e'.blocks.get? id = e.blocks.get? id
  holds : ∀ {line : CacheLine}, e'.cache.Holds line → e.cache.Holds line
  spares : ∀ {line : CacheLine}, line.block = id → e.cache.Holds line → e'.cache.Holds line

namespace Spares

variable {id : BlockId}

theorem refl (id : BlockId) (e : Engine δ κ γ) : Spares id e e :=
  ⟨rfl, rfl, rfl, rfl, rfl, fun h => h, fun _ h => h⟩

theorem trans {e'' : Engine δ κ γ} (h1 : Spares id e e') (h2 : Spares id e' e'') :
    Spares id e e'' where
  codes := h2.codes.trans h1.codes
  nextCode := h2.nextCode.trans h1.nextCode
  made := h2.made.trans h1.made
  generator := h2.generator.trans h1.generator
  block := h2.block.trans h1.block
  holds h := h1.holds (h2.holds h)
  spares hline h := h2.spares hline (h1.spares hline h)

theorem of_killed {other : BlockId} {b : Block} (hc : e.cache.WellFormed)
    (hheld : e.cache.Holds ⟨b.start, other⟩) (h : e'.core = e.core.killed other b)
    (hne : other ≠ id) : Spares id e e' := by
  have hcache : e'.cache = e.cache.erase ⟨b.start, other⟩ :=
    congrArg Core.cache h
  have hholds : ∀ {line}, e'.cache.Holds line ↔
      e.cache.Holds line ∧ line ≠ ⟨b.start, other⟩ := by
    intro line
    rw [hcache]
    exact BlockCache.holds_erase hc hheld
  exact {
    codes := congrArg Core.codes h
    nextCode := congrArg Core.nextCode h
    made := congrArg Core.made h
    generator := congrArg Core.generator h
    block := (congrFun (congrArg Core.blocks h) id).trans (Function.update_of_ne hne.symm _ _)
    holds := fun hline => (hholds.mp hline).1
    spares := by
      intro line hid hline
      refine hholds.mpr ⟨hline, ?_⟩
      rintro rfl
      exact hne hid }

theorem covers {pc : UInt32} {offset : Nat} (h : Spares id e e') (hc : Covers id pc offset e) :
    Covers id pc offset e' :=
  fun hline hstart => hc (h.holds hline) hstart

end Spares

variable [Generator γ] {b : Block} {id : BlockId} {p : PendingCompile}

theorem takes_killCovered (id : BlockId) (pc : UInt32) (offset : Nat) :
    Takes R before (killCovered id pc offset) e fun _ e' =>
      Spares id e e' ∧ Covers id pc offset e' := by
  intro hs
  unfold killCovered
  refine Ensures.run rfl ?_
  cases hfind : e.cache.find? (pc + offset.toUInt32 * 4) with
  | none =>
    refine Ensures.pure ⟨.refl _, .refl id e, ?_⟩
    intro line hline hstart
    exact absurd hstart (BlockCache.not_holds_of_find? hfind hline)
  | some other =>
    have hheld := hs.cache.holds_of_find? hfind
    dsimp only
    split
    · rename_i hne
      obtain ⟨b, _, ⟨hget, -⟩, hstart, -⟩ := hs.cached hheld
      have hheld' : e.cache.Holds ⟨b.start, other⟩ := hstart ▸ hheld
      refine ensures_condemn (x := Pure.pure ()) hget hheld' (fun c => ?_) _ ?_
      · exact congrArg (fun lost => { c.tally with lost }) (Nat.add_assoc _ _ 1).symm
      intro e1 h1
      have hspares := Spares.of_killed hs.cache hheld' h1 hne
      refine Ensures.pure ⟨?_, hspares, ?_⟩
      · rw [h1, Core.holding_killed]
        cases before with
        | none => exact .single (.kill hget hheld')
        | some => exact .single (.kill hget hheld')
      · -- the only block that started there is gone
        intro line hline hlstart
        have hheld1 : e.core.cache.Holds line ∧ line ≠ ⟨b.start, other⟩ :=
          (BlockCache.holds_erase hs.cache hheld').mp
            (show (e.core.killed other b).cache.Holds line from h1 ▸ hline)
        exact absurd ((hs.cache.start hheld1.1 hheld hlstart).trans (by rw [hstart])) hheld1.2
    · rename_i heq
      refine Ensures.pure ⟨.refl _, .refl id e, ?_⟩
      intro line hline hstart
      rw [hs.cache.start hline hheld hstart]
      exact Classical.not_not.mp heq

/-- The blocks that new code covers are killed. -/
theorem takes_killAllCovered (before : Option (γ × CodeId × Nat)) (id : BlockId) (pc : UInt32)
    (targets : List Nat) :
    Takes R before (targets.forM (killCovered id pc)) e fun _ e' =>
      Spares id e e' ∧ ∀ t ∈ targets, Covers id pc t e' := by
  refine (Takes.forM_each (I := Spares id e) (T := fun t e' => Covers id pc t e') ?_
    (.refl id e)).mono fun h => ⟨h.1, h.2.1⟩
  intro t e1 _ h1
  refine (takes_killCovered id pc t).mono ?_
  rintro _ e2 ⟨h2, hcovers⟩
  exact ⟨h1.trans h2, hcovers, h2.covers⟩

/-! ## After publication -/

theorem takes_retireEvicted (victim : CodeId) :
    Takes R none (retireEvicted victim) e fun _ e' => e'.cache = e.cache := by
  unfold retireEvicted
  refine .look rfl ?_
  cases e.codes.get? victim.toNat with
  | none => exact .pure rfl
  | some old =>
    refine Takes.bind (takes_note _) ?_
    intro _ e1 _ h1
    refine (takes_retire old.id old.slots).mono ?_
    intro _ e2 h2
    exact (congrArg Core.cache h2).trans h1.cache

theorem takes_chargeBudget {k : CompiledCode} (hcode : e.codes.get? k.id.toNat = some k) :
    Takes R none (chargeBudget k.id k.size) e fun _ e' => e'.cache = e.cache := by
  unfold chargeBudget
  refine Takes.bind (P := fun _ e' => e'.cache = e.cache)
    (.of_steps rfl (fun _ => .single (.charge hcode)) rfl) ?_
  intro evicted e1 _ h1
  refine Takes.forM (I := fun e' => e'.cache = e.cache) ?_ h1
  intro victim e2 h2
  exact (takes_retireEvicted victim).mono fun h => h.trans h2

omit [Generator γ] in
/-- The entry of a block that asks for new code is sent back to the dispatcher. -/
theorem steps_flagRecompile [Generator γ] (c : Core δ κ γ) (b : Block) :
    Core.Steps R c { c with machine := (c.machine.flagRecompile b).2 } := by
  have hlog : ∀ (c : Core δ κ γ) (log : Log),
      Core.Steps R c { c with machine := { c.machine with log } } := fun c log => .single (.log log)
  unfold Machine.flagRecompile Block.flagRecompile
  cases b.code with
  | none => exact hlog c _
  | some k =>
    cases c.machine.entries.index? b.pc with
    | none => exact hlog c _
    | some slot => exact (Core.Steps.single (.demote slot k.id)).trans (hlog _ _)

theorem takes_flagRecompile (hget : e.blocks.get? id = some b) :
    Takes R none (flagRecompile id) e fun _ e' => e'.cache = e.cache ∧ e'.codes = e.codes := by
  unfold flagRecompile
  refine .look rfl ?_
  rw [Registry.getD_eq_of_get? hget]
  refine .of_steps rfl (fun _ => ?_) ⟨rfl, rfl⟩
  have hblock : Core.Steps R e.core { e.core with
      blocks := (e.blocks.insert id (b.flagRecompile e.machine.entries).1).get? } := by
    rw [Registry.get?_insert_eq_update]
    exact .single (.change hget (b.keeps_flagRecompile _))
  exact hblock.trans (steps_flagRecompile _ b)

theorem takes_settleTags {b b' : Block} (hget : e.blocks.get? p.block = some b) :
    Takes R none (settleTags p b') e fun _ e' => e'.cache = e.cache ∧ e'.codes = e.codes := by
  unfold settleTags
  refine .ite (fun _ => takes_flagRecompile hget) (fun _ => .ite (fun _ => ?_) fun _ => .pure ⟨rfl, rfl⟩)
  exact (takes_modifyBlock hget b.keeps_freeOps).mono fun h =>
    ⟨congrArg Core.cache h, congrArg Core.codes h⟩

/-! ## Publication -/

omit [Generator γ] in
/-- Writing the entries behind the start of a block touches nothing but the table. -/
theorem foldlM_publishEntry (code : CodeId) (b : Block) (offsets : List Nat) (slots : Array Nat)
    (e : Engine δ κ γ) :
    offsets.foldlM (publishEntry code b) slots e =
      .ok (offsets.foldl (b.enter code) (e.machine.entries, slots)).2
        { e with machine := { e.machine with
          entries := (offsets.foldl (b.enter code) (e.machine.entries, slots)).1 } } := by
  induction offsets generalizing slots e with
  | nil => rfl
  | cons o offsets ih =>
    rw [List.foldlM_cons, List.foldl_cons]
    cases hslot : e.machine.entries.index? (b.start + o.toUInt32 * 4) with
    | none =>
      have hsame : publishEntry code b slots o e = .ok slots e := by
        rw [publishEntry, EngineM.get_bind_eq, hslot]
        rfl
      have henter : b.enter code (e.machine.entries, slots) o = (e.machine.entries, slots) := by
        rw [Block.enter, hslot]
      rw [henter, bind_eq_of_ok hsame]
      exact ih slots e
    | some slot =>
      have henter : b.enter code (e.machine.entries, slots) o =
          ((e.machine.entries.store slot (.code code o)).noteSpan slot (b.opCount - o) false,
            slots.push slot) := by
        rw [Block.enter, hslot]
      have hpublish : publishEntry code b slots o e = .ok (slots.push slot)
          { e with machine := { e.machine with
            entries := (b.enter code (e.machine.entries, slots) o).1 } } := by
        rw [publishEntry, EngineM.get_bind_eq, hslot, henter]
        rfl
      rw [henter] at hpublish ⊢
      rw [bind_eq_of_ok hpublish]
      exact ih (slots.push slot) _

/-- What was held of block `id` still is. -/
def KeepsLines (id : BlockId) (e e' : Engine δ κ γ) : Prop :=
  ∀ ⦃start : UInt32⦄, e.cache.Holds { start, block := id } →
    e'.cache.Holds { start, block := id }

omit [Generator γ] in
theorem KeepsLines.of_eq (h : e'.cache = e.cache) : KeepsLines id e e' :=
  fun _ hline => h.symm ▸ hline

omit [Generator γ] in
theorem KeepsLines.trans {e'' : Engine δ κ γ} (h1 : KeepsLines id e e')
    (h2 : KeepsLines id e' e'') : KeepsLines id e e'' :=
  fun _ hline => h2 (h1 hline)

omit [Generator γ] in
/-- The code that a block had before is given up. -/
theorem ensures_retireReplaced (code : Option CompiledCode) :
    Ensures (retireReplaced code) e fun _ e' => e'.core = { e.core.withEntries
      (e.core.machine.entries.giveUp code) with
        waiting := e.core.waiting ++ (code.map Discarded.code).toList } := by
  cases code with
  | none =>
    refine Ensures.pure ?_
    show e.core = { e.core with waiting := e.core.waiting ++ [] }
    rw [List.append_nil]
  | some old =>
    refine Ensures.run rfl (Ensures.run rfl (Ensures.of_eq rfl ?_))
    show { e.core.withEntries _ with
      waiting := e.reclaimer.deferred ++ (Discarded.code old :: e.reclaimer.posted).reverse } = _
    rw [List.reverse_cons, ← List.append_assoc]
    rfl

variable {c : Core δ κ γ} {start : Nat}

/-- A block gets its new code, whose start entry has just been written. -/
theorem ensures_adoptCode {k : CompiledCode} {offsets : List Nat} {t : EntryTable} {g : γ}
    (hs : c.Sound R) (hpublishes : c.Publishes R p.block b k offsets start t g)
    (hload : t.load start ≠ .null)
    (hcore : e.core = (c.withCode k g).withEntries (t.store start (.code k.id 0))) :
    Ensures (adoptCode p k) e fun _ e' => Core.Steps R c e'.core ∧ e'.cache = c.cache := by
  have hget : e.blocks.get? p.block = some b := by
    rw [show e.blocks.get? = c.blocks from congrArg Core.blocks hcore]
    exact hpublishes.enlisted.1
  unfold adoptCode
  refine Ensures.run_core rfl (core_modifyBlock hget _) ?_
  intro e1 h1
  have hget1 : e1.blocks.get? p.block = some (b.clearFlags { shouldRecompile := true }) := by
    rw [show e1.blocks.get? = _ from congrArg Core.blocks h1]
    exact Function.update_self ..
  refine Ensures.run rfl ?_
  rw [Registry.getD_eq_of_get? hget1]
  refine Ensures.run_core rfl (core_modifyBlock hget1 _) ?_
  intro e2 h2
  refine Ensures.bind (ensures_retireReplaced _) ?_
  intro _ e3 h3
  -- up to here it is one step, but for a mark of the block
  have hsteps3 : Core.Steps R c e3.core := by
    refine (Core.Steps.single (.publish hpublishes hload)).trans (.single ?_)
    have hkeeps : Block.Keeps { b with code := some k }
        { b.clearFlags { shouldRecompile := true } with code := some k } :=
      Block.keeps_clearFlags { b with code := some k } rfl
    have hmark := Core.Step.change (R := R) (c := { ((c.withCode k g).withEntries
        ((t.store start (.code k.id 0)).giveUp b.code)).withBlock p.block
          (some { b with code := some k }) with
        waiting := c.waiting ++ (b.code.map Discarded.code).toList })
      (Function.update_self ..) hkeeps
    rw [h3, h2, h1, hcore]
    simp only [Core.withBlock, Core.withEntries, Function.update_idem] at hmark ⊢
    exact hmark
  have hcache3 : e3.cache = c.cache := by
    rw [show e3.cache = e3.core.cache from rfl, h3, h2, h1, hcore]
    rfl
  have hget3 : e3.blocks.get? p.block =
      some ((b.clearFlags { shouldRecompile := true }).replaceCode k).2 := by
    rw [show e3.blocks.get? = e3.core.blocks from rfl, h3, h2]
    exact Function.update_self ..
  have hcode3 : e3.codes.get? k.id.toNat = some k := by
    rw [show e3.codes = e3.core.codes from rfl, h3, h2, h1, hcore]
    exact Registry.get?_insert_self _ _ _
  -- What follows are reports and counters, and other code that has to go for this one.
  have hrest : Takes R none (do
      settleTags p (b.clearFlags { shouldRecompile := true })
      chargeBudget k.id k.size
      count fun c => { c with blocksCompiled := c.blocksCompiled + 1 }
      record (.compileEnd (b.clearFlags { shouldRecompile := true }).pc k.size 0 true)
      note (.published k.size (b.clearFlags { shouldRecompile := true }).pc k.slots.size)) e3
      fun _ e' => e'.cache = e3.cache := by
    refine Takes.bind (takes_settleTags hget3) ?_
    rintro _ e4 _ ⟨hcache4, hcodes4⟩
    refine Takes.bind (takes_chargeBudget (hcodes4 ▸ hcode3)) ?_
    intro _ e5 _ hcache5
    refine Takes.bind (takes_count fun _ => rfl) ?_
    intro _ e6 _ h6
    refine Takes.bind (takes_record _) ?_
    intro _ e7 _ h7
    refine (takes_note _).mono ?_
    intro _ e8 h8
    exact ((h6.trans h7).trans h8).cache.trans (hcache5.trans hcache4)
  refine (hrest (hsteps3.sound hs)).mono ?_
  rintro _ e' ⟨hsteps, hcache⟩
  exact ⟨hsteps3.trans hsteps, hcache.trans hcache3⟩

omit [Generator γ] in
theorem ensures_publishStart (slot : Nat) (code : CodeId) :
    Ensures (publishStart slot code) e fun published e' =>
      if published then e.machine.entries.load slot ≠ .null ∧
        e'.core = e.core.withEntries (e.core.machine.entries.store slot (.code code 0))
      else e' = e := by
  unfold publishStart
  refine Ensures.run rfl ?_
  split
  · exact Ensures.pure rfl
  · rename_i hnull
    refine Ensures.run rfl (Ensures.pure ⟨?_, rfl⟩)
    intro hload
    rw [hload] at hnull
    exact hnull rfl

/-- Code that the generator has just made for a block is given its entries and put into its place,
or given up if the entry of the block was cleared. -/
theorem ensures_putInPlace {offsets : List Nat} {g : γ} {program : HostProgram} (hs : c.Sound R)
    (size : Nat)
    (hpublishes : ∀ {t slots}, offsets.foldl (b.enter c.nextCode) (c.machine.entries, #[start]) =
      (t, slots) → c.Publishes R p.block b ⟨c.nextCode, program, size, slots, some p.block⟩ offsets
        start t g)
    (hcore : e.core = c.withMade g) :
    Ensures (do
      let slots ← offsets.foldlM (publishEntry c.nextCode b) #[start]
      let compiled : CompiledCode := ⟨c.nextCode, program, size, slots, some p.block⟩
      modify fun e => { e with codes := e.codes.insert c.nextCode.toNat compiled }
      if ← publishStart start c.nextCode then
        adoptCode p compiled
        return true
      else
        note (.invalidatedWhileCompiling b.pc)
        modifyEntries (·.retire c.nextCode slots)
        discard (.code compiled)
        return false) e fun _ e' => Core.Steps R c e'.core ∧ e'.cache = c.cache := by
  have hentries : e.machine.entries = c.machine.entries := congrArg (·.machine.entries) hcore
  refine Ensures.run (foldlM_publishEntry _ _ _ _ _) ?_
  rw [hentries]
  generalize hentered : offsets.foldl (b.enter c.nextCode) (c.machine.entries, #[start]) = s
  obtain ⟨t, slots⟩ := s
  have hpublishes := hpublishes hentered
  dsimp only
  generalize hk : (⟨c.nextCode, program, size, slots, some p.block⟩ : CompiledCode) = k
    at hpublishes ⊢
  refine Ensures.run_core (c := (c.withCode k g).withEntries t) rfl ?_ ?_
  · show { e.core.withEntries t with codes := e.core.codes.insert c.nextCode.toNat k } = _
    rw [hcore, ← hpublishes.number]
    rfl
  intro e1 h1
  have hentries1 : e1.core.machine.entries = t := congrArg (·.machine.entries) h1
  refine Ensures.bind (ensures_publishStart start c.nextCode) ?_
  intro published e2 h2
  cases published with
  | true =>
    -- the entry of the start was still there
    obtain ⟨hload, h2⟩ := h2
    refine Ensures.bind (ensures_adoptCode hs hpublishes (hentries1 ▸ hload) ?_) ?_
    · rw [h2, hentries1, h1, hpublishes.number]
      rfl
    · intro _ e' h
      exact Ensures.pure h
  | false =>
    -- the entry of the start was cleared while the code was made
    cases h2
    have hslots : k.slots = slots := by rw [← hk]
    have hwaiting : e1.reclaimer.deferred ++ (Discarded.code k :: e1.reclaimer.posted).reverse =
        c.waiting ++ [.code k] := by
      rw [List.reverse_cons, ← List.append_assoc,
        show e1.reclaimer.deferred ++ e1.reclaimer.posted.reverse = _ from congrArg Core.waiting h1]
      rfl
    refine Ensures.run rfl (Ensures.run rfl (Ensures.run rfl (Ensures.pure ⟨?_, ?_⟩)))
    · refine (Core.Steps.single (.abandon hpublishes)).trans ?_
      show Core.Steps R _ { e1.core with
        machine := { e1.core.machine with
          entries := e1.core.machine.entries.retire c.nextCode slots
          log := _ }
        waiting := e1.reclaimer.deferred ++ (Discarded.code k :: e1.reclaimer.posted).reverse }
      rw [hwaiting, h1, ← hpublishes.number, ← hslots]
      exact .single (.log _)
    · exact congrArg Core.cache h1

/-- The generator has just made code for a cached block; `c` was the core before. -/
theorem ensures_publishCode {emitted : Emitted} {cache : RegisterCache} (hs : c.Sound R)
    (hcompile : (Generator.compile c.generator p.source cache).result = .ok emitted)
    (hcore : e.core = c.withMade (Generator.compile c.generator p.source cache).generator)
    (henlisted : c.Enlisted p.block b start) (hheld : c.cache.Holds ⟨b.start, p.block⟩)
    (hsource : b.IsSource p.source) (hmakes : R.makes p.source emitted.program emitted.targets) :
    Ensures (publishCode p emitted c.nextCode b start) e fun _ e' =>
      Core.Steps R c e'.core ∧ KeepsLines p.block e e' := by
  -- Blocks are killed in between. The generator, which has moved on by then, is held back until the
  -- code is put in its place, so that all of it is one step of the core.
  have hbefore : e.core.holding (some (c.generator, c.nextCode, c.made)) = c := by
    rw [hcore]
    rfl
  unfold publishCode
  dsimp only
  generalize htargets : List.filter _ emitted.targets = offsets
  refine Ensures.bind (takes_killAllCovered (some (c.generator, c.nextCode, c.made)) _ _ _
    (hbefore ▸ hs).of_holding) ?_
  rintro _ e1 ⟨hsteps1, hspares, hcovers⟩
  rw [hbefore] at hsteps1
  generalize hc1 : e1.core.holding (some (c.generator, c.nextCode, c.made)) = c1 at hsteps1
  have hgenerator : c1.generator = c.generator := by rw [← hc1]; rfl
  have hnext : c1.nextCode = c.nextCode := by rw [← hc1]; rfl
  have hcore1 : e1.core = c1.withMade (Generator.compile c.generator p.source cache).generator := by
    have hg := hspares.generator.trans (congrArg Core.generator hcore)
    have hn := hspares.nextCode.trans (congrArg Core.nextCode hcore)
    have hm := hspares.made.trans (congrArg Core.made hcore)
    rw [← hc1]
    show { e1.core with
      generator := e1.generator, nextCode := e1.nextCode, made := e1.health.successes } = _
    rw [hg, hn, hm]
    rfl
  have hcache1 : e1.cache = c1.cache := congrArg Core.cache hcore1
  -- the block itself is spared
  have hline : ∀ {start}, e.cache.Holds { start, block := p.block } →
      c1.cache.Holds { start, block := p.block } := by
    intro start hline
    rw [← hcache1]
    exact hspares.spares rfl hline
  have hget1 : c1.blocks p.block = some b := by
    rw [← show e1.blocks.get? = c1.blocks from congrArg Core.blocks hcore1, hspares.block,
      show e.blocks.get? = c.blocks from congrArg Core.blocks hcore]
    exact henlisted.1
  rw [← hnext]
  refine (ensures_putInPlace (hsteps1.sound hs) emitted.codeSize (fun {t slots} hentered => ?_)
    hcore1).mono ?_
  · exact {
      enlisted := ⟨hget1, (hsteps1.sameShape.index? _).trans henlisted.2⟩
      held := hline (by rw [show e.cache = c.cache from congrArg Core.cache hcore]; exact hheld)
      number := rfl
      block := rfl
      made := by
        rw [hgenerator]
        exact ⟨p.source, cache, emitted, hcompile, rfl, rfl⟩
      suits := ⟨p.source, emitted.targets, hsource, hmakes, fun o ho =>
        (List.mem_filter.mp (htargets ▸ ho)).1⟩
      inside := by
        intro o ho
        have hfilter := (List.mem_filter.mp (htargets ▸ ho)).2
        simp only [ne_eq, decide_not, Bool.and_eq_true, Bool.not_eq_eq_eq_not, Bool.not_true,
          decide_eq_false_iff_not, decide_eq_true_eq] at hfilter
        exact ⟨Nat.pos_of_ne_zero hfilter.1, hfilter.2⟩
      covered := fun o ho _ hl => hcovers o ho (hcache1 ▸ hl)
      entered := hentered }
  · rintro _ e' ⟨hsteps, hcache⟩
    refine ⟨hsteps1.trans hsteps, ?_⟩
    intro start hl
    rw [hcache]
    exact hline hl

/-- Publication of code that the generator has just made for a cached block. -/
theorem ensures_publish {emitted : Emitted} {cache : RegisterCache} (hs : c.Sound R)
    (hcompile : (Generator.compile c.generator p.source cache).result = .ok emitted)
    (hcore : e.core =
      { c with generator := (Generator.compile c.generator p.source cache).generator })
    (henlisted : c.Enlisted p.block b start)
    (hheld : c.cache.Holds ⟨b.start, p.block⟩)
    (halive : b.flags.isDead = false) (hsource : b.IsSource p.source)
    (hmakes : R.makes p.source emitted.program emitted.targets) :
    Ensures (publish p emitted) e fun _ e' =>
      Core.Steps R c e'.core ∧ KeepsLines p.block e e' := by
  have hcache : e.cache = c.cache := congrArg Core.cache hcore
  unfold publish
  refine Ensures.run rfl (Ensures.run_core
    (c := c.withMade (Generator.compile c.generator p.source cache).generator) rfl ?_ ?_)
  · show e.core.withMade e.core.generator = _
    rw [hcore]
    rfl
  intro e1 h1
  have hget1 : e1.blocks.get? p.block = some b := by
    rw [show e1.blocks.get? = c.blocks from congrArg Core.blocks h1]
    exact henlisted.1
  have hslot1 : e1.machine.entries.index? b.start = some start := by
    rw [show e1.machine = c.machine from congrArg Core.machine h1]
    exact henlisted.2
  refine Ensures.run rfl (Ensures.run rfl ?_)
  rw [Registry.getD_eq_of_get? hget1, hslot1]
  dsimp only
  -- the block is alive, as it is cached
  rw [halive, if_neg (by simp), show e.nextCode = c.nextCode from congrArg Core.nextCode hcore]
  refine (ensures_publishCode hs hcompile h1 henlisted hheld hsource hmakes).mono ?_
  rintro _ e' ⟨hsteps, hkeeps⟩
  refine ⟨hsteps, fun _ hline => hkeeps ?_⟩
  rw [show e1.cache = c.cache from congrArg Core.cache h1, ← hcache]
  exact hline

/-! ## Compilation -/

theorem takes_markTagged (hget : e.blocks.get? id = some b) (fullyTagged : Bool) :
    Takes R none (markTagged id fullyTagged) e fun _ e' =>
      e'.cache = e.cache ∧ ∃ b', e'.blocks.get? id = some b' ∧ b.Keeps b' := by
  unfold markTagged
  refine .ite (fun _ => ?_) (fun _ => .pure ⟨rfl, b, hget, .refl b⟩)
  have hkeeps : b.Keeps (b.setFlags { fullyTagged := true }) := b.keeps_setFlags rfl
  refine (takes_modifyBlock (f := (·.setFlags { fullyTagged := true })) hget hkeeps).mono ?_
  intro _ e1 h1
  refine ⟨congrArg Core.cache h1, _, ?_, hkeeps⟩
  exact (congrFun (congrArg Core.blocks h1) id).trans (Function.update_self ..)

/-- A compilation works on the instructions of its block. -/
theorem takes_beginCompile (hget : e.blocks.get? id = some b) (background : Bool) :
    Takes R none (beginCompile id background) e fun p e' =>
      e'.cache = e.cache ∧ (∃ b', e'.blocks.get? id = some b' ∧ b.Keeps b') ∧
        ∀ p', p = some p' → p'.block = id ∧ b.IsSource p'.source := by
  intro hs
  unfold beginCompile
  refine Takes.look rfl (.ite (fun _ => ?_) fun _ => .look rfl ?_) hs
  · exact .pure ⟨rfl, ⟨b, hget, .refl b⟩, fun _ h => by cases h⟩
  · rw [Registry.getD_eq_of_get? hget]
    cases hops : b.ops with
    | none => exact .pure ⟨rfl, ⟨b, hget, .refl b⟩, fun _ h => by cases h⟩
    | some ops =>
      refine Takes.bind (takes_markTagged hget _) ?_
      rintro _ e1 _ ⟨hcache1, b', hget1, hkeeps⟩
      refine Takes.bind (takes_record _) ?_
      intro _ e2 _ h2
      refine .pure ⟨h2.cache.trans hcache1, ⟨b', h2.get? ▸ hget1, hkeeps⟩, ?_⟩
      intro p' hp'
      cases hp'
      exact ⟨rfl, (hs.block hget).1.ops hops⟩

theorem takes_failCompile (hget : e.blocks.get? id = some b) (error : CodegenError) :
    Takes R none (failCompile id error) e fun _ e' => e'.cache = e.cache := by
  unfold failCompile
  refine .look rfl ?_
  rw [Registry.getD_eq_of_get? hget]
  refine Takes.bind (takes_modifyBlock hget (b.keeps_setFlags rfl)) ?_
  rintro _ e1 _ h1
  refine Takes.bind (takes_count fun _ => rfl) ?_
  intro _ e2 _ h2
  refine Takes.bind (takes_record _) ?_
  intro _ e3 _ h3
  refine Takes.bind (takes_note _) ?_
  intro _ e4 _ h4
  have hmade := e4.health.successes_recordFailure b.pc e4.config.maxConsecutiveFailures
    e4.config.maxTotalFailures
  refine Takes.bind (takes_of_quiet rfl (.of_eq ?_)) ?_
  · exact congrArg (fun made => { e4.core with made }) hmade
  · intro notices e5 _ h5
    refine (takes_noteAll notices).mono ?_
    intro _ e6 h6
    exact ((((h2.trans h3).trans h4).trans h5).trans h6).cache.trans (congrArg Core.cache h1)

theorem takes_finishCompile (hR : R.Admits γ) (hget : e.blocks.get? p.block = some b)
    (hheld : e.cache.Holds ⟨b.start, p.block⟩) (hsource : b.IsSource p.source) :
    Takes R none (finishCompile p false) e fun _ e' => KeepsLines p.block e e' := by
  intro hs
  obtain ⟨b', slot, henlisted, -, halive⟩ := hs.cached hheld
  cases hget.symm.trans henlisted.1
  unfold finishCompile
  generalize hout : Generator.compile e.generator p.source e.registers.reset = out
  refine Ensures.run_core (c := { e.core with generator := out.generator }) rfl ?_ ?_
  · rw [← hout]
    rfl
  intro e1 h1
  dsimp only
  simp only [Bool.false_eq_true, if_false, hout]
  -- The generator has been asked; up to its answer this is the engine from before, with reports.
  generalize hlog : (e1.machine.noteAll out.notices).log = log
  have hstep : Core.Step R e.core { e.core with machine := { e.core.machine with log } } := .log log
  refine Ensures.run_core (c := { e.core with
    generator := out.generator
    machine := { e.core.machine with log } }) rfl ?_ ?_
  · rw [← hlog]
    exact congrArg (fun c : Core δ κ γ => { c with
      machine := { c.machine with log := (e1.machine.noteAll out.notices).log } }) h1
  intro e2 h2
  cases hresult : out.result with
  | error error =>
    -- a generator that fails has changed all the same
    have hmiss : Core.Steps R e.core e2.core := by
      rw [h2, ← hout]
      exact (Core.Steps.single hstep).trans (.single (.miss (hout ▸ hresult)))
    cases error with
    | registersExhausted => exact Ensures.throw trivial
    | codegen error =>
      refine Ensures.bind ((takes_failCompile (b := b) ?_ error).ensures (hmiss.sound hs)) ?_
      · rw [show e2.blocks.get? = e.blocks.get? from congrArg Core.blocks h2]
        exact hget
      rintro _ e3 ⟨hsteps, hcache⟩
      refine Ensures.pure ⟨hmiss.trans hsteps, .of_eq ?_⟩
      exact hcache.trans (congrArg Core.cache h2)
  | ok emitted =>
    subst hout
    refine (ensures_publish (hstep.sound hs) hresult h2 henlisted hheld halive hsource
      (hR _ _ _ hresult)).mono ?_
    rintro _ e' ⟨hsteps, hkeeps⟩
    refine ⟨(Core.Steps.single hstep).trans hsteps, fun _ hline => hkeeps ?_⟩
    rw [show e2.cache = e.cache from congrArg Core.cache h2]
    exact hline

/-- Code is generated for a cached block. -/
theorem takes_compileNow (hR : R.Admits γ) {start : UInt32}
    (hheld : e.cache.Holds { start, block := id }) :
    Takes R none (compileNow id) e fun _ e' => KeepsLines id e e' := by
  intro hs
  obtain ⟨b, _, ⟨hget, -⟩, hline, -⟩ := hs.cached hheld
  unfold compileNow
  refine Takes.bind (takes_beginCompile hget false) ?_ hs
  rintro pending e1 _ ⟨hcache1, ⟨b', hget1, hkeeps⟩, hpending⟩
  cases pending with
  | none => exact .pure (KeepsLines.of_eq hcache1)
  | some p =>
    obtain ⟨rfl, hsource⟩ := hpending p rfl
    have hstart' : b'.start = start := (congrArg physical hkeeps.pc).trans hline
    refine Takes.bind (takes_finishCompile hR hget1 ?_ (hsource.same hkeeps.pc hkeeps.words)) ?_
    · rw [hcache1, hstart']
      exact hheld
    · intro _ e2 _ h2
      exact .pure ((KeepsLines.of_eq hcache1).trans h2)

end Engine

end Dynarec
