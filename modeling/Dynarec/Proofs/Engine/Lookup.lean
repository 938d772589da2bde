/-
  Dynarec.Proofs.Engine.Lookup

  The block at an address, found or decoded, in steps.

  A block that comes back can be run: it is cached, or it has no entry and is
  never compiled. Where code cannot be fetched, nothing comes back and the
  guest is left with a fault.
-/
import Dynarec.Proofs.Engine.Publication

namespace Dynarec

variable {δ κ γ : Type}

/-- The core after code could not be fetched. -/
def Core.faulted (c : Core δ κ γ) : Core δ κ γ :=
  { c with machine := c.machine.setExit { segfault := true } }

/-- No block can be decoded at `pc`. -/
def Core.Undecodable (c : Core δ κ γ) (pc : UInt32) : Prop :=
  ∃ fault, Block.decode c.machine.memory pc c.config.maxBlockOps = .error fault

/-- What decoding a block depends on. -/
theorem Core.Decoded.congr {c c' : Core δ κ γ} {pc : UInt32} {b : Block} (h : c.Decoded pc b)
    (hmemory : c'.machine.memory = c.machine.memory) (hconfig : c'.config = c.config) :
    c'.Decoded pc b := by
  unfold Decoded
  rw [hmemory, hconfig]
  exact h

namespace Engine

variable [Generator γ] {R : Rules} {before : Option (γ × CodeId × Nat)} {e e' : Engine δ κ γ}

/-- Block `id`, which is `b`, is the one at `pc` and can be run. -/
structure Found (e : Engine δ κ γ) (pc : UInt32) (id : BlockId) (b : Block) : Prop where
  get : e.blocks.get? id = some b
  start : b.start = physical pc
  runs : e.cache.Holds ⟨b.start, id⟩ ∨ b.flags.neverCompile = true
  /-- Its words are those of memory as far as the table of entries can tell. -/
  fresh : (e.cache.Holds ⟨b.start, id⟩ ∧
      BlockCache.isOutdated e.machine.entries b = false) ∨
    (∃ r data, e.machine.memory.Supplies b.pc b.words r data) ∨
      e.config.reuseIdenticalBlocks = true

/-- What comes of looking up the block at `pc`. -/
def LooksUp (R : Rules) (e : Engine δ κ γ) (pc : UInt32) :
    Option BlockId → Engine δ κ γ → Prop
  | none, e' => ∃ c, Core.Steps R e.core c ∧ c.Undecodable pc ∧ e'.core = c.faulted
  | some id, e' => Core.Steps R e.core e'.core ∧ ∃ b, Found e' pc id b

variable {pc : UInt32}

theorem LooksUp.after {e1 : Engine δ κ γ} {found : Option BlockId}
    (hsteps : Core.Steps R e.core e1.core) (h : LooksUp R e1 pc found e') :
    LooksUp R e pc found e' := by
  cases found with
  | none =>
    obtain ⟨c, hc, hfault, hcore⟩ := h
    exact ⟨c, hsteps.trans hc, hfault, hcore⟩
  | some id => exact ⟨hsteps.trans h.1, h.2⟩

/-! ## New blocks -/

theorem takes_noteAnnotated (config : Config) (pc : UInt32) (a : Annotated) :
    Takes R before (noteAnnotated config pc a) e fun _ e' => e.Quiet e' := by
  unfold noteAnnotated
  refine Takes.bind (takes_noteAll _) ?_
  intro _ e1 _ h1
  refine .ite (fun _ => ?_) (fun _ => .pure h1)
  exact (takes_note _).mono h1.trans

/-- The block that was decoded and added last is cached, if it has an entry. -/
theorem ensures_cacheBlock {c : Core δ κ γ} {b : Block} (config : Config) (hs : c.Sound R)
    (hcore : e.core = c.withNewBlock b) (hstart : R.start pc) (hdecoded : c.Decoded pc b)
    (hnew : ∀ {line}, c.cache.Holds line → line.start ≠ b.start) :
    Ensures (cacheBlock config c.nextBlock b (c.machine.entries.index? b.start)) e fun _ e' =>
      Core.Steps R c e'.core ∧ e'.blocks.get? c.nextBlock = some b ∧
        e'.machine.memory = c.machine.memory ∧
        ((c.machine.entries.index? b.start).isSome →
          e'.cache.Holds ⟨b.start, c.nextBlock⟩) := by
  cases hslot : c.machine.entries.index? b.start with
  | none =>
    refine Ensures.of_eq rfl ⟨?_, ?_, congrArg (·.machine.memory) hcore, fun h => by cases h⟩
    · have hlend := Core.Step.lend hstart hdecoded hslot
      show Core.Steps R c { e.core with
        tally := { e.core.tally with uncached := e.core.tally.uncached + 1 } }
      rw [hcore]
      exact .single hlend
    · show e.core.blocks c.nextBlock = some b
      rw [hcore]
      exact Function.update_self ..
  | some slot =>
    have hregister : c.cache.register c.machine.entries c.nextBlock b =
        (c.cache.insert ⟨b.start, c.nextBlock⟩,
          (c.machine.entries.noteSpan slot b.opCount true).store slot .pending) := by
      unfold BlockCache.register
      rw [hslot]
    -- One step puts in either entry; the code writes one over the other.
    have henroll : ∀ {entry}, entry = .pending ∨ entry = .memset → Core.Steps R c
        { (c.withNewBlock b).withEntries
            ((c.machine.entries.noteSpan slot b.opCount true).store slot entry) with
          cache := c.cache.insert ⟨b.start, c.nextBlock⟩ } :=
      fun hentry => .single (.enroll hstart hdecoded hslot hnew hentry)
    have hheld : (c.cache.insert ⟨b.start, c.nextBlock⟩).Holds
        ⟨b.start, c.nextBlock⟩ :=
      (BlockCache.holds_insert hs.cache).mpr (.inl rfl)
    unfold cacheBlock
    refine Ensures.run_core (c := { (c.withNewBlock b).withEntries
      ((c.machine.entries.noteSpan slot b.opCount true).store slot .pending) with
        cache := c.cache.insert ⟨b.start, c.nextBlock⟩ }) rfl ?_ ?_
    · show { e.core.withEntries (e.core.cache.register e.core.machine.entries c.nextBlock b).2 with
        cache := (e.core.cache.register e.core.machine.entries c.nextBlock b).1 } = _
      rw [hcore]
      show { (c.withNewBlock b).withEntries
          (c.cache.register c.machine.entries c.nextBlock b).2 with
        cache := (c.cache.register c.machine.entries c.nextBlock b).1 } = _
      rw [hregister]
    · intro e1 h1
      have hget : e1.blocks.get? c.nextBlock = some b :=
        (congrFun (congrArg Core.blocks h1) _).trans (Function.update_self ..)
      have hmemory : e1.machine.memory = c.machine.memory := congrArg (·.machine.memory) h1
      have hcache : e1.cache = c.cache.insert ⟨b.start, c.nextBlock⟩ :=
        congrArg Core.cache h1
      split
      · -- the entry is replaced at once
        have hentries : e1.machine.entries.store slot .memset =
            (c.machine.entries.noteSpan slot b.opCount true).store slot .memset := by
          rw [show e1.machine.entries = _ from congrArg (·.machine.entries) h1]
          exact EntryTable.store_store _ _ _ _
        refine Ensures.of_eq rfl ⟨?_, hget, hmemory, fun _ => hcache ▸ hheld⟩
        show Core.Steps R c (e1.core.withEntries (e1.machine.entries.store slot .memset))
        rw [hentries, h1]
        exact henroll (.inr rfl)
      · refine Ensures.pure ⟨?_, hget, hmemory, fun _ => hcache ▸ hheld⟩
        rw [h1]
        exact henroll (.inl rfl)

theorem ensures_precompile (hstart : R.start pc) (hs : e.core.Sound R)
    (hnew : ∀ {line}, e.cache.Holds line → line.start ≠ physical pc) :
    Ensures (precompile pc) e (LooksUp R e pc) := by
  unfold precompile
  refine Ensures.run rfl (Ensures.run rfl (Ensures.run rfl (Ensures.run rfl ?_)))
  cases hdecode : Block.decode e.machine.memory pc e.config.maxBlockOps with
  | error fault =>
    refine Ensures.bind ((takes_note (R := R) _).ensures hs) ?_
    rintro _ e1 ⟨hsteps, h1⟩
    refine Ensures.run rfl ?_
    refine Ensures.pure ⟨e1.core, hsteps, ⟨fault, ?_⟩, rfl⟩
    show Block.decode e1.machine.memory pc e1.config.maxBlockOps = _
    rw [h1.memory, h1.config, hdecode]
  | ok ops =>
    dsimp only
    refine Ensures.bind ((takes_noteAnnotated _ _ _).ensures hs) ?_
    rintro _ e1 ⟨hsteps1, h1⟩
    generalize hflags : (if (e.machine.entries.index? pc).isNone = true then _ else _) = flags
    generalize hb : Block.ofOps pc _ flags = b
    have hbstart : b.start = physical pc := by
      rw [← hb]
      rfl
    -- Reports are put before the new block, which is then one step.
    refine Ensures.run rfl (Ensures.run_core (c := e1.core.withNewBlock b) rfl ?_ ?_)
    · exact congrArg (fun blocks => { e1.core.withNewBlock b with blocks })
        (Registry.get?_insert_eq_update ..)
    intro e2 h2
    refine Ensures.run rfl ?_
    generalize hlog : (e2.machine.note (.precompiled pc b.opCount flags)).log = log
    have hstep : Core.Step R e1.core { e1.core with machine := { e1.core.machine with log } } :=
      .log log
    refine Ensures.run_core
      (c := Core.withNewBlock { e1.core with machine := { e1.core.machine with log } } b) rfl ?_ ?_
    · rw [← hlog]
      exact congrArg (fun c : Core δ κ γ => { c with machine := { c.machine with
        log := (e2.machine.note (.precompiled pc b.opCount flags)).log } }) h2
    intro e3 h3
    have hdecoded : e1.core.Decoded pc b := by
      refine Core.Decoded.congr (c := e.core) ⟨ops, flags, hdecode, hb.symm, ?_⟩ h1.memory h1.config
      rw [← hflags]
      split <;> rfl
    have hslot : e.machine.entries.index? pc = e1.core.machine.entries.index? b.start := by
      rw [hbstart, EntryTable.index?_physical]
      exact (congrArg (EntryTable.index? · pc) h1.entries).symm
    rw [hslot]
    refine Ensures.bind (ensures_cacheBlock
      (c := { e1.core with machine := { e1.core.machine with log } }) _
      (hstep.sound (hsteps1.sound hs)) h3 hstart (hdecoded.congr rfl rfl) ?_) ?_
    · intro line hline
      rw [hbstart]
      exact hnew (h1.cache ▸ hline)
    rintro _ e4 ⟨hsteps4, hget, hmemory, hheld⟩
    refine Ensures.pure ⟨hsteps1.trans ((Core.Steps.single hstep).trans hsteps4), b, hget, hbstart, ?_,
      .inr (.inl ?_)⟩
    · -- a block that has no entry is marked instead
      cases hindex : e.machine.entries.index? pc with
      | none =>
        right
        rw [hindex, if_pos Option.isNone_none] at hflags
        rw [← hb, ← hflags]
        rfl
      | some slot => exact .inl (hheld (by rw [← hslot, hindex]; rfl))
    · -- it was decoded just now, and nothing has been written since
      obtain ⟨-, hpc, -, -, -, r, data, hsupplies⟩ :=
        hdecoded.sound hstart (hsteps1.sound hs).maxBlockOps
      rw [hmemory, hpc]
      exact ⟨r, data, hsupplies⟩

/-! ## Cached blocks -/

omit [Generator γ] in
theorem republishedEntry_cases (e : Engine δ κ γ) (b : Block) :
    e.republishedEntry b = .pending ∨ e.republishedEntry b = .memset ∨
      ∃ k, b.code = some k ∧ e.republishedEntry b = .code k.id 0 := by
  have hother : ∀ entry, entry = (if b.flags.isMemset then Entry.memset else .pending) →
      entry = .pending ∨ entry = .memset := by
    intro entry h
    split at h
    · exact .inr h
    · exact .inl h
  unfold republishedEntry
  cases hcode : b.code with
  | none =>
    rcases hother _ rfl with h | h
    · exact .inl h
    · exact .inr (.inl h)
  | some k =>
    dsimp only
    split
    · exact .inr (.inr ⟨k, rfl, rfl⟩)
    · rcases hother _ rfl with h | h
      · exact .inl h
      · exact .inr (.inl h)

/-- A cached block that is out of date is published again. -/
theorem ensures_republish {id : BlockId} {b : Block} {slot : Nat}
    (hreuse : e.config.reuseIdenticalBlocks = true) (henlisted : e.core.Enlisted id b slot)
    (hheld : e.cache.Holds ⟨b.start, id⟩) :
    Ensures (republish id) e fun _ e' =>
      e'.blocks.get? = e.blocks.get? ∧ e'.cache = e.cache ∧ e'.config = e.config ∧
        Core.Steps R e.core { e'.core with
          tally := { e'.core.tally with reused := e'.core.tally.reused + 1 } } := by
  unfold republish
  refine Ensures.run rfl (Ensures.run rfl ?_)
  rw [Registry.getD_eq_of_get? henlisted.1,
    show e.machine.entries.index? b.start = some slot from henlisted.2]
  refine Ensures.run rfl (Ensures.of_eq rfl ⟨rfl, rfl, rfl, ?_⟩)
  exact (Core.Steps.single
    (.republish hreuse henlisted hheld (republishedEntry_cases e b))).trans (.single (.log _))

/-- The block at an address is found, or decoded anew. -/
theorem ensures_getBlock (hstart : R.start pc) (hs : e.core.Sound R) :
    Ensures (getBlock pc) e (LooksUp R e pc) := by
  unfold getBlock
  refine Ensures.run rfl ?_
  cases hfind : e.cache.find? pc with
  | none => exact ensures_precompile hstart hs fun hline => BlockCache.not_holds_of_find? hfind hline
  | some id =>
    have hheld := hs.cache.holds_of_find? hfind
    obtain ⟨b, slot, henlisted, hline, -⟩ := hs.cached hheld
    have hbstart : b.start = physical pc := hline
    have hget : e.blocks.get? id = some b := henlisted.1
    have hheld' : e.cache.Holds ⟨b.start, id⟩ := hbstart ▸ hheld
    refine Ensures.run rfl (Ensures.run rfl ?_)
    rw [Registry.getD_eq_of_get? hget]
    split
    · -- still up to date
      rename_i hfresh
      exact Ensures.pure ⟨.refl _, b, hget, hbstart, .inl hheld', .inl ⟨hheld', by simpa using hfresh⟩⟩
    · split
      · -- out of date, but with the words that are in memory
        rename_i hsame
        have hreuse : e.config.reuseIdenticalBlocks = true := (Bool.and_eq_true_iff.mp hsame).1
        refine Ensures.bind (ensures_republish (R := R) hreuse henlisted hheld') ?_
        rintro _ e1 ⟨hblocks1, hcache1, hconfig1, hsteps1⟩
        refine Ensures.run_core (c := { e1.core with
          tally := { e1.core.tally with reused := e1.core.tally.reused + 1 } }) rfl rfl ?_
        intro e2 h2
        rw [← h2] at hsteps1
        refine Ensures.bind ((takes_record _).ensures (hsteps1.sound hs)) ?_
        rintro _ e3 ⟨hsteps3, h3⟩
        refine Ensures.pure ⟨hsteps1.trans hsteps3, b, ?_, hbstart, .inl ?_, .inr (.inr ?_)⟩
        · rw [h3.get?, show e2.blocks.get? = e1.blocks.get? from congrArg Core.blocks h2, hblocks1,
            hget]
        · rw [h3.cache, show e2.cache = e1.cache from congrArg Core.cache h2, hcache1]
          exact hheld'
        · rw [h3.config, show e2.config = e1.config from congrArg Core.config h2, hconfig1, hreuse]
      · -- out of date, and decoded anew
        refine Ensures.bind ((takes_note _).ensures hs) ?_
        rintro _ e1 ⟨hsteps1, h1⟩
        have hget1 : e1.blocks.get? id = some b := h1.get? ▸ hget
        have hheld1 : e1.cache.Holds ⟨b.start, id⟩ := h1.cache ▸ hheld'
        have hs1 := hsteps1.sound hs
        refine ensures_condemn hget1 hheld1 (fun c => ?_) _ ?_
        · exact congrArg (fun lost => { c.tally with lost }) (Nat.add_right_comm _ 1 _)
        intro e2 h2
        have hsteps2 : Core.Steps R e1.core e2.core := h2 ▸ .single (.kill hget1 hheld1)
        refine (ensures_precompile hstart (hsteps2.sound hs1) ?_).mono fun h =>
          h.after (hsteps1.trans hsteps2)
        -- the block that was there has left the cache
        intro line hline hlstart
        obtain ⟨hold, hne⟩ := (BlockCache.holds_erase hs1.cache hheld1).mp
          (show (e1.core.killed id b).cache.Holds line from h2 ▸ hline)
        exact hne (hs1.cache.start hold hheld1 (hlstart.trans hbstart.symm))

end Engine

end Dynarec
