/-
  Dynarec.Proofs.Engine.Links

  Entries, code and blocks belong together.

  Every piece of code that is registered is the code of a block or waits to be
  reclaimed. Every entry that leads into code leads into the code that a cached
  block has, at the word of that block where the code can be entered. Code goes
  by number, and numbers repeat after 2 ^ 32 pieces of code; until then no two
  pieces share one.
-/
import Dynarec.Proofs.Engine.Run
import Dynarec.Proofs.Host.Refinement
import Dynarec.Proofs.Invalidation

namespace Dynarec

variable {δ κ γ : Type}

namespace Core

/-- Block `id`, which is `b`, is cached, and its code is `k`. -/
structure Current (c : Core δ κ γ) (id : BlockId) (b : Block) (k : CompiledCode) : Prop where
  get : c.blocks id = some b
  code : b.code = some k
  held : c.cache.Holds ⟨b.start, id⟩

/-- An entry in `slot` may lead into code `n` at instruction `offset`: it is the current code of a
block, the slot is that of the instruction, and the code can be entered there. -/
def Enters (R : Rules) (c : Core δ κ γ) (slot : Nat) (n : CodeId) (offset : Nat) : Prop :=
  ∃ id b k, c.Current id b k ∧ k.id = n ∧ slot ∈ k.slots ∧
    c.machine.entries.index? (b.start + offset.toUInt32 * 4) = some slot ∧
    (offset = 0 ∨ offset < b.opCount ∧ b.Suits R k.program [offset])

/-- Entries, code and blocks belong together. -/
structure Linked (R : Rules) (c : Core δ κ γ) : Prop where
  next : c.nextCode = UInt32.ofNat (c.made + 1)
  registered : ∀ {n : Nat} {k : CompiledCode}, c.codes.get? n = some k →
    k.id.toNat = n ∧ 1 ≤ n ∧ n ≤ c.made ∧
      ((∃ id b, c.blocks id = some b ∧ b.code = some k) ∨ Discarded.code k ∈ c.waiting)
  code : ∀ {id : BlockId} {b : Block} {k : CompiledCode}, c.blocks id = some b → b.code = some k →
    c.codes.get? k.id.toNat = some k ∧ k.block = some id ∧
      ∀ {slot : Nat}, c.machine.entries.index? b.start = some slot → slot ∈ k.slots
  scrapped : ∀ {k : CompiledCode}, Discarded.code k ∈ c.waiting →
    c.codes.get? k.id.toNat = some k ∧ ∀ {id : BlockId} {b : Block}, c.blocks id = some b →
      b.code ≠ some k
  placed : ∀ {id : BlockId} {b : Block} {k : CompiledCode}, c.blocks id = some b → b.code = some k →
    c.cache.Holds ⟨b.start, id⟩ ∨ Discarded.block id ∈ c.waiting
  nodup : c.waiting.Nodup
  entry : ∀ {slot : Nat} {n : CodeId} {offset : Nat},
    c.machine.entries.load slot = .code n offset → c.Enters R slot n offset

variable {R : Rules} {c c' : Core δ κ γ} {id : BlockId} {b : Block} {k : CompiledCode}

theorem Enters.same {slot : Nat} {n : CodeId} {offset : Nat} (h : c.Enters R slot n offset)
    (hblocks : c'.blocks = c.blocks) (hcache : c'.cache = c.cache)
    (hshape : c.machine.entries.SameShape c'.machine.entries) : c'.Enters R slot n offset := by
  obtain ⟨id, b, k, hcurrent, hn, hmem, hindex, hoffset⟩ := h
  exact ⟨id, b, k, ⟨hblocks ▸ hcurrent.get, hcurrent.code, hcache ▸ hcurrent.held⟩, hn, hmem,
    (hshape.index? _).trans hindex, hoffset⟩

namespace Linked

/-! ## What follows at once -/

variable (h : Linked R c)
include h

/-- Two blocks whose code has the same number are the same block. -/
theorem code_unique {id id' : BlockId} {b b' : Block} {k k' : CompiledCode}
    (hget : c.blocks id = some b) (hcode : b.code = some k) (hget' : c.blocks id' = some b')
    (hcode' : b'.code = some k') (hid : k.id = k'.id) : id = id' ∧ k = k' := by
  obtain ⟨hk, howner, -⟩ := h.code hget hcode
  obtain ⟨hk', howner', -⟩ := h.code hget' hcode'
  rw [hid] at hk
  cases hk.symm.trans hk'
  exact ⟨Option.some.inj (howner.symm.trans howner'), rfl⟩

/-- An entry that is not among those of a block's code leads into the code of another block. -/
theorem ne_of_not_mem (hget : c.blocks id = some b) (hcode : b.code = some k) {slot : Nat}
    {n : CodeId} {offset : Nat} (hload : c.machine.entries.load slot = .code n offset)
    (hnot : ¬ (n = k.id ∧ slot ∈ k.slots)) :
    k.id ≠ n := by
  intro hn
  obtain ⟨owner, a, k', hcurrent, hn', hmem, -⟩ := h.entry hload
  obtain ⟨-, rfl⟩ := h.code_unique hget hcode hcurrent.get hcurrent.code (hn.trans hn'.symm)
  exact hnot ⟨hn.symm, hmem⟩

/-- The next number is not in use. -/
theorem next_free (hmade : c.made + 1 < 2 ^ 32) :
    c.nextCode.toNat = c.made + 1 ∧ c.codes.get? c.nextCode.toNat = none := by
  have hnext : c.nextCode.toNat = c.made + 1 := by
    rw [h.next]
    exact UInt32.toNat_ofNat_of_lt' hmade
  refine ⟨hnext, ?_⟩
  cases hk : c.codes.get? c.nextCode.toNat with
  | none => rfl
  | some k =>
    obtain ⟨-, -, hle, -⟩ := h.registered hk
    omega

theorem next_succ : c.nextCode + 1 = UInt32.ofNat (c.made + 1 + 1) := by
  rw [h.next, UInt32.ofNat_add (c.made + 1) 1]
  rfl

/-- Code that is registered stays so when the next piece is. -/
theorem get?_insert_next (hmade : c.made + 1 < 2 ^ 32) {k k' : CompiledCode}
    (hnumber : k.id = c.nextCode) (hk' : c.codes.get? k'.id.toNat = some k') :
    (c.codes.insert k.id.toNat k).get? k'.id.toNat = some k' ∧ k' ≠ k := by
  have hfree := (h.next_free hmade).2
  rw [← hnumber] at hfree
  refine ⟨?_, ?_⟩
  · rw [Registry.get?_insert_of_ne]
    · exact hk'
    · intro heq
      rw [heq, hfree] at hk'
      cases hk'
  · rintro rfl
    rw [hfree] at hk'
    cases hk'

/-! ## What changes little -/

section

variable (hblocks : c'.blocks = c.blocks) (hcache : c'.cache = c.cache)
  (hcodes : c'.codes = c.codes) (hnext : c'.nextCode = c.nextCode) (hmade : c'.made = c.made)
  (hwaiting : c'.waiting = c.waiting) (hshape : c.machine.entries.SameShape c'.machine.entries)
include hblocks hcache hcodes hnext hmade hwaiting hshape

/-- Entries change, and nothing else happens. -/
theorem withEntries (hentry : ∀ {slot n offset},
      c'.machine.entries.load slot = .code n offset → c.Enters R slot n offset) :
    Linked R c' where
  next := by rw [hnext, hmade, h.next]
  registered hk := by
    rw [hblocks, hmade, hwaiting]
    exact h.registered (hcodes ▸ hk)
  code hget hcode := by
    obtain ⟨hk, howner, hslot⟩ := h.code (hblocks ▸ hget) hcode
    exact ⟨hcodes ▸ hk, howner, fun hs => hslot ((hshape.index? _).symm.trans hs)⟩
  scrapped hk := by
    rw [hblocks, hcodes]
    exact h.scrapped (hwaiting ▸ hk)
  placed hget hcode := by
    rw [hcache, hwaiting]
    exact h.placed (hblocks ▸ hget) hcode
  nodup := hwaiting ▸ h.nodup
  entry hl := (hentry hl).same hblocks hcache hshape

/-- Entries that lead into code are lost, and nothing else happens. -/
theorem lose (hload : ∀ {slot n offset},
      c'.machine.entries.load slot = .code n offset → c.machine.entries.load slot = .code n offset) :
    Linked R c' :=
  h.withEntries hblocks hcache hcodes hnext hmade hwaiting hshape fun hl => h.entry (hload hl)

end

/-- Other blocks, but those that have code are the same up to what does not matter here. -/
theorem withBlocks (blocks : BlockId → Option Block)
    (hold : ∀ {n a k}, blocks n = some a → a.code = some k →
      ∃ a0, c.blocks n = some a0 ∧ a0.code = some k ∧ a0.pc = a.pc)
    (hnew : ∀ {n a0 k}, c.blocks n = some a0 → a0.code = some k → ∃ a, blocks n = some a ∧
      a.code = some k ∧ a.pc = a0.pc ∧ a.opCount = a0.opCount ∧ a.words = a0.words) :
    Linked R { c with blocks } where
  next := h.next
  registered hk := by
    obtain ⟨hid, hpos, hle, ⟨n, a0, ha, hcode⟩ | hwaiting⟩ := h.registered hk
    · obtain ⟨a, ha, hcode, -⟩ := hnew ha hcode
      exact ⟨hid, hpos, hle, .inl ⟨n, a, ha, hcode⟩⟩
    · exact ⟨hid, hpos, hle, .inr hwaiting⟩
  code ha hk := by
    obtain ⟨a0, ha, hk, hpc⟩ := hold ha hk
    rw [Block.start, ← hpc]
    exact h.code ha hk
  scrapped hk := by
    refine ⟨(h.scrapped hk).1, fun ha hcode => ?_⟩
    obtain ⟨a0, ha, hcode, -⟩ := hold ha hcode
    exact (h.scrapped hk).2 ha hcode
  placed ha hk := by
    obtain ⟨a0, ha, hk, hpc⟩ := hold ha hk
    rw [Block.start, ← hpc]
    exact h.placed ha hk
  nodup := h.nodup
  entry hl := by
    obtain ⟨owner, a0, k, hcurrent, hn, hmem, hindex, hoffset⟩ := h.entry hl
    obtain ⟨a, ha, hcode, hpc, hcount, hwords⟩ := hnew hcurrent.get hcurrent.code
    have hstart : a0.start = a.start := by rw [Block.start, Block.start, hpc]
    refine ⟨owner, a, k, ⟨ha, hcode, hstart ▸ hcurrent.held⟩, hn, hmem, hstart ▸ hindex, ?_⟩
    rcases hoffset with hzero | ⟨hlt, hsuits⟩
    · exact .inl hzero
    · exact .inr ⟨hcount ▸ hlt, hsuits.same hpc hwords⟩

/-- Another block under the same number, with the same instructions and the same code. -/
theorem withBlock (b' : Block) (hget : c.blocks id = some b) (hpc : b'.pc = b.pc)
    (hopCount : b'.opCount = b.opCount) (hwords : b'.words = b.words) (hcode : b'.code = b.code) :
    Linked R (c.withBlock id (some b')) := by
  refine h.withBlocks _ ?_ ?_
  · intro n a k ha hk
    rcases update_eq_some ha with ⟨heq, rfl⟩ | ha
    · cases heq
      exact ⟨b, hget, hcode ▸ hk, hpc.symm⟩
    · exact ⟨a, ha, hk, rfl⟩
  · intro n a0 k ha hk
    by_cases hn : n = id
    · subst hn
      cases hget.symm.trans ha
      exact ⟨b', Function.update_self .., hcode.trans hk, hpc, hopCount, hwords⟩
    · exact ⟨a0, (Function.update_of_ne hn _ _).trans ha, hk, rfl, rfl, rfl⟩

/-- A new block has no code. -/
theorem withNewBlock (hs : c.Sound R) (hcode : b.code = none) : Linked R (c.withNewBlock b) := by
  refine (h.withBlocks (Function.update c.blocks c.nextBlock (some b)) ?_ ?_).lose
    rfl rfl rfl rfl rfl rfl (.refl _) fun hl => hl
  · intro n a k ha hk
    rcases update_eq_some ha with ⟨heq, -⟩ | ha
    · cases heq
      cases hcode.symm.trans hk
    · exact ⟨a, ha, hk, rfl⟩
  · intro n a k ha hk
    exact ⟨a, (Function.update_of_ne (Nat.ne_of_lt (hs.block ha).2) _ _).trans ha, hk, rfl, rfl, rfl⟩

/-- More lines in the cache. -/
theorem withLine (hc : c.cache.WellFormed) (line : CacheLine) :
    Linked R { c with cache := c.cache.insert line } where
  next := h.next
  registered := h.registered
  code := h.code
  scrapped := h.scrapped
  placed hget hk := (h.placed hget hk).imp_left fun hl => (BlockCache.holds_insert hc).mpr (.inr hl)
  nodup := h.nodup
  entry hl := by
    obtain ⟨owner, a, k, hcurrent, hrest⟩ := h.entry hl
    exact ⟨owner, a, k, ⟨hcurrent.get, hcurrent.code,
      (BlockCache.holds_insert hc).mpr (.inr hcurrent.held)⟩, hrest⟩

/-- A block less that has no code. -/
theorem withoutBlock (hcode : ∀ {b}, c.blocks id = some b → b.code = none) :
    Linked R (c.withBlock id none) := by
  refine h.withBlocks _ ?_ ?_
  · intro n a k ha hk
    rcases update_eq_some ha with ⟨heq, -⟩ | ha
    · cases heq
    · exact ⟨a, ha, hk, rfl⟩
  · intro n a k ha hk
    have hn : n ≠ id := by
      rintro rfl
      cases (hcode ha).symm.trans hk
    exact ⟨a, (Function.update_of_ne hn _ _).trans ha, hk, rfl, rfl, rfl⟩

/-- A block that no entry leads into leaves the cache and waits to be reclaimed. -/
theorem withoutLine (hs : c.Sound R) (hheld : c.cache.Holds ⟨b.start, id⟩)
    (hnone : ∀ {slot n offset}, c.machine.entries.load slot = .code n offset →
      ∀ {a k}, c.Current id a k → k.id ≠ n) :
    Linked R { c with
      cache := c.cache.erase ⟨b.start, id⟩
      waiting := c.waiting ++ [.block id] } where
  next := h.next
  registered hk := by
    obtain ⟨hid, hpos, hle, howned⟩ := h.registered hk
    exact ⟨hid, hpos, hle, howned.imp_right (List.mem_append_left _)⟩
  code := h.code
  scrapped hk := by
    rcases List.mem_append.mp hk with hk | hk
    · exact h.scrapped hk
    · cases List.mem_singleton.mp hk
  placed {n a k} ha hk := by
    by_cases hn : n = id
    · subst hn
      exact .inr (List.mem_append_right _ List.mem_cons_self)
    · refine (h.placed ha hk).imp (fun hl => ?_) fun hl => List.mem_append_left _ hl
      exact (BlockCache.holds_erase hs.cache hheld).mpr ⟨hl, fun heq => hn (congrArg CacheLine.block heq)⟩
  nodup := by
    rw [List.nodup_append]
    refine ⟨h.nodup, List.pairwise_singleton _ _, ?_⟩
    rintro d hd _ hid rfl
    cases List.mem_singleton.mp hid
    exact (hs.waiting hd).1 hheld rfl
  entry hl := by
    obtain ⟨owner, a, k, hcurrent, hn, hrest⟩ := h.entry hl
    refine ⟨owner, a, k, ⟨hcurrent.get, hcurrent.code, ?_⟩, hn, hrest⟩
    refine (BlockCache.holds_erase hs.cache hheld).mpr ⟨hcurrent.held, fun heq => ?_⟩
    -- an entry into its code would be one too many
    cases show owner = id from congrArg CacheLine.block heq
    exact hnone hl hcurrent hn

/-- A cached block is killed. -/
theorem killed (hs : c.Sound R) (hget : c.blocks id = some b)
    (hheld : c.cache.Holds ⟨b.start, id⟩) :
    Linked R (c.killed id b) := by
  have hshape := c.cache.sameShape_unregister c.machine.entries id b
  have hlost : ∀ {slot n offset},
      (c.cache.unregister c.machine.entries id b).2.load slot = .code n offset →
      c.machine.entries.load slot = .code n offset ∧
        ∀ {k}, b.code = some k → ¬ (n = k.id ∧ slot ∈ k.slots) :=
    BlockCache.load_of_load_unregister
  have hentries : Linked R (c.withEntries (c.cache.unregister c.machine.entries id b).2) :=
    h.lose rfl rfl rfl rfl rfl rfl hshape fun hl => (hlost hl).1
  have hline := hentries.withoutLine (hs.congr rfl rfl rfl rfl rfl rfl rfl hshape) hheld ?_
  · exact (hline.withBlock (b.setFlags { isDead := true }) hget rfl rfl rfl rfl).lose
      rfl rfl rfl rfl rfl rfl (.refl _) fun hl => hl
  · -- entries into its code have just been cleared
    intro slot n offset hl a k hcurrent
    cases hget.symm.trans hcurrent.get
    obtain ⟨hl, hnot⟩ := hlost hl
    exact h.ne_of_not_mem hget hcurrent.code hl (hnot hcurrent.code)

/-! ## Code comes and goes -/

/-- Other things wait, but no other code, and still all blocks outside of the cache that have code. -/
theorem withWaiting (waiting : List Discarded) (hnodup : waiting.Nodup)
    (hcode : ∀ {k}, .code k ∈ waiting ↔ .code k ∈ c.waiting)
    (hblock : ∀ {id b k}, c.blocks id = some b →
      b.code = some k → .block id ∈ c.waiting → .block id ∈ waiting) :
    Linked R { c with waiting } where
  next := h.next
  registered hk := by
    obtain ⟨hid, hpos, hle, howned⟩ := h.registered hk
    exact ⟨hid, hpos, hle, howned.imp_right hcode.mpr⟩
  code := h.code
  scrapped hk := h.scrapped (hcode.mp hk)
  placed hget hk := (h.placed hget hk).imp_right (hblock hget hk)
  nodup := hnodup
  entry hl := (h.entry hl).same rfl rfl (.refl _)

/-- The order in which things wait does not matter. -/
theorem perm (waiting : List Discarded) (hperm : waiting.Perm c.waiting) :
    Linked R { c with waiting } :=
  h.withWaiting waiting (hperm.nodup_iff.mpr h.nodup) hperm.mem_iff fun _ _ => hperm.mem_iff.mpr

variable {rest : List Discarded}

/-- A block that has no code need not wait. -/
theorem unwait (hwaiting : c.waiting = .block id :: rest)
    (hcode : ∀ {b}, c.blocks id = some b → b.code = none) :
    Linked R { c with waiting := rest } := by
  refine h.withWaiting rest (List.nodup_cons.mp (hwaiting ▸ h.nodup)).2 ?_ fun hget hk hwait => ?_
  · simp [hwaiting]
  · rw [hwaiting] at hwait
    rcases List.mem_cons.mp hwait with heq | hmem
    · cases heq
      cases (hcode hget).symm.trans hk
    · exact hmem

/-- Code that waits to be reclaimed is forgotten. -/
theorem scrap
    (hwaiting : c.waiting = .code k :: rest) : Linked R { c.forgot k with waiting := rest } := by
  have hmem : ∀ {d}, d ∈ rest → d ∈ c.waiting := by
    intro d hd
    rw [hwaiting]
    exact List.mem_cons_of_mem _ hd
  have hrest : ∀ {d}, d ∈ c.waiting → d ≠ .code k → d ∈ rest := by
    intro d hd hne
    rw [hwaiting] at hd
    exact (List.mem_cons.mp hd).resolve_left hne
  have hnot : Discarded.code k ∉ rest := (List.nodup_cons.mp (hwaiting ▸ h.nodup)).1
  have hshape := EntryTable.sameShape_retire c.machine.entries k.id k.slots
  obtain ⟨hcode, hfree⟩ := h.scrapped (hwaiting ▸ List.mem_cons_self)
  -- All code but `k` stays registered.
  have hother : ∀ {k'}, c.codes.get? k'.id.toNat = some k' → k' ≠ k →
      (c.codes.erase k.id.toNat).get? k'.id.toNat = some k' := by
    intro k' hk' hne
    rw [Registry.get?_erase, if_neg]
    · exact hk'
    · intro heq
      rw [heq] at hk'
      exact hne (Option.some.inj (hk'.symm.trans hcode))
  exact {
    next := h.next
    registered := by
      intro n k' hk'
      replace hk' : (c.codes.erase k.id.toNat).get? n = some k' := hk'
      rw [Registry.get?_erase] at hk'
      split at hk'
      · cases hk'
      · rename_i hn
        obtain ⟨hid, hpos, hle, hblock | hwait⟩ := h.registered hk'
        · exact ⟨hid, hpos, hle, .inl hblock⟩
        · refine ⟨hid, hpos, hle, .inr (hrest hwait ?_)⟩
          rintro heq
          cases heq
          exact hn hid.symm
    code := by
      intro id b k' hget hk'
      obtain ⟨hreg, howner, hslot⟩ := h.code hget hk'
      refine ⟨hother hreg ?_, howner, fun hs => hslot ((hshape.index? _).symm.trans hs)⟩
      rintro rfl
      exact hfree hget hk'
    scrapped := by
      intro k' hk'
      obtain ⟨hreg, hfree'⟩ := h.scrapped (hmem hk')
      refine ⟨hother hreg ?_, hfree'⟩
      rintro rfl
      exact hnot hk'
    placed := fun hget hk' => (h.placed hget hk').imp_right fun hwait => hrest hwait (by simp)
    nodup := (List.nodup_cons.mp (hwaiting ▸ h.nodup)).2
    entry := fun hl => (h.entry (EntryTable.load_of_load_retire hl).1).same rfl rfl hshape }

/-- The code of a block that no entry leads into is taken from it and waits to be reclaimed. -/
theorem detach (hget : c.blocks id = some b) (hcode : b.code = some k)
    (hnone : ∀ {slot n offset}, c.machine.entries.load slot = .code n offset →
      ∀ {a k}, c.Current id a k → k.id ≠ n) :
    Linked R { c.withBlock id (some { b with code := none }) with
      waiting := .code k :: c.waiting } := by
  -- The block itself has no code any more, so those that have code were there before.
  have hold : ∀ {n a k'}, Function.update c.blocks id (some { b with code := none }) n = some a →
      a.code = some k' → n ≠ id ∧ c.blocks n = some a := by
    intro n a k' ha hk'
    by_cases hn : n = id
    · subst hn
      cases (Function.update_self ..).symm.trans ha
      cases hk'
    · exact ⟨hn, (Function.update_of_ne hn _ _).symm.trans ha⟩
  have hnew : ∀ {n a}, n ≠ id → c.blocks n = some a →
      Function.update c.blocks id (some { b with code := none }) n = some a :=
    fun hn ha => (Function.update_of_ne hn _ _).trans ha
  have hreg := (h.code hget hcode).1
  exact {
    next := h.next
    registered := by
      intro n k' hk'
      obtain ⟨hid, hpos, hle, ⟨m, a, ha, hk''⟩ | hwait⟩ := h.registered hk'
      · refine ⟨hid, hpos, hle, ?_⟩
        by_cases hm : m = id
        · subst hm
          cases hget.symm.trans ha
          cases hcode.symm.trans hk''
          exact .inr List.mem_cons_self
        · exact .inl ⟨m, a, hnew hm ha, hk''⟩
      · exact ⟨hid, hpos, hle, .inr (List.mem_cons_of_mem _ hwait)⟩
    code := fun ha hk' => h.code (hold ha hk').2 hk'
    scrapped := by
      intro k' hk'
      rcases List.mem_cons.mp hk' with heq | hmem
      · cases heq
        refine ⟨hreg, ?_⟩
        intro n a ha hka
        obtain ⟨hn, ha⟩ := hold ha hka
        exact hn (h.code_unique ha hka hget hcode rfl).1
      · exact ⟨(h.scrapped hmem).1, fun ha hka => (h.scrapped hmem).2 (hold ha hka).2 hka⟩
    placed := fun ha hk' => (h.placed (hold ha hk').2 hk').imp_right (List.mem_cons_of_mem _)
    nodup := List.nodup_cons.mpr ⟨fun hmem => (h.scrapped hmem).2 hget hcode, h.nodup⟩
    entry := by
      intro slot n offset hl
      obtain ⟨owner, a, k', hcurrent, hn, hrest⟩ := h.entry hl
      have hne : owner ≠ id := by
        rintro rfl
        exact hnone hl hcurrent hn
      exact ⟨owner, a, k', ⟨hnew hne hcurrent.get, hcurrent.code, hcurrent.held⟩, hn, hrest⟩ }

/-- A block that waits to be reclaimed is forgotten, and its code with it. -/
theorem buried (hs : c.Sound R) (hwaiting : c.waiting = .block id :: rest)
    (hget : c.blocks id = some b) :
    Linked R { (c.forgot? b.code).withBlock id none with waiting := rest } := by
  have huncached : c.Uncached id := (hs.waiting (hwaiting ▸ List.mem_cons_self)).1
  cases hcode : b.code with
  | none =>
    have hnone : ∀ {a}, c.blocks id = some a → a.code = none := by
      intro a ha
      cases hget.symm.trans ha
      exact hcode
    exact (h.unwait hwaiting hnone).withoutBlock hnone
  | some k =>
    have hdetached := h.detach hget hcode (by
      intro _ _ _ _ a k' hcurrent
      exact absurd rfl (huncached hcurrent.held))
    have hself : ∀ {a}, Function.update c.blocks id (some { b with code := none }) id = some a →
        a.code = none := by
      intro a ha
      cases (Function.update_self ..).symm.trans ha
      rfl
    have hscrapped := ((hdetached.perm (.block id :: .code k :: rest)
      (hwaiting ▸ List.Perm.swap _ _ _)).unwait rfl hself).scrap rfl
    refine (hscrapped.withoutBlock hself).lose ?_ rfl rfl rfl rfl rfl (.refl _) fun hl => hl
    exact (Function.update_idem _ _ _).symm

/-- A block without code gets the next piece of code that is made. -/
theorem attach (hmade : c.made + 1 < 2 ^ 32) {t : EntryTable} (g : γ) (hget : c.blocks id = some b)
    (hcode : b.code = none) (hheld : c.cache.Holds ⟨b.start, id⟩) (hnumber : k.id = c.nextCode)
    (hblock : k.block = some id)
    (hslot : ∀ {slot}, c.machine.entries.index? b.start = some slot → slot ∈ k.slots)
    (hshape : c.machine.entries.SameShape t)
    (hentry : ∀ {slot n offset}, t.load slot = .code n offset →
      c.Enters R slot n offset ∨ (n = k.id ∧ slot ∈ k.slots ∧
        c.machine.entries.index? (b.start + offset.toUInt32 * 4) = some slot ∧
        (offset = 0 ∨ offset < b.opCount ∧ b.Suits R k.program [offset]))) :
    Linked R (((c.withCode k g).withEntries t).withBlock id (some { b with code := some k })) := by
  have hnext : k.id.toNat = c.made + 1 := hnumber ▸ (h.next_free hmade).1
  -- Blocks with code are the new one and those from before: the block itself had none.
  have hold : ∀ {n a k'}, Function.update c.blocks id (some { b with code := some k }) n = some a →
      a.code = some k' → (n = id ∧ a = { b with code := some k } ∧ k' = k) ∨
        (n ≠ id ∧ c.blocks n = some a) := by
    intro n a k' ha hk'
    by_cases hn : n = id
    · subst hn
      cases (Function.update_self ..).symm.trans ha
      cases hk'
      exact .inl ⟨rfl, rfl, rfl⟩
    · exact .inr ⟨hn, (Function.update_of_ne hn _ _).symm.trans ha⟩
  have hnew : ∀ {n a k'}, c.blocks n = some a → a.code = some k' →
      Function.update c.blocks id (some { b with code := some k }) n = some a := by
    intro n a k' ha hk'
    have hn : n ≠ id := by
      rintro rfl
      cases hget.symm.trans ha
      cases hcode.symm.trans hk'
    exact (Function.update_of_ne hn _ _).trans ha
  exact {
    next := h.next_succ
    registered := by
      intro n k' hk'
      replace hk' : (c.codes.insert k.id.toNat k).get? n = some k' := hk'
      rw [Registry.get?_insert] at hk'
      split at hk'
      · rename_i hn
        cases hk'
        refine ⟨hn.symm, by omega, ?_, .inl ⟨id, _, Function.update_self .., rfl⟩⟩
        show n ≤ c.made + 1
        omega
      · obtain ⟨hid, hpos, hle, ⟨m, a, ha, hk''⟩ | hwait⟩ := h.registered hk'
        · exact ⟨hid, hpos, Nat.le_succ_of_le hle, .inl ⟨m, a, hnew ha hk'', hk''⟩⟩
        · exact ⟨hid, hpos, Nat.le_succ_of_le hle, .inr hwait⟩
    code := by
      intro n a k' ha hk'
      rcases hold ha hk' with ⟨rfl, rfl, rfl⟩ | ⟨-, ha⟩
      · exact ⟨Registry.get?_insert_self _ _ _, hblock, fun hs => hslot ((hshape.index? _).symm.trans hs)⟩
      · obtain ⟨hreg, howner, hs⟩ := h.code ha hk'
        exact ⟨(h.get?_insert_next hmade hnumber hreg).1, howner,
          fun h => hs ((hshape.index? _).symm.trans h)⟩
    scrapped := by
      intro k' hk'
      obtain ⟨hreg, hnot⟩ := h.scrapped hk'
      refine ⟨(h.get?_insert_next hmade hnumber hreg).1, ?_⟩
      intro n a ha hka
      rcases hold ha hka with ⟨-, -, heq⟩ | ⟨-, ha⟩
      · exact (h.get?_insert_next hmade hnumber hreg).2 heq
      · exact hnot ha hka
    placed := by
      intro n a k' ha hk'
      rcases hold ha hk' with ⟨rfl, rfl, -⟩ | ⟨-, ha⟩
      · exact .inl hheld
      · exact h.placed ha hk'
    nodup := h.nodup
    entry := by
      intro slot n offset hl
      rcases hentry hl with ⟨owner, a, k', hcurrent, hn, hmem, hindex, hoffset⟩ |
        ⟨hn, hmem, hindex, hoffset⟩
      · exact ⟨owner, a, k', ⟨hnew hcurrent.get hcurrent.code, hcurrent.code, hcurrent.held⟩, hn, hmem,
          (hshape.index? _).trans hindex, hoffset⟩
      · refine ⟨id, { b with code := some k }, k, ⟨Function.update_self .., rfl, hheld⟩, hn.symm, hmem,
          (hshape.index? _).trans hindex, hoffset.imp_right ?_⟩
        rintro ⟨hlt, hsuits⟩
        exact ⟨hlt, hsuits.same rfl rfl⟩ }

/-- The next piece of code that is made is given up at once. -/
theorem abandoned (hmade : c.made + 1 < 2 ^ 32) {t : EntryTable} (g : γ)
    (hnumber : k.id = c.nextCode) (hshape : c.machine.entries.SameShape t)
    (hload : ∀ {slot n offset}, t.load slot = .code n offset →
      c.machine.entries.load slot = .code n offset) :
    Linked R { (c.withCode k g).withEntries t with waiting := c.waiting ++ [.code k] } := by
  have hnext : k.id.toNat = c.made + 1 := hnumber ▸ (h.next_free hmade).1
  -- The number is new, and so is the code.
  have hfresh : ∀ {k'}, c.codes.get? k'.id.toNat = some k' → k' ≠ k :=
    fun hk' => (h.get?_insert_next hmade hnumber hk').2
  exact {
    next := h.next_succ
    registered := by
      intro n k' hk'
      replace hk' : (c.codes.insert k.id.toNat k).get? n = some k' := hk'
      rw [Registry.get?_insert] at hk'
      split at hk'
      · rename_i hn
        cases hk'
        refine ⟨hn.symm, by omega, ?_, .inr (List.mem_append_right _ List.mem_cons_self)⟩
        show n ≤ c.made + 1
        omega
      · obtain ⟨hid, hpos, hle, howned⟩ := h.registered hk'
        exact ⟨hid, hpos, Nat.le_succ_of_le hle, howned.imp_right (List.mem_append_left _)⟩
    code := by
      intro n a k' ha hk'
      obtain ⟨hreg, howner, hs⟩ := h.code ha hk'
      exact ⟨(h.get?_insert_next hmade hnumber hreg).1, howner,
        fun h => hs ((hshape.index? _).symm.trans h)⟩
    scrapped := by
      intro k' hk'
      rcases List.mem_append.mp hk' with hk' | hk'
      · obtain ⟨hreg, hnot⟩ := h.scrapped hk'
        exact ⟨(h.get?_insert_next hmade hnumber hreg).1, hnot⟩
      · cases List.mem_singleton.mp hk'
        exact ⟨Registry.get?_insert_self _ _ _, fun ha hka => hfresh (h.code ha hka).1 rfl⟩
    placed := fun ha hk' => (h.placed ha hk').imp_right (List.mem_append_left _)
    nodup := by
      rw [List.nodup_append]
      refine ⟨h.nodup, List.pairwise_singleton _ _, ?_⟩
      rintro d hd _ hk rfl
      cases List.mem_singleton.mp hk
      exact hfresh (h.scrapped hd).1 rfl
    entry := fun hl => (h.entry (hload hl)).same rfl rfl hshape }

end Linked

/-! ## Every step -/

variable [Generator γ]

/-- Where new entries were written they lead into the new code and span the rest of the block; all
others are as they were. No span got shorter. -/
theorem Publishes.entered_cases {offsets : List Nat} {start : Nat} {t : EntryTable} {g : γ}
    (h : c.Publishes R id b k offsets start t g) :
    start ∈ k.slots ∧ ∀ slot, c.machine.entries.spans.getD slot 0 ≤ t.spans.getD slot 0 ∧
      (t.load slot = c.machine.entries.load slot ∨ slot ∈ k.slots ∧ ∃ o ∈ offsets,
        c.machine.entries.index? (b.start + o.toUInt32 * 4) = some slot ∧
        t.load slot = .code k.id o ∧ (slot < c.machine.entries.spans.size →
          min (b.opCount - o) 65535 ≤ t.spans.getD slot 0)) := by
  -- By the entries that are written; of two in the same slot the later one is there.
  have hinduction := Block.enter_induction b k.id offsets
    (s := (c.machine.entries, #[start]))
    (P := fun s => c.machine.entries.SameShape s.1 ∧ start ∈ s.2 ∧
      ∀ slot, c.machine.entries.spans.getD slot 0 ≤ s.1.spans.getD slot 0 ∧
        (s.1.load slot = c.machine.entries.load slot ∨ slot ∈ s.2 ∧ ∃ o ∈ offsets,
          c.machine.entries.index? (b.start + o.toUInt32 * 4) = some slot ∧
          s.1.load slot = .code k.id o ∧ (slot < c.machine.entries.spans.size →
            min (b.opCount - o) 65535 ≤ s.1.spans.getD slot 0)))
    ⟨.refl _, by simp, fun _ => ⟨Nat.le_refl _, .inl rfl⟩⟩ ?_
  · rw [h.entered] at hinduction
    exact hinduction.2
  · rintro ⟨t', slots⟩ o place ho ⟨hshape, hstart, hcases⟩ hplace
    refine ⟨hshape.trans ((EntryTable.sameShape_store _ _ _).trans
      (EntryTable.sameShape_noteSpan _ _ _ _)), Array.mem_push_of_mem _ hstart, fun slot => ?_⟩
    obtain ⟨hle, hslot⟩ := hcases slot
    have hspan := (t'.store place (.code k.id o)).getD_spans_noteSpan place (b.opCount - o) false slot
    rw [if_neg Bool.false_ne_true] at hspan
    -- a span that is noted for another entry into the same code may only grow
    have hraised : t'.spans.getD slot 0 ≤ ((t'.store place (.code k.id o)).noteSpan place
        (b.opCount - o) false).spans.getD slot 0 := by
      rw [hspan]
      split
      · exact Nat.le_max_left _ _
      · exact Nat.le_refl _
    refine ⟨Nat.le_trans hle hraised, ?_⟩
    rw [EntryTable.load_noteSpan]
    rcases t'.load_store_cases place slot (.code k.id o) with ⟨rfl, hnew⟩ | hsame
    · refine .inr ⟨Array.mem_push_self, o, ho, (hshape.index? _).symm.trans hplace, hnew, fun hlt => ?_⟩
      rw [hspan, if_pos ⟨rfl, hshape.spans.symm ▸ hlt⟩]
      exact Nat.le_max_right _ _
    · rw [hsame]
      refine hslot.imp_right ?_
      rintro ⟨hmem, o', ho', hindex, hload, hle'⟩
      exact ⟨Array.mem_push_of_mem _ hmem, o', ho', hindex, hload,
        fun hlt => Nat.le_trans (hle' hlt) hraised⟩

theorem Publishes.linked {offsets : List Nat} {start : Nat} {t : EntryTable} {g : γ}
    (hp : c.Publishes R id b k offsets start t g) (h : Linked R c) (hmade : c.made + 1 < 2 ^ 32) :
    Linked R { ((c.withCode k g).withEntries
        ((t.store start (.code k.id 0)).giveUp b.code)).withBlock id (some { b with code := some k }) with
      waiting := c.waiting ++ (b.code.map Discarded.code).toList } := by
  obtain ⟨hstart, hcases⟩ := hp.entered_cases
  have hget := hp.enlisted.1
  have hsuits : ∀ {o}, o ∈ offsets → o < b.opCount ∧ b.Suits R k.program [o] := by
    intro o ho
    obtain ⟨source, targets, hsource, hmakes, hoffsets⟩ := hp.suits
    refine ⟨(hp.inside o ho).2, source, targets, hsource, hmakes, ?_⟩
    intro o' ho'
    cases List.mem_singleton.mp ho'
    exact hoffsets o ho
  have hslot : ∀ {slot}, c.machine.entries.index? b.start = some slot → slot ∈ k.slots := by
    intro slot hs
    cases hp.enlisted.2.symm.trans hs
    exact hstart
  -- the table before the code of the block is given up
  have hstored : ∀ {slot n offset}, (t.store start (.code k.id 0)).load slot = .code n offset →
      c.machine.entries.load slot = .code n offset ∨ (n = k.id ∧ slot ∈ k.slots ∧
        c.machine.entries.index? (b.start + offset.toUInt32 * 4) = some slot ∧
        (offset = 0 ∨ offset < b.opCount ∧ b.Suits R k.program [offset])) := by
    intro slot n offset hl
    rcases t.load_store_cases start slot (.code k.id 0) with ⟨rfl, hnew⟩ | hsame
    · cases hl.symm.trans hnew
      refine .inr ⟨rfl, hstart, ?_, .inl rfl⟩
      rw [show b.start + Nat.toUInt32 0 * 4 = b.start from UInt32.add_zero _]
      exact hp.enlisted.2
    · replace hl := hsame.symm.trans hl
      rcases (hcases slot).2 with hold | ⟨hmem, o, ho, hindex, hnew, -⟩
      · exact .inl (hold.symm.trans hl)
      · cases hl.symm.trans hnew
        exact .inr ⟨rfl, hmem, hindex, .inr (hsuits ho)⟩
  have hshape : c.machine.entries.SameShape (t.store start (.code k.id 0)) :=
    hp.sameShape.trans (EntryTable.sameShape_store _ _ _)
  -- New code in the place of old code: the old one is given up first.
  cases hcode : b.code with
  | none =>
    have hattached := h.attach hmade g hget hcode hp.held hp.number hp.block hslot hshape
      fun hl => (hstored hl).imp_left h.entry
    exact hattached.perm _ (by rw [Option.map_none, Option.toList_none, List.append_nil]; exact .refl _)
  | some old =>
    have hretired := EntryTable.sameShape_retire c.machine.entries old.id old.slots
    have hless : Linked R (c.withEntries (c.machine.entries.retire old.id old.slots)) :=
      h.lose rfl rfl rfl rfl rfl rfl hretired fun hl => (EntryTable.load_of_load_retire hl).1
    have hdetached := hless.detach hget hcode (by
      intro slot n offset hl a k' hcurrent
      cases hget.symm.trans hcurrent.get
      cases hcode.symm.trans hcurrent.code
      obtain ⟨hl, hnot⟩ := EntryTable.load_of_load_retire hl
      exact h.ne_of_not_mem hget hcode hl hnot)
    have hattached := hdetached.attach (b := { b with code := none }) hmade g
      (Function.update_self ..) rfl hp.held hp.number hp.block
      (fun hs => hslot ((hretired.index? _).symm.trans hs))
      (t := (t.store start (.code k.id 0)).retire old.id old.slots) ?_ ?_
    · have hwaiting := hattached.perm (c.waiting ++ [.code old]) List.perm_append_comm
      have hblocks := (Function.update_idem (a := id) (some { b with code := none })
        (some { b with code := some k }) c.blocks).symm
      exact hwaiting.lose hblocks rfl rfl rfl rfl rfl (.refl _) fun hl => hl
    · exact hretired.symm.trans (hshape.trans (EntryTable.sameShape_retire _ _ _))
    · intro slot n offset hl
      obtain ⟨hl, hnot⟩ := EntryTable.load_of_load_retire hl
      rcases hstored hl with hold | ⟨hn, hmem, hindex, hoffset⟩
      · obtain ⟨owner, a, k', hcurrent, hn, hmem, hindex, hoffset⟩ := h.entry hold
        -- an entry that is left leads into other code than the one that was given up
        have hne : owner ≠ id := by
          rintro rfl
          cases hget.symm.trans hcurrent.get
          cases hcode.symm.trans hcurrent.code
          exact h.ne_of_not_mem hget hcode hold hnot hn
        exact .inl ⟨owner, a, k', ⟨(Function.update_of_ne hne _ _).trans hcurrent.get, hcurrent.code,
          hcurrent.held⟩, hn, hmem, (hretired.index? _).trans hindex, hoffset⟩
      · refine .inr ⟨hn, hmem, (hretired.index? _).trans hindex, hoffset.imp_right ?_⟩
        rintro ⟨hlt, hsuits⟩
        exact ⟨hlt, hsuits.same rfl rfl⟩

/-- The numbers of pieces of code made and of blocks put back never fall. -/
theorem Step.counts_le (h : Step R c c') : c.made ≤ c'.made ∧ c.tally.reused ≤ c'.tally.reused := by
  cases h with
  | publish | abandon => exact ⟨Nat.le_succ _, Nat.le_refl _⟩
  | republish => exact ⟨Nat.le_refl _, Nat.le_succ _⟩
  | @bury id b => cases b.code <;> exact ⟨Nat.le_refl _, Nat.le_refl _⟩
  | _ => exact ⟨Nat.le_refl _, Nat.le_refl _⟩

/-- Steps keep entries, code and blocks together. -/
theorem Step.linked (hstep : Step R c c') (hs : c.Sound R) (h : c.made < 2 ^ 32 → Linked R c)
    (hmade : c'.made < 2 ^ 32) : Linked R c' := by
  have hshape := hstep.sameShape
  replace h := h (Nat.lt_of_le_of_lt hstep.counts_le.1 hmade)
  cases hstep with
  | log | miss | charge | touch | release =>
    -- nothing that is looked at here changes
    exact h.lose rfl rfl rfl rfl rfl rfl hshape fun hl => hl
  | retire id slots =>
    exact h.lose rfl rfl rfl rfl rfl rfl hshape fun hl => (EntryTable.load_of_load_retire hl).1
  | demote slot id =>
    refine h.lose rfl rfl rfl rfl rfl rfl hshape ?_
    intro slot' n offset hl
    rcases c.machine.entries.load_compareExchange_cases slot slot' (.code id 0) .pending with
      hsame | ⟨-, -, hnew⟩
    · exact hsame.symm.trans hl
    · cases hl.symm.trans hnew
  | change hget hkeeps => exact h.withBlock _ hget hkeeps.pc hkeeps.opCount hkeeps.words hkeeps.code
  | @enroll pc b slot entry hstart hdecoded hslot hnew hentry =>
    have hcode : b.code = none := (hdecoded.sound hstart hs.maxBlockOps).2.2.1
    refine ((h.withNewBlock hs hcode).withLine hs.cache _).lose rfl rfl rfl rfl rfl rfl hshape ?_
    -- the new entry leads into no code
    intro slot' n offset hl
    rcases (c.machine.entries.noteSpan slot b.opCount true).load_store_cases slot slot' entry with
      ⟨-, hstored⟩ | hsame
    · have hstored := hl.symm.trans hstored
      rcases hentry with rfl | rfl <;> cases hstored
    · exact hsame.symm.trans hl
  | lend hstart hdecoded hslot =>
    have hcode := (hdecoded.sound hstart hs.maxBlockOps).2.2.1
    exact (h.withNewBlock hs hcode).lose rfl rfl rfl rfl rfl rfl hshape fun hl => hl
  | @drop id hslot =>
    refine h.withoutBlock ?_
    intro b hget
    cases hcode : b.code with
    | none => rfl
    | some k =>
      -- a block with code is cached or waits, and has an entry
      exfalso
      rcases h.placed hget hcode with hheld | hwait
      · obtain ⟨a, slot, ⟨ha, hsome⟩, -⟩ := hs.cached hheld
        cases hget.symm.trans ha
        cases (hslot hget).symm.trans hsome
      · obtain ⟨-, a, slot, ha, hsome⟩ := hs.waiting hwait
        cases hget.symm.trans ha
        cases (hslot hget).symm.trans hsome
  | kill hget hheld => exact h.killed hs hget hheld
  | publish hp => exact hp.linked h hmade
  | @abandon id b k offsets start t g hp =>
    refine h.abandoned hmade g hp.number hshape ?_
    intro slot n offset hl
    obtain ⟨hl, hnot⟩ := EntryTable.load_of_load_retire hl
    rcases (hp.entered_cases.2 slot).2 with hold | ⟨hmem, o, -, -, hnew, -⟩
    · exact hold.symm.trans hl
    · cases hl.symm.trans hnew
      exact absurd ⟨rfl, hmem⟩ hnot
  | @republish id b slot entry hreuse henlisted hheld hentry =>
    refine h.withEntries rfl rfl rfl rfl rfl rfl hshape ?_
    intro slot' n offset hl
    rcases (c.machine.entries.noteSpan slot b.opCount true).load_store_cases slot slot' entry with
      ⟨rfl, hstored⟩ | hsame
    · have hstored := hl.symm.trans hstored
      -- the entry waits for code, or leads into the code that the block has
      rcases hentry with rfl | rfl | ⟨k, hcode, rfl⟩
      · cases hstored
      · cases hstored
      · cases hstored
        refine ⟨id, b, k, ⟨henlisted.1, hcode, hheld⟩, rfl, (h.code henlisted.1 hcode).2.2 henlisted.2,
          ?_, .inl rfl⟩
        rw [show b.start + Nat.toUInt32 0 * 4 = b.start from UInt32.add_zero _]
        exact henlisted.2
    · exact h.entry (hsame.symm.trans hl)
  | scrap hwaiting => exact h.scrap hwaiting
  | bury hwaiting hget =>
    exact (h.buried hs hwaiting hget).lose rfl rfl rfl rfl rfl rfl (.refl _) fun hl => hl

theorem Move.linked {free : Prop} (hmove : Move R free c c') (hs : c.Sound R)
    (h : c.made < 2 ^ 32 → Linked R c) (hmade : c'.made < 2 ^ 32) : Linked R c' := by
  cases hmove with
  | step hstep => exact hstep.linked hs h hmade
  | machine hchange =>
    exact (h hmade).lose rfl rfl rfl rfl rfl rfl hchange.sameShape hchange.load_code

end Core

namespace Engine

variable [Generator γ] [Device δ] [Coprocessor κ] {R : Rules} {e : Engine δ κ γ}

omit [Device δ] [Coprocessor κ] in
theorem linked_create (memory : Memory δ) (cop0 cop2 : κ) (config : Config) (g : γ) (log : Log) :
    (create memory cop0 cop2 config g log : Engine δ κ γ).core.Linked R where
  next := rfl
  registered {n k} h := by
    cases (Registry.get?_empty n).symm.trans h
  code {id b k} h := by
    cases (Registry.get?_empty id).symm.trans h
  scrapped h := by cases h
  placed {id b k} h := by
    cases (Registry.get?_empty id).symm.trans h
  nodup := List.nodup_nil
  entry {slot n offset} h := by
    have hnull : (EntryTable.ofLayout memory.layout config.normalize.maxBlockOps).load slot = .null := by
      unfold EntryTable.ofLayout EntryTable.load
      simp only [Array.getD_eq_getD_getElem?, Array.getElem?_replicate]
      split <;> rfl
    cases hnull.symm.trans h

/-- Entries, code and blocks belong together in all engines there are. -/
theorem Reachable.linked {g : γ} (h : Reachable g e) (hR : R.Admits γ) (hstart : ∀ pc, R.start pc) :
    e.core.Sound R ∧ (e.core.made < 2 ^ 32 → e.core.Linked R) :=
  h.invariant hR hstart (fun memory cop0 cop2 config log _ => linked_create memory cop0 cop2 config g log)
    fun hs hl hmove => hmove.linked hs hl

end Engine

end Dynarec
