/-
  Dynarec.Proofs.Engine.Core

  What an engine is about, and how it can change.

  The core of an engine is all of it but reports, statistics and the background
  compiler. Looking after blocks and code changes it in a few ways, the steps
  below. The steps say once what the operations of the engine can do; every
  invariant of the engine is an invariant of the steps and of what happens to
  the machine. `Sound` is the first of them: blocks, cache, code and what waits
  to be reclaimed belong together.
-/
import Dynarec.Engine.Run
import Dynarec.Proofs.Block
import Dynarec.Proofs.BlockCache
import Dynarec.Proofs.Machine.Changes
import Dynarec.Proofs.Registry

namespace Dynarec

variable {δ κ γ : Type}

/-- What became of blocks, in numbers. -/
structure Tally where
  precompiled : Nat
  uncached : Nat
  /-- Blocks that left the cache. -/
  lost : Nat
  reclaimed : Nat
  /-- Times that a block was published again. -/
  reused : Nat

/-- The counts of an engine that concern blocks. -/
def Counters.tally (c : Counters) : Tally where
  precompiled := c.blocksPrecompiled
  uncached := c.uncachedBlocks
  lost := c.outdatedBlocks + c.deadBlocks
  reclaimed := c.reclaimedBlocks
  reused := c.reusedBlocks

/-- An engine without reports, statistics and background compiler. -/
structure Core (δ κ γ : Type) where
  config : Config
  blocks : BlockId → Option Block
  nextBlock : BlockId
  cache : BlockCache
  codes : Registry CompiledCode
  nextCode : CodeId
  /-- Number of pieces of code made so far. -/
  made : Nat
  budget : CodeBudget (RecencyList CodeId Nat)
  /-- What waits to be reclaimed, in the order of its turn. -/
  waiting : List Discarded
  unreleased : List HostProgram
  generator : γ
  tally : Tally
  /-- Whether there is a background compiler, or was one. -/
  busy : Bool
  machine : Machine δ κ

/-- The core of an engine. -/
def Engine.core (e : Engine δ κ γ) : Core δ κ γ where
  config := e.config
  blocks := e.blocks.get?
  nextBlock := e.nextBlock
  cache := e.cache
  codes := e.codes
  nextCode := e.nextCode
  made := e.health.successes
  budget := e.budget
  waiting := e.reclaimer.deferred ++ e.reclaimer.posted.reverse
  unreleased := e.reclaimer.unreleased
  generator := e.generator
  tally := e.counters.tally
  busy := e.background || e.queue.current.isSome || e.inProgress.isSome
  machine := e.machine

/-- The block that waits to be reclaimed, if it is one. -/
def Discarded.block? : Discarded → Option BlockId
  | .block id => some id
  | .code _ => none

theorem Discarded.mem_filterMap_block? {waiting : List Discarded} {id : BlockId} :
    id ∈ waiting.filterMap Discarded.block? ↔ Discarded.block id ∈ waiting := by
  rw [List.mem_filterMap]
  constructor
  · rintro ⟨d, hd, hid⟩
    cases d with
    | block n =>
      cases hid
      exact hd
    | code k => cases hid
  · intro h
    exact ⟨_, h, rfl⟩

/-- The blocks that wait to be reclaimed. -/
def Core.condemned (c : Core δ κ γ) : List BlockId := c.waiting.filterMap Discarded.block?

/-- What may be relied on: where blocks start, and which programs, with which offsets to enter them
at, are made from which instructions. -/
structure Rules where
  start : UInt32 → Prop
  makes : BlockSource → HostProgram → List Nat → Prop

/-- The generator makes what the rules allow. -/
def Rules.Admits (R : Rules) (γ : Type) [Generator γ] : Prop :=
  ∀ (g : γ) (source : BlockSource) (cache : RegisterCache) {emitted : Emitted},
    (Generator.compile g source cache.reset).result = .ok emitted →
      R.makes source emitted.program emitted.targets

/-- A program that can be entered at these offsets was made from the instructions of a block. -/
def Block.Suits (b : Block) (R : Rules) (p : HostProgram) (offsets : List Nat) : Prop :=
  ∃ source targets, b.IsSource source ∧ R.makes source p targets ∧ ∀ o ∈ offsets, o ∈ targets

/-! ## Soundness -/

/-- A block that has instructions, in the number it says, and code made from them. -/
structure Block.Sound (R : Rules) (b : Block) : Prop where
  start : R.start b.pc
  opCount : b.opCount = b.words.length
  nonempty : 0 < b.words.length
  bounded : b.words.length ≤ 65535
  ops : ∀ {ops : Array Op}, b.ops = some ops → b.IsSource { pc := b.pc, ops }
  code : ∀ {k : CompiledCode}, b.code = some k → b.Suits R k.program []

namespace Core

/-- The block is not in the cache. -/
def Uncached (c : Core δ κ γ) (id : BlockId) : Prop :=
  ∀ {line : CacheLine}, c.cache.Holds line → line.block ≠ id

/-- The block is there and has an entry. -/
def Enlisted (c : Core δ κ γ) (id : BlockId) (b : Block) (slot : Nat) : Prop :=
  c.blocks id = some b ∧ c.machine.entries.index? b.start = some slot

/-- Blocks, cache, code and what waits to be reclaimed belong together. -/
structure Sound (R : Rules) (c : Core δ κ γ) : Prop where
  maxBlockOps : c.config.maxBlockOps ≤ 65534
  idle : c.busy = false
  cache : c.cache.WellFormed
  block : ∀ {id : BlockId} {b : Block}, c.blocks id = some b → b.Sound R ∧ id < c.nextBlock
  cached : ∀ {line : CacheLine}, c.cache.Holds line → ∃ b slot,
    c.Enlisted line.block b slot ∧ b.start = line.start ∧ b.flags.isDead = false
  waiting : ∀ {id : BlockId}, Discarded.block id ∈ c.waiting → c.Uncached id ∧ ∃ b slot,
    c.Enlisted id b slot
  condemned : c.condemned.Nodup
  code : ∀ {n : Nat} {k : CompiledCode} {id : BlockId}, c.codes.get? n = some k →
    k.block = some id → id < c.nextBlock ∧ ∀ {b : Block}, c.blocks id = some b →
      b.Suits R k.program []

/-! ## Steps -/

/-- The block was decoded from memory at `pc`. -/
def Decoded (c : Core δ κ γ) (pc : UInt32) (b : Block) : Prop :=
  ∃ ops flags, Block.decode c.machine.memory pc c.config.maxBlockOps = .ok ops ∧
    b = .ofOps pc (annotate c.machine.memory.layout c.config pc ops).ops flags ∧
    flags.isDead = false

/-- The core with another table of entries. -/
def withEntries (c : Core δ κ γ) (entries : EntryTable) : Core δ κ γ :=
  { c with machine := { c.machine with entries } }

/-- The core with another block, or none, under a number. -/
def withBlock (c : Core δ κ γ) (id : BlockId) (b : Option Block) : Core δ κ γ :=
  { c with blocks := Function.update c.blocks id b }

/-- The core with one more block. -/
def withNewBlock (c : Core δ κ γ) (b : Block) : Core δ κ γ :=
  { c with
    blocks := Function.update c.blocks c.nextBlock (some b)
    nextBlock := c.nextBlock + 1
    tally := { c.tally with precompiled := c.tally.precompiled + 1 } }

/-- The core with a block out of the cache, dead. -/
def unlisted (c : Core δ κ γ) (id : BlockId) (b : Block) : Core δ κ γ :=
  { c.withEntries (c.cache.unregister c.machine.entries id b).2 with
    cache := (c.cache.unregister c.machine.entries id b).1
    blocks := Function.update c.blocks id (some (b.setFlags { isDead := true })) }

/-- The core with a block killed: out of the cache, and waiting to be reclaimed. -/
def killed (c : Core δ κ γ) (id : BlockId) (b : Block) : Core δ κ γ :=
  { c.unlisted id b with
    waiting := c.waiting ++ [.block id]
    tally := { c.tally with lost := c.tally.lost + 1 } }

/-- The core with a piece of code forgotten. -/
def forgot (c : Core δ κ γ) (k : CompiledCode) : Core δ κ γ :=
  { c.withEntries (c.machine.entries.retire k.id k.slots) with
    codes := c.codes.erase k.id.toNat
    budget := (c.budget.remove k.id).2
    unreleased := c.unreleased ++ [k.program] }

/-- The core with the code of a block forgotten, if it has any. -/
def forgot? (c : Core δ κ γ) : Option CompiledCode → Core δ κ γ
  | none => c
  | some k => c.forgot k

end Core

/-- A table and the slots where it leads into code `id`, once the entry at instruction `offset` of
the block does so too. -/
def Block.enter (b : Block) (id : CodeId) (s : EntryTable × Array Nat) (offset : Nat) :
    EntryTable × Array Nat :=
  match s.1.index? (b.start + offset.toUInt32 * 4) with
  | none => s
  | some slot =>
    ((s.1.store slot (.code id offset)).noteSpan slot (b.opCount - offset) false, s.2.push slot)

/-- A table without entries into the code of a block, if it has any. -/
def EntryTable.giveUp (t : EntryTable) : Option CompiledCode → EntryTable
  | none => t
  | some k => t.retire k.id k.slots

namespace Core

variable [Generator γ]

/-- Code `k`, which the generator makes next, is about to be published for the cached block `id`,
which is `b` and has its entry in slot `start`. Its entries at `offsets` lead into it in table `t`
and cover no other block, and `g` is the generator then. -/
structure Publishes (R : Rules) (c : Core δ κ γ) (id : BlockId) (b : Block) (k : CompiledCode)
    (offsets : List Nat) (start : Nat) (t : EntryTable) (g : γ) : Prop where
  enlisted : c.Enlisted id b start
  held : c.cache.Holds ⟨b.start, id⟩
  number : k.id = c.nextCode
  block : k.block = some id
  made : ∃ source cache emitted, (Generator.compile c.generator source cache).result = .ok emitted ∧
    emitted.program = k.program ∧ g = (Generator.compile c.generator source cache).generator
  suits : b.Suits R k.program offsets
  inside : ∀ o ∈ offsets, 0 < o ∧ o < b.opCount
  covered : ∀ o ∈ offsets, ∀ {line : CacheLine}, c.cache.Holds line →
    line.start = physical (b.pc + o.toUInt32 * 4) → line.block = id
  entered : offsets.foldl (b.enter k.id) (c.machine.entries, #[start]) = (t, k.slots)

omit [Generator γ] in
/-- The core with one more piece of code made by the generator, which is `g` then. -/
def withMade (c : Core δ κ γ) (g : γ) : Core δ κ γ :=
  { c with
    generator := g
    nextCode := c.nextCode + 1
    made := c.made + 1 }

omit [Generator γ] in
/-- The core with a new piece of code in its place. -/
def withCode (c : Core δ κ γ) (k : CompiledCode) (g : γ) : Core δ κ γ :=
  { c.withMade g with codes := c.codes.insert k.id.toNat k }

/-- One step of looking after blocks and code. -/
inductive Step (R : Rules) : Core δ κ γ → Core δ κ γ → Prop
  /-- Something is reported. -/
  | log {c : Core δ κ γ} (log : Log) : Step R c { c with machine := { c.machine with log } }
  /-- A block changes but stays the same block. -/
  | change {c : Core δ κ γ} {id : BlockId} {b b' : Block} (hget : c.blocks id = some b)
      (hkeeps : b.Keeps b') : Step R c (c.withBlock id (some b'))
  /-- A new block is decoded, gets an entry and is cached. -/
  | enroll {c : Core δ κ γ} {pc : UInt32} {b : Block} {slot : Nat} {entry : Entry}
      (hstart : R.start pc) (hdecoded : c.Decoded pc b)
      (hslot : c.machine.entries.index? b.start = some slot)
      (hnew : ∀ {line : CacheLine}, c.cache.Holds line → line.start ≠ b.start)
      (hentry : entry = .pending ∨ entry = .memset) :
      Step R c { (c.withNewBlock b).withEntries
          ((c.machine.entries.noteSpan slot b.opCount true).store slot entry) with
        cache := c.cache.insert ⟨b.start, c.nextBlock⟩ }
  /-- A new block without an entry is decoded. -/
  | lend {c : Core δ κ γ} {pc : UInt32} {b : Block} (hstart : R.start pc)
      (hdecoded : c.Decoded pc b) (hslot : c.machine.entries.index? b.start = none) :
      Step R c { c.withNewBlock b with
        tally := { c.tally with
          precompiled := c.tally.precompiled + 1
          uncached := c.tally.uncached + 1 } }
  /-- A block without an entry is forgotten. -/
  | drop {c : Core δ κ γ} {id : BlockId}
      (hslot : ∀ {b : Block}, c.blocks id = some b → c.machine.entries.index? b.start = none) :
      Step R c (c.withBlock id none)
  /-- A block leaves the cache and waits to be reclaimed. -/
  | kill {c : Core δ κ γ} {id : BlockId} {b : Block} (hget : c.blocks id = some b)
      (hheld : c.cache.Holds ⟨b.start, id⟩) : Step R c (c.killed id b)
  /-- The generator makes no code. -/
  | miss {c : Core δ κ γ} {source : BlockSource} {cache : RegisterCache} {error : LoweringError}
      (herror : (Generator.compile c.generator source cache).result = .error error) :
      Step R c { c with generator := (Generator.compile c.generator source cache).generator }
  /-- New code is published; the code that the block had before is given up. -/
  | publish {c : Core δ κ γ} {id : BlockId} {b : Block} {k : CompiledCode} {offsets : List Nat}
      {start : Nat} {t : EntryTable} {g : γ}
      (hpublishes : c.Publishes R id b k offsets start t g) (hload : t.load start ≠ .null) :
      Step R c { ((c.withCode k g).withEntries
          ((t.store start (.code k.id 0)).giveUp b.code)).withBlock id (some { b with code := some k }) with
        waiting := c.waiting ++ (b.code.map Discarded.code).toList }
  /-- The entry of the block was cleared while code was made for it: the code is given up. -/
  | abandon {c : Core δ κ γ} {id : BlockId} {b : Block} {k : CompiledCode} {offsets : List Nat}
      {start : Nat} {t : EntryTable} {g : γ}
      (hpublishes : c.Publishes R id b k offsets start t g) :
      Step R c { (c.withCode k g).withEntries (t.retire k.id k.slots) with
        waiting := c.waiting ++ [.code k] }
  /-- Code counts against the budget. -/
  | charge {c : Core δ κ γ} {k : CompiledCode} (hcode : c.codes.get? k.id.toNat = some k) :
      Step R c { c with budget := (c.budget.insert k.id k.size).2 }
  /-- Code is used. -/
  | touch {c : Core δ κ γ} (id : CodeId) : Step R c { c with budget := c.budget.touch id }
  /-- Entries that lead into a piece of code are cleared. -/
  | retire {c : Core δ κ γ} (id : CodeId) (slots : Array Nat) :
      Step R c (c.withEntries (c.machine.entries.retire id slots))
  /-- An entry that leads to the start of code is sent back to the dispatcher. -/
  | demote {c : Core δ κ γ} (slot : Nat) (id : CodeId) :
      Step R c (c.withEntries (c.machine.entries.compareExchange slot (.code id 0) .pending).2)
  /-- A cached block gets its entry back. -/
  | republish {c : Core δ κ γ} {id : BlockId} {b : Block} {slot : Nat} {entry : Entry}
      (hreuse : c.config.reuseIdenticalBlocks = true) (henlisted : c.Enlisted id b slot)
      (hheld : c.cache.Holds ⟨b.start, id⟩)
      (hentry : entry = .pending ∨ entry = .memset ∨ ∃ k, b.code = some k ∧ entry = .code k.id 0) :
      Step R c { c.withEntries ((c.machine.entries.noteSpan slot b.opCount true).store slot entry) with
        tally := { c.tally with reused := c.tally.reused + 1 } }
  /-- Code whose turn it is is reclaimed. -/
  | scrap {c : Core δ κ γ} {k : CompiledCode} {rest : List Discarded}
      (hwaiting : c.waiting = .code k :: rest) : Step R c { c.forgot k with waiting := rest }
  /-- A block whose turn it is is reclaimed, and its code with it. -/
  | bury {c : Core δ κ γ} {id : BlockId} {b : Block} {rest : List Discarded}
      (hwaiting : c.waiting = .block id :: rest) (hget : c.blocks id = some b) :
      Step R c { (c.forgot? b.code).withBlock id none with
        waiting := rest
        tally := { c.tally with reclaimed := c.tally.reclaimed + 1 } }
  /-- Programs go back to the generator. -/
  | release {c : Core δ κ γ} :
      Step R c { c with
        generator := c.unreleased.foldl Generator.release c.generator
        unreleased := [] }

/-- Steps, one after the other. -/
def Steps (R : Rules) : Core δ κ γ → Core δ κ γ → Prop := Relation.ReflTransGen (Step R)

end Core

/-! ## Blocks stay sound -/

namespace Block

variable {R : Rules} {b b' : Block}

theorem IsSource.same {source : BlockSource} (h : b.IsSource source) (hpc : b'.pc = b.pc)
    (hwords : b'.words = b.words) : b'.IsSource source :=
  ⟨h.pc.trans hpc.symm, h.words.trans hwords.symm, h.faithful, h.impossible⟩

theorem Suits.same {p : HostProgram} {offsets : List Nat} (h : b.Suits R p offsets)
    (hpc : b'.pc = b.pc) (hwords : b'.words = b.words) : b'.Suits R p offsets := by
  obtain ⟨source, targets, hsource, hmakes, hoffsets⟩ := h
  exact ⟨source, targets, hsource.same hpc hwords, hmakes, hoffsets⟩

theorem Suits.nil {p : HostProgram} {offsets : List Nat} (h : b.Suits R p offsets) :
    b.Suits R p [] := by
  obtain ⟨source, targets, hsource, hmakes, -⟩ := h
  exact ⟨source, targets, hsource, hmakes, fun _ h => by cases h⟩

theorem Sound.keeps (h : b.Sound R) (hk : b.Keeps b') : b'.Sound R where
  start := hk.pc ▸ h.start
  opCount := by rw [hk.opCount, hk.words, h.opCount]
  nonempty := hk.words ▸ h.nonempty
  bounded := hk.words ▸ h.bounded
  ops := by
    intro ops' hops'
    obtain ⟨ops, hops, ha⟩ := hk.ops hops'
    have hsource := h.ops hops
    refine ⟨rfl, ?_, ?_, ha.leavesImpossible hsource.impossible⟩
    · rw [hk.words, ← hsource.words]
      exact ha.opWords_eq
    · rw [hk.pc]
      exact ha.faithful hsource.faithful
  code hcode := (h.code (hk.code ▸ hcode)).same hk.pc hk.words

/-- Marking a block or giving it code leaves its instructions alone. -/
theorem Sound.withCode {flags : BlockFlags} {code : Option CompiledCode} (h : b.Sound R)
    (hcode : ∀ {k}, code = some k → b.Suits R k.program []) :
    Block.Sound R { b with flags, code } where
  start := h.start
  opCount := h.opCount
  nonempty := h.nonempty
  bounded := h.bounded
  ops hops := (h.ops hops).same rfl rfl
  code hk := (hcode hk).same rfl rfl

end Block

/-- A decoded block is sound, has no code yet, and consists of words of memory. -/
theorem Core.Decoded.sound {R : Rules} {c : Core δ κ γ} {pc : UInt32} {b : Block}
    (h : c.Decoded pc b) (hstart : R.start pc) (hmost : c.config.maxBlockOps ≤ 65534) :
    b.Sound R ∧ b.pc = pc ∧ b.code = none ∧ b.flags.isDead = false ∧
      b.words.length ≤ max c.config.maxBlockOps 2 + 1 ∧
      ∃ r data, c.machine.memory.Supplies pc b.words r data := by
  obtain ⟨ops, flags, hdecode, rfl, hdead⟩ := h
  obtain ⟨⟨r, data, hsupplies⟩, hsome, hsize, hplain⟩ := Block.supplies_of_decode hdecode
  have ha := annotates_annotate c.machine.memory.layout c.config pc ops
  -- annotations leave the words alone
  have hwords : opWords (annotate c.machine.memory.layout c.config pc ops).ops = opWords ops :=
    ha.opWords_eq
  have hlength : (opWords (annotate c.machine.memory.layout c.config pc ops).ops).length =
      ops.size := by
    rw [hwords, length_opWords]
  have hbound : ops.size ≤ 65535 := by omega
  refine ⟨⟨hstart, ?_, ?_, ?_, ?_, ?_⟩, rfl, rfl, hdead, ?_, r, data, ?_⟩
  · show (annotate c.machine.memory.layout c.config pc ops).ops.size % 65536 = _
    rw [ha.size]
    refine Eq.trans ?_ hlength.symm
    omega
  · exact hlength ▸ hsome
  · exact hlength ▸ hbound
  · intro ops' hops'
    cases hops'
    refine ⟨rfl, rfl,
      ha.faithful (faithful_of_plain hbound ?_ (fun h => h.elim) (fun h => h.elim)),
      ha.leavesImpossible ?_⟩
    · intro o ho
      rw [hplain o ho]
      exact ⟨rfl, rfl⟩
    · intro index o ho hflag
      rw [hplain o (Array.mem_of_getElem? ho)] at hflag
      cases hflag
  · intro k hk
    cases hk
  · exact hlength ▸ hsize
  · show c.machine.memory.Supplies pc
      (opWords (annotate c.machine.memory.layout c.config pc ops).ops) r data
    rw [hwords]
    exact hsupplies

/-! ## Entries of new code -/

namespace Block

/-- What holds of a table and slots and is kept by every new entry holds in the end. -/
theorem enter_induction (b : Block) (id : CodeId) (offsets : List Nat)
    {P : EntryTable × Array Nat → Prop} {s : EntryTable × Array Nat} (h : P s)
    (hstep : ∀ {s o slot}, o ∈ offsets → P s →
      s.1.index? (b.start + o.toUInt32 * 4) = some slot →
      P ((s.1.store slot (.code id o)).noteSpan slot (b.opCount - o) false, s.2.push slot)) :
    P (offsets.foldl (b.enter id) s) := by
  induction offsets generalizing s with
  | nil => exact h
  | cons o offsets ih =>
    rw [List.foldl_cons]
    refine ih ?_ fun hmem => hstep (List.mem_cons_of_mem o hmem)
    unfold enter
    split
    · exact h
    · rename_i slot hslot
      exact hstep List.mem_cons_self h hslot

end Block

namespace EntryTable

theorem sameShape_enter (b : Block) (id : CodeId) (offsets : List Nat)
    (s : EntryTable × Array Nat) : s.1.SameShape (offsets.foldl (b.enter id) s).1 :=
  Block.enter_induction _ _ _ (P := fun s' => s.1.SameShape s'.1) (.refl _) fun _ h _ =>
    h.trans ((sameShape_store _ _ _).trans (sameShape_noteSpan _ _ _ _))

theorem sameShape_giveUp (t : EntryTable) (code : Option CompiledCode) :
    t.SameShape (t.giveUp code) := by
  cases code with
  | none => exact .refl t
  | some k => exact sameShape_retire t k.id k.slots

end EntryTable

namespace Core

variable {R : Rules} {c c' : Core δ κ γ}

/-! ## Soundness of single steps -/

theorem update_eq_some {blocks : BlockId → Option Block} {id n : BlockId} {b : Block}
    {new : Option Block} (h : Function.update blocks id new n = some b) :
    new = some b ∧ n = id ∨ blocks n = some b := by
  by_cases hn : n = id
  · rw [hn, Function.update_self] at h
    exact .inl ⟨h, hn⟩
  · rw [Function.update_of_ne hn] at h
    exact .inr h

namespace Sound

variable (h : Sound R c)
include h

/-- What soundness depends on. -/
theorem congr (hconfig : c'.config = c.config) (hbusy : c'.busy = c.busy)
    (hcache : c'.cache = c.cache) (hblocks : c'.blocks = c.blocks)
    (hnext : c'.nextBlock = c.nextBlock) (hcodes : c'.codes = c.codes)
    (hwaiting : c'.waiting = c.waiting)
    (hshape : c.machine.entries.SameShape c'.machine.entries) : Sound R c' := by
  have henlisted : ∀ {id b slot}, c.Enlisted id b slot → c'.Enlisted id b slot := by
    rintro id b slot ⟨hget, hslot⟩
    exact ⟨hblocks ▸ hget, (hshape.index? _).trans hslot⟩
  exact {
    maxBlockOps := hconfig ▸ h.maxBlockOps
    idle := hbusy ▸ h.idle
    cache := hcache ▸ h.cache
    block := fun hb => hnext ▸ h.block (hblocks ▸ hb)
    cached := by
      intro line hline
      obtain ⟨b, slot, hb, hrest⟩ := h.cached (hcache ▸ hline)
      exact ⟨b, slot, henlisted hb, hrest⟩
    waiting := by
      intro id hid
      obtain ⟨hun, b, slot, hb⟩ := h.waiting (hwaiting ▸ hid)
      exact ⟨fun hline => hun (hcache ▸ hline), b, slot, henlisted hb⟩
    condemned := by
      rw [Core.condemned, hwaiting]
      exact h.condemned
    code := by
      intro n k id hk hid
      obtain ⟨hlt, hfrom⟩ := h.code (hcodes ▸ hk) hid
      exact ⟨hnext ▸ hlt, fun hb => hfrom (hblocks ▸ hb)⟩ }

variable {id : BlockId} {b : Block}

/-- Another block under the same number, as long as it is sound and the same block. Unless it is
cached, it may be dead. -/
theorem withBlock (b' : Block) (hget : c.blocks id = some b) (hpc : b'.pc = b.pc)
    (hwords : b'.words = b.words) (hsound : b'.Sound R)
    (hdead : b.flags.isDead = false → b'.flags.isDead = false ∨ c.Uncached id) :
    Sound R (c.withBlock id (some b')) := by
  have hstart : b'.start = b.start := by rw [Block.start, hpc, Block.start]
  -- Blocks stay where they are.
  have henlisted : ∀ {n a slot}, c.Enlisted n a slot → ∃ a',
      (c.withBlock id (some b')).Enlisted n a' slot ∧
        a'.start = a.start ∧
        (a.flags.isDead = false → a'.flags.isDead = false ∨ c.Uncached n) := by
    rintro n a slot ⟨ha, hslot⟩
    by_cases hn : n = id
    · subst hn
      cases hget.symm.trans ha
      exact ⟨b', ⟨Function.update_self .., by rw [hstart]; exact hslot⟩, hstart, hdead⟩
    · exact ⟨a, ⟨(Function.update_of_ne hn _ _).trans ha, hslot⟩, rfl, .inl⟩
  exact {
    maxBlockOps := h.maxBlockOps
    idle := h.idle
    cache := h.cache
    block := by
      intro n a ha
      rcases update_eq_some ha with ⟨heq, rfl⟩ | ha
      · cases heq
        exact ⟨hsound, (h.block hget).2⟩
      · exact h.block ha
    cached := by
      intro line hline
      obtain ⟨a, slot, ha, hline', halive⟩ := h.cached hline
      obtain ⟨a', ha', hstart', hdead'⟩ := henlisted ha
      refine ⟨a', slot, ha', hstart'.trans hline', ?_⟩
      rcases hdead' halive with hdead' | hun
      · exact hdead'
      · exact absurd rfl (hun hline)
    waiting := by
      intro n hn
      obtain ⟨hun, a, slot, ha⟩ := h.waiting hn
      obtain ⟨a', ha', -⟩ := henlisted ha
      exact ⟨hun, a', slot, ha'⟩
    condemned := h.condemned
    code := by
      intro n k owner hk howner
      obtain ⟨hlt, hfrom⟩ := h.code hk howner
      refine ⟨hlt, ?_⟩
      intro a ha
      rcases update_eq_some ha with ⟨heq, rfl⟩ | ha
      · cases heq
        exact (hfrom hget).same hpc hwords
      · exact hfrom ha }

/-- A new block under the next number. -/
theorem withNewBlock (hsound : b.Sound R) : Sound R (c.withNewBlock b) := by
  -- The number is new.
  have hold : ∀ {n a}, c.blocks n = some a → (c.withNewBlock b).blocks n = some a := by
    intro n a ha
    exact (Function.update_of_ne (Nat.ne_of_lt (h.block ha).2) _ _).trans ha
  exact {
    maxBlockOps := h.maxBlockOps
    idle := h.idle
    cache := h.cache
    block := by
      intro n a ha
      rcases update_eq_some ha with ⟨heq, rfl⟩ | ha
      · cases heq
        exact ⟨hsound, Nat.lt_succ_self _⟩
      · obtain ⟨hs, hlt⟩ := h.block ha
        exact ⟨hs, Nat.lt_succ_of_lt hlt⟩
    cached := by
      intro line hline
      obtain ⟨a, slot, ⟨ha, hslot⟩, hrest⟩ := h.cached hline
      exact ⟨a, slot, ⟨hold ha, hslot⟩, hrest⟩
    waiting := by
      intro n hn
      obtain ⟨hun, a, slot, ha, hslot⟩ := h.waiting hn
      exact ⟨hun, a, slot, hold ha, hslot⟩
    condemned := h.condemned
    code := by
      intro n k owner hk howner
      obtain ⟨hlt, hfrom⟩ := h.code hk howner
      refine ⟨Nat.lt_succ_of_lt hlt, ?_⟩
      intro a ha
      exact hfrom ((Function.update_of_ne (Nat.ne_of_lt hlt) _ _).symm.trans ha) }

/-- Blocks in the cache have been given their number. -/
theorem uncached_nextBlock : c.Uncached c.nextBlock := by
  intro line hline heq
  obtain ⟨b, slot, ⟨hget, -⟩, -⟩ := h.cached hline
  exact Nat.lt_irrefl _ (heq ▸ (h.block hget).2)

/-- A new line in the cache, for a block that is there. -/
theorem withLine {slot : Nat} (henlisted : c.Enlisted id b slot) (halive : b.flags.isDead = false)
    (hnew : ∀ {line}, c.cache.Holds line → line.start ≠ b.start) (huncached : c.Uncached id)
    (hwaiting : Discarded.block id ∉ c.waiting) :
    Sound R { c with cache := c.cache.insert ⟨b.start, id⟩ } where
  maxBlockOps := h.maxBlockOps
  idle := h.idle
  cache := h.cache.insert hnew huncached
  block := h.block
  cached := by
    intro line hline
    rcases (BlockCache.holds_insert h.cache).mp hline with rfl | hold
    · exact ⟨b, slot, henlisted, rfl, halive⟩
    · exact h.cached hold
  waiting := by
    intro n hn
    obtain ⟨hun, hrest⟩ := h.waiting hn
    refine ⟨?_, hrest⟩
    intro line hline
    rcases (BlockCache.holds_insert h.cache).mp hline with rfl | hold
    · rintro rfl
      exact hwaiting hn
    · exact hun hold
  condemned := h.condemned
  code := h.code

/-- A line less in the cache; its block may wait to be reclaimed. -/
theorem withoutLine {line : CacheLine} (hheld : c.cache.Holds line) : Sound R { c with
      cache := c.cache.erase line
      waiting := c.waiting ++ [.block line.block] } where
  maxBlockOps := h.maxBlockOps
  idle := h.idle
  cache := h.cache.erase hheld
  block := h.block
  cached hl := h.cached ((BlockCache.holds_erase h.cache hheld).mp hl).1
  waiting := by
    intro n hn
    rcases List.mem_append.mp hn with hn | hn
    · obtain ⟨hun, hrest⟩ := h.waiting hn
      exact ⟨fun hl => hun ((BlockCache.holds_erase h.cache hheld).mp hl).1, hrest⟩
    · cases List.mem_singleton.mp hn
      obtain ⟨b, slot, hb, -⟩ := h.cached hheld
      refine ⟨?_, b, slot, hb⟩
      intro l hl heq
      obtain ⟨hl, hne⟩ := (BlockCache.holds_erase h.cache hheld).mp hl
      exact hne (h.cache.block hl hheld heq)
  condemned := by
    rw [Core.condemned, List.filterMap_append, List.nodup_append]
    refine ⟨h.condemned, List.pairwise_singleton _ _, ?_⟩
    rintro n hn _ hm rfl
    cases List.mem_singleton.mp hm
    exact (h.waiting (Discarded.mem_filterMap_block?.mp hn)).1 hheld rfl
  code := h.code

/-- A block less, which was not cached and does not wait. -/
theorem withoutBlock (waiting : List Discarded) (huncached : c.Uncached id)
    (hwaiting : waiting.Sublist c.waiting) (hnot : Discarded.block id ∉ waiting) :
    Sound R { c.withBlock id none with waiting } := by
  -- What is left was there before.
  have hold : ∀ {n a}, Function.update c.blocks id none n = some a → c.blocks n = some a := by
    intro n a ha
    rcases update_eq_some ha with ⟨heq, -⟩ | ha
    · cases heq
    · exact ha
  exact {
    maxBlockOps := h.maxBlockOps
    idle := h.idle
    cache := h.cache
    block := fun hb => h.block (hold hb)
    cached := by
      intro line hline
      obtain ⟨b, slot, ⟨hget, hslot⟩, hrest⟩ := h.cached hline
      exact ⟨b, slot, ⟨(Function.update_of_ne (huncached hline) _ _).trans hget, hslot⟩, hrest⟩
    waiting := by
      intro n hn
      obtain ⟨hun, b, slot, hget, hslot⟩ := h.waiting (hwaiting.mem hn)
      have hne : n ≠ id := by
        rintro rfl
        exact hnot hn
      exact ⟨hun, b, slot, (Function.update_of_ne hne _ _).trans hget, hslot⟩
    condemned := (hwaiting.filterMap _).nodup h.condemned
    code := by
      intro n k owner hk howner
      obtain ⟨hlt, hfrom⟩ := h.code hk howner
      exact ⟨hlt, fun hb => hfrom (hold hb)⟩ }

/-- Code less, and less that waits. -/
theorem withoutCode (n : Nat) (waiting : List Discarded) (hwaiting : waiting.Sublist c.waiting) :
    Sound R { c with codes := c.codes.erase n, waiting } where
  maxBlockOps := h.maxBlockOps
  idle := h.idle
  cache := h.cache
  block := h.block
  cached := h.cached
  waiting hd := h.waiting (hwaiting.mem hd)
  condemned := (hwaiting.filterMap _).nodup h.condemned
  code := by
    intro i k owner hk howner
    rw [Registry.get?_erase] at hk
    split at hk
    · cases hk
    · exact h.code hk howner

/-- Code more, and more code that waits. -/
theorem withCode {k : CompiledCode} (g : γ) (codes : List CompiledCode) (hblock : k.block = some id)
    (hget : c.blocks id = some b) (hsuits : b.Suits R k.program []) :
    Sound R { c.withCode k g with waiting := c.waiting ++ codes.map Discarded.code } where
  maxBlockOps := h.maxBlockOps
  idle := h.idle
  cache := h.cache
  block := h.block
  cached := h.cached
  waiting := by
    intro n hn
    rcases List.mem_append.mp hn with hn | hn
    · exact h.waiting hn
    · simp at hn
  condemned := by
    have hnone : (codes.map Discarded.code).filterMap Discarded.block? = [] := by
      rw [List.filterMap_map]
      exact List.filterMap_eq_nil_iff.mpr fun _ _ => rfl
    rw [Core.condemned, List.filterMap_append, hnone, List.append_nil]
    exact h.condemned
  code := by
    intro n k' owner hk' howner
    rw [Core.withCode, Registry.get?_insert] at hk'
    split at hk'
    · cases hk'
      rw [hblock] at howner
      cases howner
      refine ⟨(h.block hget).2, ?_⟩
      intro a ha
      cases hget.symm.trans ha
      exact hsuits
    · exact h.code hk' howner

end Sound

variable [Generator γ]

theorem Publishes.sameShape {id : BlockId} {b : Block} {k : CompiledCode} {offsets : List Nat}
    {start : Nat} {t : EntryTable} {g : γ} (h : c.Publishes R id b k offsets start t g) :
    c.machine.entries.SameShape t := by
  have hshape := EntryTable.sameShape_enter b k.id offsets (c.machine.entries, #[start])
  rw [h.entered] at hshape
  exact hshape

/-- Steps leave the table of entries its shape. -/
theorem Step.sameShape (h : Step R c c') : c.machine.entries.SameShape c'.machine.entries := by
  cases h with
  | log | change | lend | drop | miss | charge | touch | release => exact .refl _
  | enroll | republish =>
    exact (EntryTable.sameShape_noteSpan _ _ _ _).trans (EntryTable.sameShape_store _ _ _)
  | @kill id b => exact c.cache.sameShape_unregister _ id b
  | publish hp =>
    exact hp.sameShape.trans
      ((EntryTable.sameShape_store _ _ _).trans (EntryTable.sameShape_giveUp _ _))
  | abandon hp => exact hp.sameShape.trans (EntryTable.sameShape_retire _ _ _)
  | retire | scrap => exact EntryTable.sameShape_retire _ _ _
  | demote => exact EntryTable.sameShape_compareExchange _ _ _ _
  | @bury id b =>
    cases b.code with
    | none => exact .refl _
    | some k => exact EntryTable.sameShape_retire _ _ _

/-- Every step keeps an engine sound. -/
theorem Step.sound (h : Step R c c') (hs : Sound R c) : Sound R c' := by
  have hshape := h.sameShape
  cases h with
  | log | miss | charge | touch | release | retire | demote | republish =>
    exact hs.congr rfl rfl rfl rfl rfl rfl rfl hshape
  | change hget hkeeps =>
    exact hs.withBlock _ hget hkeeps.pc hkeeps.words ((hs.block hget).1.keeps hkeeps)
      fun halive => .inl (hkeeps.isDead.trans halive)
  | @enroll pc b slot entry hstart hdecoded hslot hnew hentry =>
    obtain ⟨hsound, -, -, halive, -⟩ := hdecoded.sound hstart hs.maxBlockOps
    have hlined := (hs.withNewBlock hsound).withLine ⟨Function.update_self .., hslot⟩ halive hnew
      hs.uncached_nextBlock fun hmem => by
        obtain ⟨-, a, _, ha, -⟩ := hs.waiting hmem
        exact Nat.lt_irrefl _ (hs.block ha).2
    exact hlined.congr rfl rfl rfl rfl rfl rfl rfl hshape
  | lend hstart hdecoded hslot =>
    exact (hs.withNewBlock (hdecoded.sound hstart hs.maxBlockOps).1).congr rfl rfl rfl rfl rfl rfl
      rfl (.refl _)
  | @drop id hslot =>
    -- a block without entry is neither cached nor waiting
    have hnone : ∀ {b slot}, ¬ c.Enlisted id b slot := by
      rintro b slot ⟨hget, hsome⟩
      cases (hslot hget).symm.trans hsome
    refine hs.withoutBlock c.waiting ?_ (List.Sublist.refl _) ?_
    · intro line hline heq
      obtain ⟨b, slot, hb, -⟩ := hs.cached hline
      exact hnone (heq ▸ hb)
    · intro hmem
      obtain ⟨-, b, slot, hb⟩ := hs.waiting hmem
      exact hnone hb
  | @kill id b hget hheld =>
    -- it leaves the cache before it is marked as dead
    have hless := hs.withoutLine hheld
    have hdead := hless.withBlock (b.setFlags { isDead := true }) hget rfl rfl
      ((hs.block hget).1.withCode (hs.block hget).1.code) fun _ => .inr ?_
    · exact hdead.congr rfl rfl rfl rfl rfl rfl rfl hshape
    · exact (hless.waiting (List.mem_append_right _ List.mem_cons_self)).1
  | @publish id b k offsets start t g hp hload =>
    have hget := hp.enlisted.1
    have hcode := hs.withCode g b.code.toList hp.block hget hp.suits.nil
    have hblock := hcode.withBlock { b with code := some k } hget rfl rfl
      ((hs.block hget).1.withCode fun h => by cases h; exact hp.suits.nil) .inl
    refine hblock.congr rfl rfl rfl rfl rfl rfl ?_ hshape
    cases b.code <;> rfl
  | @abandon id b k offsets start t g hp =>
    have hcode := hs.withCode g [k] hp.block hp.enlisted.1 hp.suits.nil
    exact hcode.congr rfl rfl rfl rfl rfl rfl rfl hshape
  | @scrap k rest hwaiting =>
    have hless := hs.withoutCode k.id.toNat rest (hwaiting ▸ List.sublist_cons_self _ _)
    exact hless.congr rfl rfl rfl rfl rfl rfl rfl hshape
  | @bury id b rest hwaiting hget =>
    have hmem : Discarded.block id ∈ c.waiting := hwaiting ▸ List.mem_cons_self
    -- nothing waits twice
    have hnot : Discarded.block id ∉ rest := by
      intro hrest
      have hnodup := hs.condemned
      rw [condemned, hwaiting, List.filterMap_cons] at hnodup
      exact (List.nodup_cons.mp hnodup).1 (Discarded.mem_filterMap_block?.mpr hrest)
    have hless := hs.withoutBlock rest (hs.waiting hmem).1
      (hwaiting ▸ List.sublist_cons_self _ _) hnot
    cases hcode : b.code with
    | none => exact hless.congr rfl rfl rfl rfl rfl rfl rfl (.refl _)
    | some k =>
      exact (hless.withoutCode k.id.toNat rest (List.Sublist.refl _)).congr rfl rfl rfl rfl rfl rfl rfl
        (EntryTable.sameShape_retire _ _ _)

/-! ## What steps leave alone -/

theorem Step.config (h : Step R c c') : c'.config = c.config := by
  cases h with
  | @bury id b rest hwaiting hget => cases b.code <;> rfl
  | _ => rfl

/-- Steps touch nothing of the machine but entries and log. -/
theorem Step.machine (h : Step R c c') :
    ∃ entries log, c'.machine = { c.machine with entries, log } := by
  cases h with
  | @bury id b rest hwaiting hget =>
    cases b.code
    · exact ⟨_, _, rfl⟩
    · exact ⟨_, _, rfl⟩
  | _ => exact ⟨_, _, rfl⟩

namespace Steps

theorem refl (c : Core δ κ γ) : Steps R c c := Relation.ReflTransGen.refl

theorem single (h : Step R c c') : Steps R c c' := Relation.ReflTransGen.single h

theorem trans {c'' : Core δ κ γ} (h1 : Steps R c c') (h2 : Steps R c' c'') : Steps R c c'' :=
  Relation.ReflTransGen.trans h1 h2

theorem sound (h : Steps R c c') (hs : Sound R c) : Sound R c' := by
  induction h with
  | refl => exact hs
  | tail _ hstep ih => exact hstep.sound ih

theorem sameShape (h : Steps R c c') : c.machine.entries.SameShape c'.machine.entries := by
  induction h with
  | refl => exact .refl _
  | tail _ hstep ih => exact ih.trans hstep.sameShape

theorem config (h : Steps R c c') : c'.config = c.config := by
  induction h with
  | refl => rfl
  | tail _ hstep ih => rw [hstep.config, ih]

theorem machine (h : Steps R c c') :
    ∃ entries log, c'.machine = { c.machine with entries, log } := by
  induction h with
  | refl => exact ⟨_, _, rfl⟩
  | tail _ hstep ih =>
    obtain ⟨entries, log, hm⟩ := ih
    obtain ⟨entries', log', hm'⟩ := hstep.machine
    rw [hm] at hm'
    exact ⟨entries', log', hm'⟩

end Steps

end Core

/-! ## What happens to the machine -/

namespace Machine

variable {free : Prop} {m m' : Machine δ κ}

theorem Change.sameShape (h : Change free m m') : m.entries.SameShape m'.entries := by
  cases h with
  | control _ hentries | overwrite _ _ hentries =>
    rw [hentries]
    exact .refl _
  | write _ _ hentries =>
    rw [hentries]
    exact EntryTable.sameShape_invalidate _ _ _
  | demote => exact EntryTable.sameShape_compareExchange _ _ _ _
  | invalidate => exact EntryTable.sameShape_invalidate _ _ _
  | invalidateAll => exact EntryTable.sameShape_invalidateAll _
  | mode => exact .refl _

theorem Changes.sameShape (h : Changes free m m') : m.entries.SameShape m'.entries := by
  induction h with
  | refl => exact .refl _
  | tail _ h ih => exact ih.trans h.sameShape

/-- No entry comes to lead into code. -/
theorem Change.load_code (h : Change free m m') {slot : Nat} {id : CodeId} {offset : Nat}
    (hload : m'.entries.load slot = .code id offset) : m.entries.load slot = .code id offset := by
  have hinvalidate : ∀ {addr length},
      (m.entries.invalidate addr length).2.load slot = .code id offset →
        m.entries.load slot = .code id offset := by
    intro addr length h
    rcases m.entries.load_invalidate_cases addr length slot with he | he
    · cases h.symm.trans he
    · exact he.symm.trans h
  cases h with
  | control _ hentries | overwrite _ _ hentries => exact hentries ▸ hload
  | write _ _ hentries => exact hinvalidate (hentries ▸ hload)
  | demote s n =>
    rcases m.entries.load_compareExchange_cases s slot (.code n 0) .pending with he | ⟨-, -, he⟩
    · exact he.symm.trans hload
    · cases hload.symm.trans he
  | invalidate => exact hinvalidate hload
  | invalidateAll => cases hload.symm.trans (m.entries.load_invalidateAll slot)
  | mode => exact hload

end Machine

namespace Core

variable {R : Rules} {c c' : Core δ κ γ} [Generator γ]

/-- A step, or something that happens to the machine. -/
inductive Move (R : Rules) (free : Prop) : Core δ κ γ → Core δ κ γ → Prop
  | step {c c' : Core δ κ γ} (h : Step R c c') : Move R free c c'
  | machine {c : Core δ κ γ} {m : Machine δ κ} (h : Machine.Change free c.machine m) :
      Move R free c { c with machine := m }

/-- Such things, one after the other. -/
def Evolves (R : Rules) (free : Prop) : Core δ κ γ → Core δ κ γ → Prop :=
  Relation.ReflTransGen (Move R free)

theorem Move.sound {free : Prop} (h : Move R free c c') (hs : Sound R c) : Sound R c' := by
  cases h with
  | step hstep => exact hstep.sound hs
  | machine hchange => exact hs.congr rfl rfl rfl rfl rfl rfl rfl hchange.sameShape

namespace Evolves

variable {free : Prop} {c'' : Core δ κ γ}

theorem refl (c : Core δ κ γ) : Evolves R free c c := Relation.ReflTransGen.refl

theorem trans (h1 : Evolves R free c c') (h2 : Evolves R free c' c'') : Evolves R free c c'' :=
  Relation.ReflTransGen.trans h1 h2

theorem of_steps (h : Steps R c c') : Evolves R free c c' := by
  induction h with
  | refl => exact refl c
  | tail _ hstep ih => exact Relation.ReflTransGen.tail ih (.step hstep)

theorem of_changes {m : Machine δ κ} (h : Machine.Changes free c.machine m) :
    Evolves R free c { c with machine := m } := by
  induction h with
  | refl => exact refl c
  | tail _ hchange ih => exact Relation.ReflTransGen.tail ih (.machine hchange)

theorem sound (h : Evolves R free c c') (hs : Sound R c) : Sound R c' := by
  induction h with
  | refl => exact hs
  | tail _ hmove ih => exact hmove.sound ih

end Evolves

end Core

end Dynarec
