/-
  Dynarec.Proofs.Engine.Freshness

  Blocks that come back are blocks of memory.

  A cached block is up to date as long as its entry is there. Its entry notes
  how many words it spans, so whoever writes to one of them clears the entry,
  and every way to write an entry again is taken by a block that was just
  decoded or that still had one. Two things get in the way. A write of the host
  that goes on behind the end of a region is invalidated up to there only. And
  a region that is run under two names has two blocks behind one entry, and one
  of them can put it back for both, whether they have the same words or not.
-/
import Dynarec.Proofs.Engine.Modes
import Dynarec.Proofs.Orderly

namespace Dynarec

variable {δ κ γ : Type}

namespace Memory

variable {m m' : Memory δ} {missed : Nat → Nat → Prop}

/-- Word `word` of region `index` is `value`. -/
def Stores (m : Memory δ) (index word : Nat) (value : UInt32) : Prop :=
  ∃ data, m.bytes? index = some data ∧ Bytes.wordAt data (4 * word) = value

/-- Word `word` of region `index` is `value`, or has a byte in `missed`. -/
def Matches (m : Memory δ) (missed : Nat → Nat → Prop) (index word : Nat) (value : UInt32) : Prop :=
  m.Stores index word value ∨ ∃ k, k / 4 = word ∧ missed index k

theorem Matches.sameExcept {W : Nat → Nat → Prop} {index word : Nat} {value : UInt32}
    (h : m.Matches missed index word value) (hsame : m.SameExcept W m')
    (hW : ∀ {k}, k / 4 = word → W index k → missed index k) :
    m'.Matches missed index word value := by
  by_cases hmissed : ∃ k, k / 4 = word ∧ missed index k
  · exact .inr hmissed
  · obtain ⟨data, hdata, hword⟩ := h.resolve_right hmissed
    obtain ⟨data', hdata', -⟩ := exists_bytes?_of_size? (hsame.size index).symm hdata
    refine .inl ⟨data', hdata', Eq.trans (Bytes.wordAt_congr fun k hfrom hto => ?_) hword⟩
    exact hsame.byte hdata hdata' fun hw => hmissed ⟨k, by omega, hW (by omega) hw⟩

/-- There are `n` words in the region of `pc`, from the one around `pc` on. -/
def HasRoom (m : Memory δ) (pc : UInt32) (n : Nat) : Prop :=
  ∃ r data, m.layout.resolve pc = .ok r ∧ m.bytes? r.index = some data ∧
    r.offset.toNat / 4 * 4 + 4 * n ≤ data.size

theorem HasRoom.sameExcept {W : Nat → Nat → Prop} {pc : UInt32} {n : Nat} (h : m.HasRoom pc n)
    (hsame : m.SameExcept W m') : m'.HasRoom pc n := by
  obtain ⟨r, data, hr, hdata, hfits⟩ := h
  obtain ⟨data', hdata', hsize⟩ := exists_bytes?_of_size? (hsame.size r.index).symm hdata
  exact ⟨r, data', hsame.layout.symm ▸ hr, hdata', hsize.symm ▸ hfits⟩

end Memory

/-! ## Tables that lose entries -/

namespace EntryTable

variable {t u : EntryTable}

/-- Entries are cleared or sent back to the dispatcher; spans and marks stay. -/
structure Lowers (t u : EntryTable) : Prop where
  shape : t.SameShape u
  spans : u.spans = t.spans
  covered : u.covered = t.covered
  load : ∀ slot, u.load slot = .null ∨ u.load slot = t.load slot ∨
    (∃ id, t.load slot = .code id 0) ∧ u.load slot = .pending

theorem load_giveUp_cases (t : EntryTable) (code : Option CompiledCode) (slot : Nat) :
    (t.giveUp code).load slot = .null ∨ (t.giveUp code).load slot = t.load slot := by
  cases code with
  | none => exact .inr rfl
  | some k => exact t.load_retire_cases k.id k.slots slot

namespace Lowers

theorem refl (t : EntryTable) : t.Lowers t := ⟨.refl t, rfl, rfl, fun _ => .inr (.inl rfl)⟩

theorem of_cleared (hshape : t.SameShape u) (hspans : u.spans = t.spans)
    (hcovered : u.covered = t.covered)
    (hload : ∀ slot, u.load slot = .null ∨ u.load slot = t.load slot) : t.Lowers u :=
  ⟨hshape, hspans, hcovered, fun slot => (hload slot).imp_right .inl⟩

theorem retire (t : EntryTable) (id : CodeId) (slots : Array Nat) : t.Lowers (t.retire id slots) :=
  of_cleared (sameShape_retire t id slots) rfl rfl (t.load_retire_cases id slots)

theorem giveUp (t : EntryTable) (code : Option CompiledCode) : t.Lowers (t.giveUp code) := by
  cases code with
  | none => exact refl t
  | some k => exact retire t k.id k.slots

theorem invalidate (t : EntryTable) (addr length : UInt32) :
    t.Lowers (t.invalidate addr length).2 := by
  obtain ⟨-, hspans, hcovered, -⟩ := t.invalidate_frame addr length
  exact of_cleared (sameShape_invalidate t addr length) hspans hcovered
    (t.load_invalidate_cases addr length)

theorem invalidateAll (t : EntryTable) : t.Lowers t.invalidateAll :=
  of_cleared (sameShape_invalidateAll t) rfl rfl fun slot => .inl (t.load_invalidateAll slot)

theorem demote (t : EntryTable) (slot : Nat) (id : CodeId) :
    t.Lowers (t.compareExchange slot (.code id 0) .pending).2 := by
  obtain ⟨-, hspans, hcovered, -⟩ := t.compareExchange_frame slot (.code id 0) .pending
  refine ⟨sameShape_compareExchange t _ _ _, hspans, hcovered, fun other => .inr ?_⟩
  rcases t.load_compareExchange_cases slot other (.code id 0) .pending with hsame | ⟨-, hold, hnew⟩
  · exact .inl hsame
  · exact .inr ⟨⟨id, hold⟩, hnew⟩

theorem unregister (c : BlockCache) (t : EntryTable) (id : BlockId) (b : Block) :
    t.Lowers (c.unregister t id b).2 := by
  obtain ⟨hspans, hcovered⟩ := c.marks_unregister t id b
  exact of_cleared (c.sameShape_unregister t id b) hspans hcovered (c.load_unregister_cases t id b)

/-- An entry that is there was there before. -/
theorem load_ne_null (h : t.Lowers u) {slot : Nat} (hload : u.load slot ≠ .null) :
    t.load slot ≠ .null := by
  rcases h.load slot with hnull | hsame | ⟨⟨id, hcode⟩, -⟩
  · exact absurd hnull hload
  · rwa [hsame] at hload
  · rw [hcode]
    exact Entry.noConfusion

/-- An entry that leads into code did so before. -/
theorem load_code (h : t.Lowers u) {slot : Nat} {id : CodeId} {o : Nat}
    (hload : u.load slot = .code id o) : t.load slot = .code id o := by
  rcases h.load slot with hnull | hsame | ⟨-, hpending⟩
  · cases hload.symm.trans hnull
  · exact hsame.symm.trans hload
  · cases hload.symm.trans hpending

theorem marked (h : t.Lowers u) (ht : t.Marked) : u.Marked :=
  ht.of_load h.spans h.covered h.shape.window h.shape.slots fun _ => h.load_ne_null

end Lowers

end EntryTable

/-- Entry `e` leads to instruction `o` of the block: some entry does to its start, and one into its
code where that can be entered. -/
def Block.LedTo (b : Block) (o : Nat) (e : Entry) : Prop :=
  o = 0 ∧ e ≠ .null ∨ ∃ k, b.code = some k ∧ e = .code k.id o

namespace Block.LedTo

variable {b b' : Block} {o slot : Nat} {e : Entry} {t u : EntryTable}

theorem ne_null (h : b.LedTo o e) : e ≠ .null := by
  rcases h with ⟨-, hne⟩ | ⟨k, -, rfl⟩
  · exact hne
  · exact Entry.noConfusion

theorem of_lowers (h : b.LedTo o (u.load slot)) (hlowers : t.Lowers u) :
    b.LedTo o (t.load slot) := by
  rcases h with ⟨hzero, hne⟩ | ⟨k, hcode, hload⟩
  · exact .inl ⟨hzero, hlowers.load_ne_null hne⟩
  · exact .inr ⟨k, hcode, hlowers.load_code hload⟩

theorem congr (h : b'.LedTo o e) (hcode : b'.code = b.code) : b.LedTo o e := by
  unfold LedTo at h
  rwa [hcode] at h

end Block.LedTo

namespace Core

variable {R : Rules} {c c' : Core δ κ γ}

/-! ## Blocks and the table -/

/-- The table is that of the map, with spans and marks for all entries. Blocks fit into the window
of the table and into their region. -/
structure Charted (c : Core δ κ γ) : Prop where
  shape : (EntryTable.ofLayout c.machine.memory.layout c.config.maxBlockOps).SameShape
    c.machine.entries
  marked : c.machine.entries.Marked
  sized : c.machine.memory.Sized
  block : ∀ {id : BlockId} {b : Block}, c.blocks id = some b →
    b.words.length ≤ max c.config.maxBlockOps 2 + 1 ∧ c.machine.memory.HasRoom b.pc b.words.length

namespace Charted

theorem window (h : c.Charted) : c.machine.entries.window = max c.config.maxBlockOps 2 + 1 :=
  h.shape.window

theorem opCount_le (h : c.Charted) (hs : c.Sound R) {id : BlockId} {b : Block}
    (hget : c.blocks id = some b) : b.opCount ≤ c.machine.entries.window := by
  rw [(hs.block hget).1.opCount, h.window]
  exact (h.block hget).1

/-- The machine changes, and the entries go by the same map. -/
theorem withMachine (h : c.Charted) {m : Machine δ κ} {W : Nat → Nat → Prop}
    (hmemory : c.machine.memory.SameExcept W m.memory)
    (hlowers : c.machine.entries.Lowers m.entries) : Charted { c with machine := m } where
  shape := by
    rw [hmemory.layout]
    exact h.shape.trans hlowers.shape
  marked := hlowers.marked h.marked
  sized := hmemory.sized h.sized
  block hget := ⟨(h.block hget).1, (h.block hget).2.sameExcept hmemory⟩

end Charted

/-! ## Cached blocks and their words -/

/-- The block is cached. -/
def Caches (c : Core δ κ γ) (b : Block) : Prop :=
  ∃ id, c.cache.Holds ⟨b.start, id⟩ ∧ c.blocks id = some b

/-- The block is in region `i` from word `w` on. -/
def Lies (c : Core δ κ γ) (b : Block) (i w : Nat) : Prop :=
  ∃ r, c.machine.memory.layout.resolve b.pc = .ok r ∧ r.index = i ∧ r.offset.toNat / 4 = w

theorem Lies.congr {b b' : Block} {i w : Nat} (h : c'.Lies b' i w)
    (hlayout : c'.machine.memory.layout = c.machine.memory.layout) (hpc : b'.pc = b.pc) :
    c.Lies b i w := by
  unfold Lies at h
  rwa [hlayout, hpc] at h

/-- Cached block `b` is in region `i` from word `w` on, and its entry for instruction `o` leads to
it. -/
structure Seen (c : Core δ κ γ) (i w : Nat) (b : Block) (o : Nat) : Prop where
  cached : c.Caches b
  seat : c.Lies b i w
  inside : o < b.words.length
  led : b.LedTo o (c.machine.entries.load (c.machine.memory.layout.firstSlot i + w + o))

/-- The same, but where a number can stand for two pieces of code, entries inside of blocks say
nothing. -/
structure Shown (c : Core δ κ γ) (i w : Nat) (b : Block) (o : Nat) : Prop
    extends c.Seen i w b o where
  counted : o = 0 ∨ c.made < 2 ^ 32

/-- One entry leads to two cached blocks that do not agree: to the start of one that consists of
`words`, from word `w` of region `i` on, and to an instruction of another one, which has another
address. -/
def Contested (c : Core δ κ γ) (i w : Nat) (words : List UInt32) : Prop :=
  ∃ b b' w' o, c.Seen i w b 0 ∧ b.words = words ∧ c.Seen i w' b' o ∧ w' + o = w ∧
    b.start ≠ physical (b'.pc + o.toUInt32 * 4) ∧ b'.words.drop o ≠ words

variable {ok ok' : Nat → UInt32 → Prop} {bad bad' : Nat → List UInt32 → Prop} {i w o : Nat}
  {b b' : Block}

/-- From instruction `o` on, the block lies inside the span of its entry, and its words are `ok`
where they are. -/
structure Kept (ok : Nat → UInt32 → Prop) (c : Core δ κ γ) (i w : Nat) (b : Block) (o : Nat) :
    Prop where
  span : b.words.length - o ≤
    c.machine.entries.spans.getD (c.machine.memory.layout.firstSlot i + w + o) 0
  word : ∀ {n : Nat} {value : UInt32}, o ≤ n → b.words[n]? = some value → ok (w + n) value

/-- What entries of region `i` lead to is `ok` from there on, but for `bad` blocks. -/
def Fresh (ok : Nat → UInt32 → Prop) (bad : Nat → List UInt32 → Prop) (i : Nat)
    (c : Core δ κ γ) : Prop :=
  ∀ w o b, c.Shown i w b o → c.Kept ok i w b o ∨ bad w b.words

theorem Fresh.mono (h : c.Fresh ok bad i) (hok : ∀ {w v}, ok w v → ok' w v)
    (hbad : ∀ {w words}, bad w words → bad' w words) : c.Fresh ok' bad' i :=
  fun w o b hshown => (h w o b hshown).imp
    (fun hkept => ⟨hkept.span, fun hn hvalue => hok (hkept.word hn hvalue)⟩) hbad

/-- What is needed to follow entries: where blocks are is known, and code by its number. -/
structure Follows (R : Rules) (c : Core δ κ γ) : Prop where
  sound : c.Sound R
  linked : c.made < 2 ^ 32 → c.Linked R
  charted : c.Charted
  orderly : c.machine.memory.layout.Orderly

namespace Follows

variable {id : BlockId} {slot : Nat}

/-- Where the words of a block with an entry are, and their slots. -/
theorem seated (hf : c.Follows R) (h : c.Enlisted id b slot) :
    ∃ r, c.machine.memory.layout.resolve b.pc = .ok r ∧
      c.machine.memory.layout.isCode r.index = true ∧
      slot = c.machine.memory.layout.firstSlot r.index + r.offset.toNat / 4 ∧
      r.offset.toNat / 4 * 4 + 4 * b.words.length ≤
        (c.machine.memory.layout.regions.getD r.index default).length.toNat ∧
      ∀ {o}, o < b.words.length →
        c.machine.entries.index? (b.start + o.toUInt32 * 4) = some (slot + o) := by
  have hl := hf.orderly
  have hshape := hf.charted.shape
  obtain ⟨hget, hslot⟩ := h
  rw [Block.start, EntryTable.index?_physical] at hslot
  obtain ⟨r, hr, hcode, rfl⟩ := (EntryTable.index?_eq_some_iff hl.apart hshape.regions).mp hslot
  obtain ⟨r', data, hr', hdata, hfits⟩ := (hf.charted.block hget).2
  cases hr.symm.trans hr'
  obtain ⟨s, hregion, -, hsize⟩ := hf.charted.sized hdata
  have hlength :
      (c.machine.memory.layout.regions.getD r.index default).length.toNat = data.size := by
    rw [Array.getD_eq_getD_getElem?, hregion, Option.getD_some, hsize]
  rw [← hlength] at hfits
  refine ⟨r, hr, hcode, rfl, hfits, fun {o} ho => ?_⟩
  have hbound := (hf.sound.block hget).1.bounded
  have hfour := @Interpreter.toNat_mul_four o (by omega)
  rw [Block.start, EntryTable.index?_physical_add hl hshape.regions hr hcode (by omega), hfour]
  congr 1
  omega

/-- An address whose slot is that of a word of the block leads to that word. -/
theorem place (hf : c.Follows R) (h : c.Enlisted id b slot) (ho : o < b.words.length) {p : UInt32}
    (hp : c.machine.entries.index? p = some (slot + o)) :
    ∃ r s, c.machine.memory.layout.resolve b.pc = .ok r ∧
      c.machine.memory.layout.resolve p = .ok s ∧ s.index = r.index ∧
      s.offset.toNat / 4 = r.offset.toNat / 4 + o := by
  obtain ⟨r, hr, hcode, rfl, hfits, -⟩ := hf.seated h
  obtain ⟨s, hs, hscode, hslot⟩ :=
    (EntryTable.index?_eq_some_iff hf.orderly.apart hf.charted.shape.regions).mp hp
  -- slots of different regions differ, so both are in this one
  have hlast : r.offset.toNat / 4 + o < c.machine.memory.layout.slotsOf r.index := by
    rw [Layout.slotsOf, if_pos hcode, EntryTable.slotCount]
    omega
  obtain ⟨hindex, hword⟩ := Layout.firstSlot_inj hlast (Layout.offset_lt hs hscode).2
    ((Nat.add_assoc ..).symm.trans hslot)
  exact ⟨r, s, hr, hs, hindex.symm, hword.symm⟩

/-- The entry for the start of a cached block is where the block is. -/
theorem enlisted (hf : c.Follows R) (hheld : c.cache.Holds ⟨b.start, id⟩)
    (hget : c.blocks id = some b) (hseat : c.Lies b i w) :
    c.Enlisted id b (c.machine.memory.layout.firstSlot i + w) := by
  obtain ⟨_, slot, henlisted, -⟩ := hf.sound.cached hheld
  cases hget.symm.trans henlisted.1
  obtain ⟨r, hr, -, rfl, -⟩ := hf.seated henlisted
  obtain ⟨_, hr', rfl, rfl⟩ := hseat
  cases hr.symm.trans hr'
  exact henlisted

/-- Blocks of a region with one name are where their words are: a block that starts at a word of
another one has that word's address. -/
theorem start_eq (hf : c.Follows R) (hone : c.machine.memory.layout.OneName R.start i)
    {id' : BlockId} (h : c.Enlisted id b slot) (h' : c.Enlisted id' b' (slot + o))
    (ho : o < b.words.length)
    (hseat : c.Lies b i w) : b'.start = physical (b.pc + o.toUInt32 * 4) := by
  have hindex := h'.2
  rw [Block.start, EntryTable.index?_physical] at hindex
  obtain ⟨r, s, hr, hs, hsame, hword⟩ := hf.place h ho hindex
  obtain ⟨_, hagain, hcode, -, hfits, -⟩ := hf.seated h
  cases hr.symm.trans hagain
  obtain ⟨_, hagain, rfl, -⟩ := hseat
  cases hr.symm.trans hagain
  have hb := (hf.sound.block h.1).1
  have hbound := hb.bounded
  have hfour := @Interpreter.toNat_mul_four o (by omega)
  -- Under another name the same word would be at another distance from the start.
  have hname : physical b.pc + s.offset / 4 * 4 = physical b'.pc + r.offset / 4 * 4 :=
    Classical.byContradiction fun hne =>
      hone hb.start (hf.sound.block h'.1).1.start ⟨r, s, hr, hs, rfl, hsame, hne⟩
  have hoffset : s.offset / 4 * 4 = o.toUInt32 * 4 + r.offset / 4 * 4 := by
    have hlt := s.offset.toNat_lt
    rw [← UInt32.toNat_inj, UInt32.toNat_add, hfour, Layout.toNat_div_mul_four,
      Layout.toNat_div_mul_four]
    omega
  rw [hoffset, ← UInt32.add_assoc] at hname
  have hstart := (UInt32.add_left_inj _).mp hname.symm
  exact hstart.trans (hf.orderly.resolve_add hr hcode (n := o.toUInt32 * 4) (by omega)).1.symm

end Follows

variable {m : Machine δ κ}

/-- The machine changes, and entries are lost. -/
theorem Follows.withMachine (hf : c.Follows R) {W : Nat → Nat → Prop}
    (hmemory : c.machine.memory.SameExcept W m.memory)
    (hlowers : c.machine.entries.Lowers m.entries) : Follows R { c with machine := m } where
  sound := hf.sound.congr rfl rfl rfl rfl rfl rfl rfl hlowers.shape
  linked hmade := (hf.linked hmade).lose rfl rfl rfl rfl rfl rfl hlowers.shape hlowers.load_code
  charted := hf.charted.withMachine hmemory hlowers
  orderly := by
    rw [hmemory.layout]
    exact hf.orderly

/-- Blocks of a region with one name have one address for a word. -/
theorem Follows.not_contested (hf : c.Follows R) (hone : c.machine.memory.layout.OneName R.start i)
    {words : List UInt32} :
    ¬ c.Contested i w words := by
  rintro ⟨b, b', w', o, hb, -, hb', rfl, hname, -⟩
  obtain ⟨id, hheld, hget⟩ := hb.cached
  obtain ⟨id', hheld', hget'⟩ := hb'.cached
  have henlisted := hf.enlisted hheld hget hb.seat
  rw [← Nat.add_assoc] at henlisted
  exact hname (hf.start_eq hone (hf.enlisted hheld' hget' hb'.seat) henlisted hb'.inside hb'.seat)

/-- Entries are lost, and nothing comes into the cache. -/
theorem Fresh.lower (h : c.Fresh ok bad i)
    (hlayout : c'.machine.memory.layout = c.machine.memory.layout)
    (hlowers : c.machine.entries.Lowers c'.machine.entries) (hmade : c.made ≤ c'.made)
    (hcaches : ∀ {b'}, c'.Caches b' →
      ∃ b, c.Caches b ∧ b'.pc = b.pc ∧ b'.words = b.words ∧ b'.code = b.code)
    (hok : ∀ {w o n b v}, c.Shown i w b o → c.Kept ok i w b o →
      c'.machine.entries.load (c.machine.memory.layout.firstSlot i + w + o) ≠ .null → o ≤ n →
      b.words[n]? = some v → ok' (w + n) v) : c'.Fresh ok' bad i := by
  -- What an entry leads to now, it led to before.
  intro w o b' hshown
  obtain ⟨b, hcached, hpc, hwords, hcode⟩ := hcaches hshown.cached
  have hled := hshown.led
  rw [hlayout] at hled
  have hbefore : c.Shown i w b o :=
    ⟨⟨hcached, hshown.seat.congr hlayout hpc, hwords ▸ hshown.inside,
      (hled.congr hcode).of_lowers hlowers⟩, hshown.counted.imp_right (Nat.lt_of_le_of_lt hmade)⟩
  rw [hwords]
  refine (h w o b hbefore).imp_left fun hkept => ⟨?_, fun hn hvalue => ?_⟩
  · rw [hwords, hlayout, hlowers.spans]
    exact hkept.span
  · exact hok hbefore hkept hled.ne_null hn (hwords ▸ hvalue)

/-- Core `c'` is `c` with fewer entries. Memory stays as it is, and blocks that stay cached keep
what they are. -/
structure Loses (c c' : Core δ κ γ) : Prop where
  memory : c'.machine.memory = c.machine.memory
  lowers : c.machine.entries.Lowers c'.machine.entries
  made : c.made ≤ c'.made
  cached : ∀ {line : CacheLine} {b' : Block}, c'.cache.Holds line →
    c'.blocks line.block = some b' → c.cache.Holds line ∧ ∃ b, c.blocks line.block = some b ∧
      b'.pc = b.pc ∧ b'.words = b.words ∧ b'.code = b.code

theorem Loses.caches (h : c.Loses c') (hcached : c'.Caches b') :
    ∃ b, c.Caches b ∧ b'.pc = b.pc ∧ b'.words = b.words ∧ b'.code = b.code := by
  obtain ⟨id, hheld, hget⟩ := hcached
  obtain ⟨hheld, b, hb, hpc, hsame⟩ := h.cached hheld hget
  have hstart : b'.start = b.start := by rw [Block.start, hpc, Block.start]
  exact ⟨b, ⟨id, hstart ▸ hheld, hb⟩, hpc, hsame⟩

theorem Loses.fresh (hloses : c.Loses c') (h : c.Fresh ok bad i) : c'.Fresh ok bad i :=
  h.lower (congrArg _ hloses.memory) hloses.lowers hloses.made hloses.caches
    fun _ hkept _ => hkept.word

/-- What entries lead to now other entries led to before, as the same block or as part of one, from
the same instruction or an earlier one on. -/
theorem Fresh.of_shown (h : c.Fresh ok bad i) (hmemory : c'.machine.memory = c.machine.memory)
    (hdrop : ∀ {w words} (m : Nat), bad w words → bad (w + m) (words.drop m))
    (hshown : ∀ {w o b'}, c'.Shown i w b' o → bad w b'.words ∨
      ∃ b w0 o0 m, c.Shown i w0 b o0 ∧ o0 ≤ m + o ∧ w = w0 + m ∧ b'.words = b.words.drop m ∧
        (c.Kept ok i w0 b o0 → b'.words.length - o ≤
          c'.machine.entries.spans.getD (c.machine.memory.layout.firstSlot i + w + o) 0)) :
    c'.Fresh ok bad i := by
  intro w o b' hb'
  rcases hshown hb' with hbad | ⟨b, w0, o0, m, hb, ho, rfl, hwords, hspan⟩
  · exact .inr hbad
  rw [hwords]
  refine (h w0 o0 b hb).imp (fun hkept => ⟨?_, fun {n value} hn hvalue => ?_⟩) (hdrop m)
  · rw [hmemory]
    exact hspan hkept
  · rw [hwords, List.getElem?_drop] at hvalue
    rw [Nat.add_assoc]
    exact hkept.word (by omega) hvalue

/-- Where a range has been invalidated, entries lead to no words of it. -/
theorem Fresh.invalidated (h : c.Fresh ok bad i) (hf : c.Follows R) {addr length : UInt32}
    (hlayout : m.memory.layout = c.machine.memory.layout)
    (hentries : m.entries = (c.machine.entries.invalidate addr length).2)
    (hok : ∀ {w v}, c.machine.memory.layout.isCode i = true →
      (∀ k, k / 4 = w → ¬ c.machine.memory.layout.Names addr length.toNat i k) → ok w v → ok' w v) :
    Fresh ok' bad i { c with machine := m } := by
  refine h.lower hlayout ?_ (Nat.le_refl _) (fun hcached => ⟨_, hcached, rfl, rfl, rfl⟩) ?_
  · show c.machine.entries.Lowers m.entries
    rw [hentries]
    exact .invalidate _ addr length
  · intro w o n b v hshown hkept hload hn hvalue
    obtain ⟨id, hheld, hget⟩ := hshown.cached
    have henlisted := hf.enlisted hheld hget hshown.seat
    obtain ⟨r, hr, hcode, -, hfits, -⟩ := hf.seated henlisted
    obtain ⟨_, hr', rfl, rfl⟩ := hshown.seat
    cases hr.symm.trans hr'
    refine hok hcode (fun k hk hnames => hload ?_) (hkept.word hn hvalue)
    -- an entry whose span has a byte of the range is cleared
    have hlt := (List.getElem?_eq_some_iff.mp hvalue).1
    have hspan := hkept.span
    have hslots : c.machine.memory.layout.slotsOf r.index = EntryTable.slotCount
        (c.machine.memory.layout.regions.getD r.index default).length := if_pos hcode
    rw [EntryTable.slotCount] at hslots
    show m.entries.load _ = .null
    rw [hentries]
    exact EntryTable.load_invalidate_of_names hf.orderly hf.charted.shape hf.charted.marked hnames
      hcode (Nat.add_assoc ..) (by omega) (by omega) (by omega)

variable [Generator γ]

/-- New entries have their spans. -/
theorem Publishes.marked {id : BlockId} {b : Block} {k : CompiledCode} {offsets : List Nat}
    {start : Nat} {t : EntryTable} {g : γ} (hp : c.Publishes R id b k offsets start t g)
    (hs : c.Sound R) (hc : c.Charted) : t.Marked := by
  have hle := hc.opCount_le hs hp.enlisted.1
  have hinduction := Block.enter_induction b k.id offsets
    (s := (c.machine.entries, #[start]))
    (P := fun s => c.machine.entries.SameShape s.1 ∧ s.1.Marked) ⟨.refl _, hc.marked⟩ ?_
  · rw [hp.entered] at hinduction
    exact hinduction.2
  · rintro ⟨t', slots⟩ o slot ho ⟨hshape, hmarked⟩ hslot
    have hinside := hp.inside o ho
    refine ⟨hshape.trans ((EntryTable.sameShape_store _ _ _).trans
      (EntryTable.sameShape_noteSpan _ _ _ _)), ?_⟩
    refine hmarked.storeSpan slot (.code k.id o) (by omega) ?_ false
    rw [hshape.window]
    omega

/-- Steps keep a span and marks for every entry. -/
theorem Step.marked (hstep : Step R c c') (hs : c.Sound R) (hc : c.Charted) :
    c'.machine.entries.Marked := by
  have hm := hc.marked
  -- Entries come with a span or take the place of others; most steps only clear some.
  cases hstep with
  | log | change | lend | drop | miss | charge | touch | release => exact hm
  | @enroll pc b slot entry hstart hdecoded hslot hnew hentry =>
    obtain ⟨hsound, -, -, -, hlength, -⟩ := hdecoded.sound hstart hs.maxBlockOps
    refine hm.storeSpan slot entry (hsound.opCount ▸ hsound.nonempty) ?_ true
    rw [hsound.opCount, hc.window]
    exact hlength
  | @kill id b hget hheld => exact (EntryTable.Lowers.unregister c.cache _ id b).marked hm
  | @publish id b k offsets start t g hp hload =>
    exact (EntryTable.Lowers.giveUp _ b.code).marked ((hp.marked hs hc).store (.code k.id 0) hload)
  | @abandon id b k offsets start t g hp =>
    exact (EntryTable.Lowers.retire t k.id k.slots).marked (hp.marked hs hc)
  | retire id slots => exact (EntryTable.Lowers.retire _ id slots).marked hm
  | demote slot id => exact (EntryTable.Lowers.demote _ slot id).marked hm
  | @republish id b slot entry hreuse henlisted =>
    have hb := (hs.block henlisted.1).1
    exact hm.storeSpan slot entry (hb.opCount ▸ hb.nonempty) (hc.opCount_le hs henlisted.1) true
  | @scrap k rest hwaiting => exact (EntryTable.Lowers.retire _ k.id k.slots).marked hm
  | @bury id b rest hwaiting hget =>
    cases b.code with
    | none => exact hm
    | some k => exact (EntryTable.Lowers.retire _ k.id k.slots).marked hm

theorem Step.charted (hstep : Step R c c') (hs : c.Sound R) (hc : c.Charted) : c'.Charted := by
  obtain ⟨entries, log, hmachine⟩ := hstep.machine
  have hmemory : c'.machine.memory = c.machine.memory := by rw [hmachine]
  exact {
    shape := by
      rw [hmemory, hstep.config]
      exact hc.shape.trans hstep.sameShape
    marked := hstep.marked hs hc
    sized := hmemory ▸ hc.sized
    block := by
      intro id b' hget
      rw [hmemory, hstep.config]
      rcases hstep.block_cases hget with ⟨b, hb, hpc, hwords⟩ | ⟨pc, hstart, hdecoded⟩
      · rw [hpc, hwords]
        exact hc.block hb
      · obtain ⟨-, hpc, -, -, hlength, r, data, hsupplies⟩ := hdecoded.sound hstart hs.maxBlockOps
        rw [hpc]
        exact ⟨hlength, r, data, hsupplies.resolves, hsupplies.bytes, hsupplies.fits⟩ }

/-! ## New code -/

section Publishes

variable {id : BlockId} {k : CompiledCode} {offsets : List Nat} {start : Nat} {t : EntryTable}
  {g : γ}

/-- The number of new code is that of no other. -/
theorem Publishes.id_ne (hp : c.Publishes R id b k offsets start t g) (hf : c.Follows R)
    (hmade : c.made + 1 < 2 ^ 32) {id' : BlockId} {a : Block} {k' : CompiledCode}
    (hget : c.blocks id' = some a) (hcode : a.code = some k') : k'.id ≠ k.id := by
  intro hid
  have hlinked := hf.linked (Nat.lt_of_succ_lt hmade)
  have hregistered := (hlinked.code hget hcode).1
  rw [hid, hp.number, (hlinked.next_free hmade).2] at hregistered
  cases hregistered

/-- Core `c'` is core `c` after code was made for a cached block, and published or given up. -/
structure Compiles (R : Rules) (c c' : Core δ κ γ) (id : BlockId) (b : Block) (k : CompiledCode)
    (offsets : List Nat) (start : Nat) (t : EntryTable) (g : γ) : Prop where
  publishes : c.Publishes R id b k offsets start t g
  memory : c'.machine.memory = c.machine.memory
  cache : c'.cache = c.cache
  made : c'.made = c.made + 1
  outcome : (c'.machine.entries = t.retire k.id k.slots ∧ c'.blocks = c.blocks) ∨
    t.load start ≠ .null ∧
    c'.machine.entries = (t.store start (.code k.id 0)).giveUp b.code ∧
    c'.blocks = Function.update c.blocks id (some { b with code := some k })

variable (hc : c.Compiles R c' id b k offsets start t g)
include hc

/-- Blocks that are cached were so before, but one may have got new code. -/
theorem Compiles.caches (h : c'.Caches b') :
    ∃ id' a, c.cache.Holds ⟨a.start, id'⟩ ∧ c.blocks id' = some a ∧
      b'.pc = a.pc ∧ b'.words = a.words ∧ (b'.code = a.code ∨ id' = id ∧ b'.code = some k) := by
  obtain ⟨id', hheld, hget⟩ := h
  rw [hc.cache] at hheld
  rcases hc.outcome with ⟨-, hblocks⟩ | ⟨-, -, hblocks⟩
  · exact ⟨id', b', hheld, hblocks ▸ hget, rfl, rfl, .inl rfl⟩
  · rw [hblocks] at hget
    rcases update_eq_some hget with ⟨hnew, rfl⟩ | hget
    · cases hnew
      exact ⟨id', b, hheld, hc.publishes.enlisted.1, rfl, rfl, .inr ⟨rfl, rfl⟩⟩
    · exact ⟨id', b', hheld, hget, rfl, rfl, .inl rfl⟩

/-- An entry was there before, or leads into code that has been published: at the start of the
block, where there was an entry, or further on, where it spans the rest of the block. -/
theorem Compiles.load_cases (hf : c.Follows R) {slot : Nat}
    (h : c'.machine.entries.load slot ≠ .null) :
    c.machine.entries.spans.getD slot 0 ≤ c'.machine.entries.spans.getD slot 0 ∧
      (c'.machine.entries.load slot = c.machine.entries.load slot ∨
        c'.blocks = Function.update c.blocks id (some { b with code := some k }) ∧
        c.machine.entries.load start ≠ .null ∧ ∃ o < b.words.length, slot = start + o ∧
          c'.machine.entries.load slot = .code k.id o ∧
          (o = 0 ∨ o ∈ offsets ∧ b.words.length - o ≤ c'.machine.entries.spans.getD slot 0)) := by
  have hp := hc.publishes
  have hb := (hf.sound.block hp.enlisted.1).1
  have hbound := hb.bounded
  obtain ⟨-, -, -, -, -, hslots⟩ := hf.seated hp.enlisted
  have hentered : ∀ slot, t.load slot = c.machine.entries.load slot ∨ slot ∈ k.slots ∧
      ∃ o < b.words.length, 0 < o ∧ slot = start + o ∧ t.load slot = .code k.id o ∧ o ∈ offsets ∧
        b.words.length - o ≤ t.spans.getD slot 0 := by
    intro slot
    refine (hp.entered_cases.2 slot).2.imp_right ?_
    rintro ⟨hmem, o, ho, hindex, hload, hspan⟩
    obtain ⟨hpos, hlt⟩ := hp.inside o ho
    rw [hb.opCount] at hlt hspan
    have hsize : slot < t.slots.size := EntryTable.lt_size_of_load_ne_null (by
      rw [hload]
      exact Entry.noConfusion)
    rw [hp.sameShape.slots, ← hf.charted.marked.spans] at hsize
    have hle := hspan hsize
    exact ⟨hmem, o, hlt, hpos, Option.some.inj (hindex.symm.trans (hslots hlt)), hload, ho, by omega⟩
  rcases hc.outcome with ⟨hentries, -⟩ | ⟨hload, hentries, hblocks⟩
  · -- nothing is left of code that is given up
    rw [hentries] at h ⊢
    have hsame := (t.load_retire_cases k.id k.slots slot).resolve_left h
    refine ⟨(hp.entered_cases.2 slot).1, .inl ?_⟩
    rcases hentered slot with hold | ⟨hmem, o, -, -, -, hnew, -⟩
    · exact hsame.trans hold
    · exact absurd ⟨rfl, hmem⟩ (EntryTable.load_of_load_retire (hsame.trans hnew)).2
  · have hown : c.machine.entries.load start ≠ .null := by
      rcases hentered start with hold | ⟨-, o, -, hpos, hslot, -⟩
      · exact hold ▸ hload
      · omega
    rw [hentries] at h ⊢
    rw [((EntryTable.load_giveUp_cases _ b.code slot).resolve_left h),
      (EntryTable.Lowers.giveUp _ b.code).spans]
    refine ⟨(hp.entered_cases.2 slot).1, ?_⟩
    rcases t.load_store_cases start slot (.code k.id 0) with ⟨rfl, hstored⟩ | hsame
    · exact .inr ⟨hblocks, hown, 0, hb.nonempty, rfl, hstored, .inl rfl⟩
    · rw [hsame]
      refine (hentered slot).imp_right ?_
      rintro ⟨-, o, hlt, -, hslot, hnew, ho, hspan⟩
      exact ⟨hblocks, hown, o, hlt, hslot, hnew, .inr ⟨ho, hspan⟩⟩

/-- Where an entry into new code is at the start of another block, the two go on with the same words
or are at odds from now on. -/
theorem Compiles.meets (hf : c.Follows R)
    (hblocks : c'.blocks = Function.update c.blocks id (some { b with code := some k }))
    (ho : o ∈ offsets) {id' : BlockId} {a : Block} (hheld : c.cache.Holds ⟨a.start, id'⟩)
    (hget : c.blocks id' = some a) (hpc : b'.pc = a.pc) (hseen : c'.Seen i w b' 0)
    (hslot : c.machine.memory.layout.firstSlot i + w = start + o)
    (hload : c'.machine.entries.load (c.machine.memory.layout.firstSlot i + w) = .code k.id o) :
    ∃ r, c.machine.memory.layout.resolve b.pc = .ok r ∧ r.index = i ∧
      r.offset.toNat / 4 + o = w ∧ (b'.words = b.words.drop o ∨ c'.Contested i w b'.words) := by
  have hp := hc.publishes
  obtain ⟨hpos, hlt⟩ := hp.inside o ho
  rw [(hf.sound.block hp.enlisted.1).1.opCount] at hlt
  have hseat := hseen.seat.congr (congrArg _ hc.memory) hpc
  have henlisted := hf.enlisted hheld hget hseat
  obtain ⟨r, s, hr, hs, hindex, hword⟩ := hf.place hp.enlisted hlt (p := a.pc) (by
    rw [← EntryTable.index?_physical, ← hslot]
    exact henlisted.2)
  obtain ⟨_, hs', rfl, rfl⟩ := hseat
  cases hs.symm.trans hs'
  refine ⟨r, hr, hindex.symm, hword.symm, or_iff_not_imp_left.mpr fun hne => ?_⟩
  refine ⟨b', { b with code := some k }, r.offset.toNat / 4, o, hseen, rfl,
    ⟨⟨id, hc.cache ▸ hp.held, hblocks ▸ Function.update_self ..⟩,
      ⟨r, hc.memory ▸ hr, hindex.symm, rfl⟩, hlt, .inr ⟨k, rfl, ?_⟩⟩, hword.symm, fun hname => ?_,
    fun h => hne h.symm⟩
  · rw [hc.memory, Nat.add_assoc, ← hword]
    exact hload
  · -- a cached block at the same address is the one that code is made for
    rw [Block.start, hpc] at hname
    cases hp.covered o ho hheld hname
    cases hget.symm.trans hp.enlisted.1
    have hstart := Option.some.inj (henlisted.2.symm.trans hp.enlisted.2)
    omega

/-- Code that is published leads where its block was decoded from memory that is still the same,
unless the block had been put back by one with other words. -/
theorem Compiles.fresh (hf : c.Follows R) (h : c.Fresh ok bad i)
    (hbad : ∀ {w words}, c'.Contested i w words → bad w words)
    (hdrop : ∀ {w words} (m : Nat), bad w words → bad (w + m) (words.drop m)) :
    c'.Fresh ok bad i := by
  have hp := hc.publishes
  have hget := hp.enlisted.1
  refine h.of_shown hc.memory hdrop fun {w o b'} hshown => ?_
  obtain ⟨id', a, hheld, hget', hpc, hwords, hcode⟩ := hc.caches hshown.cached
  have hled := hshown.led
  have hseat := hshown.seat.congr (congrArg _ hc.memory) hpc
  have hcounted := hshown.counted
  rw [hc.memory] at hled
  rw [hc.made] at hcounted
  have henlisted := hf.enlisted hheld hget' hseat
  obtain ⟨hspans, hcases⟩ := hc.load_cases hf hled.ne_null
  have hsame : a.LedTo o (c.machine.entries.load (c.machine.memory.layout.firstSlot i + w + o)) →
      bad w b'.words ∨ ∃ b w0 o0 m, c.Shown i w0 b o0 ∧ o0 ≤ m + o ∧ w = w0 + m ∧
        b'.words = b.words.drop m ∧ (c.Kept ok i w0 b o0 → b'.words.length - o ≤
          c'.machine.entries.spans.getD (c.machine.memory.layout.firstSlot i + w + o) 0) :=
    fun hled => .inr ⟨a, w, o, 0, ⟨⟨⟨id', hheld, hget'⟩, hseat, hwords ▸ hshown.inside, hled⟩,
      hcounted.imp_right Nat.lt_of_succ_lt⟩, by omega, rfl, hwords,
      fun hkept => hwords ▸ Nat.le_trans hkept.span hspans⟩
  rcases hcases with hold | ⟨hblocks, hown, o', hlt, hslot, hnew, hkind⟩
  · -- the entry was there before, so it leads into other code than the new one
    rw [hold] at hled
    rcases hcode with hcode | ⟨rfl, hcode⟩
    · exact hsame (hled.congr hcode)
    · by_cases ho : o = 0
      · exact hsame (.inl ⟨ho, hled.ne_null⟩)
      · obtain ⟨k', hk', hload⟩ := hled.resolve_left fun hstart => ho hstart.1
        cases hcode.symm.trans hk'
        have hmade := hcounted.resolve_left ho
        obtain ⟨n, a', k0, hcurrent, hid, -⟩ := (hf.linked (Nat.lt_of_succ_lt hmade)).entry hload
        exact absurd hid (hp.id_ne hf hmade hcurrent.get hcurrent.code)
  by_cases ho : o = 0
  · subst ho
    rcases hkind with rfl | ⟨hmem, hspan⟩
    · exact hsame (.inl ⟨rfl, hslot ▸ hown⟩)
    · obtain ⟨r, hr, hi, hw, hagree | hcontested⟩ :=
        hc.meets hf hblocks hmem hheld hget' hpc hshown.toSeen hslot hnew
      · refine .inr ⟨b, r.offset.toNat / 4, 0, o', ⟨⟨⟨id, hp.held, hget⟩, ⟨r, hr, hi, rfl⟩, by omega,
          .inl ⟨rfl, ?_⟩⟩, .inl rfl⟩, by omega, hw.symm, hagree, fun _ => ?_⟩
        · cases (hf.enlisted hp.held hget ⟨r, hr, hi, rfl⟩).2.symm.trans hp.enlisted.2
          exact hown
        · rw [hagree, List.length_drop]
          exact hspan
      · exact .inl (hbad hcontested)
  · -- the entry is new, so the block is the one that code was made for
    obtain ⟨k', hk', hload⟩ := hled.resolve_left fun hstart => ho hstart.1
    obtain ⟨hid, rfl⟩ := Entry.code.inj (hload.symm.trans hnew)
    rcases hcode with hcode | ⟨rfl, -⟩
    · exact absurd hid (hp.id_ne hf (hcounted.resolve_left ho) hget' (hcode ▸ hk'))
    · cases hget'.symm.trans hget
      cases henlisted.2.symm.trans hp.enlisted.2
      refine .inr ⟨b, w, 0, 0, ⟨⟨⟨id', hheld, hget⟩, hseat, by omega, .inl ⟨rfl, hown⟩⟩, .inl rfl⟩,
        by omega, rfl, hwords, fun _ => ?_⟩
      rw [hwords]
      exact (hkind.resolve_left ho).2

end Publishes

/-! ## Blocks that get an entry -/

omit [Generator γ] in
/-- Core `c'` is core `c` with an entry in `slot` for a cached block, which was just decoded or had
one before. -/
structure Enlists (R : Rules) (c c' : Core δ κ γ) (b : Block) (slot : Nat) (entry : Entry) :
    Prop where
  sound : b.Sound R
  index : c.machine.entries.index? b.start = some slot
  ne_null : entry ≠ .null
  first : ∀ {n : CodeId} {o : Nat}, entry = .code n o → o = 0
  memory : c'.machine.memory = c.machine.memory
  entries : c'.machine.entries =
    (c.machine.entries.noteSpan slot b.opCount true).store slot entry
  made : c'.made = c.made
  caches : c'.Caches b
  cached : ∀ {a : Block}, c'.Caches a →
    c.Caches a ∧ (a = b ∨ a.start ≠ b.start) ∨ a = b ∧ b.code = none

namespace Enlists

omit [Generator γ]

variable {slot : Nat} {entry : Entry} {a : Block}

variable (hn : Enlists R c c' b slot entry)
include hn

theorem spans_getD (other : Nat) : c'.machine.entries.spans.getD other 0 =
      if slot = other ∧ other < c.machine.entries.spans.size then min b.opCount 65535
      else c.machine.entries.spans.getD other 0 := by
  rw [hn.entries]
  refine (c.machine.entries.getD_spans_noteSpan slot b.opCount true other).trans ?_
  rw [if_pos rfl]

/-- Where the block is. -/
theorem seat (hf : c.Follows R) : ∃ r, c.machine.memory.layout.resolve b.pc = .ok r ∧
      c.machine.memory.layout.isCode r.index = true ∧
      slot = c.machine.memory.layout.firstSlot r.index + r.offset.toNat / 4 := by
  have hslot := hn.index
  rw [Block.start, EntryTable.index?_physical] at hslot
  exact (EntryTable.index?_eq_some_iff hf.orderly.apart hf.charted.shape.regions).mp hslot

/-- Entries in other slots lead where they did before. -/
theorem shown_of_ne (hf : c.Follows R) (hshown : c'.Shown i w a o)
    (hne : c.machine.memory.layout.firstSlot i + w + o ≠ slot) :
    c.Shown i w a o := by
  have hled := hshown.led
  have hseat := hshown.seat.congr (congrArg _ hn.memory) rfl
  rw [hn.memory, hn.entries, EntryTable.load_store_of_ne _ hne] at hled
  rcases hn.cached hshown.cached with ⟨hcached, -⟩ | ⟨rfl, hcode⟩
  · exact ⟨⟨hcached, hseat, hshown.inside, hled⟩, hn.made ▸ hshown.counted⟩
  · -- a block without code has no entry but that of its start
    exfalso
    rcases hled with ⟨rfl, -⟩ | ⟨k, hk, -⟩
    · obtain ⟨r, hr, -, rfl⟩ := hn.seat hf
      obtain ⟨_, hr', rfl, rfl⟩ := hseat
      cases hr.symm.trans hr'
      exact hne rfl
    · cases hcode.symm.trans hk

/-- The entry leads to the start of the block, and of no block that has other words, unless the two
are at odds now. -/
theorem shown_of_eq (hf : c.Follows R) (hshown : c'.Shown i w a o)
    (heq : c.machine.memory.layout.firstSlot i + w + o = slot) :
    o = 0 ∧ c.Lies b i w ∧ (a.words = b.words ∨ c'.Contested i w a.words) := by
  have hled := hshown.led
  have hsize : slot < (c.machine.entries.noteSpan slot b.opCount true).slots.size :=
    EntryTable.index?_lt_size hf.orderly.apart hf.charted.shape hn.index
  rw [hn.memory, hn.entries, heq, EntryTable.load_store_self _ hsize] at hled
  have ho : o = 0 := by
    rcases hled with ⟨hzero, -⟩ | ⟨k, -, hk⟩
    · exact hzero
    · exact hn.first hk
  subst ho
  rcases hn.cached hshown.cached with ⟨hcached, hname⟩ | ⟨rfl, -⟩
  · obtain ⟨id, hheld, hget⟩ := hcached
    have hseat := hshown.seat.congr (congrArg _ hn.memory) rfl
    have henlisted := hf.enlisted hheld hget hseat
    obtain ⟨s, r, hs, hr, hsame, hword⟩ := hf.place henlisted hshown.inside (p := b.pc) (by
      rw [← EntryTable.index?_physical, heq]
      exact hn.index)
    obtain ⟨_, hs', hi, hw⟩ := hseat
    cases hs.symm.trans hs'
    have hindex : r.index = i := hsame.trans hi
    have hword : r.offset.toNat / 4 = w := hword.trans hw
    refine ⟨rfl, ⟨r, hr, hindex, hword⟩, ?_⟩
    by_cases hwords : a.words = b.words
    · exact .inl hwords
    refine .inr ⟨a, b, w, 0, hshown.toSeen, rfl, ⟨hn.caches,
      ⟨r, hn.memory ▸ hr, hindex, hword⟩, hn.sound.nonempty, .inl ⟨rfl, ?_⟩⟩, rfl, ?_,
      fun h => hwords h.symm⟩
    · exact hshown.led.ne_null
    · rw [show b.pc + (0 : Nat).toUInt32 * 4 = b.pc from UInt32.add_zero _]
      exact hname.resolve_left fun hsame => hwords (congrArg Block.words hsame)
  · exact ⟨rfl, hshown.seat.congr (congrArg _ hn.memory) rfl, .inl rfl⟩

/-- A block that gets an entry is as good as its words. -/
theorem fresh (hf : c.Follows R) (h : c.Fresh ok bad i)
    (hbad : ∀ {w words}, c'.Contested i w words → bad w words)
    (hword : ∀ {r n v}, c.machine.memory.layout.resolve b.pc = .ok r → r.index = i →
      b.words[n]? = some v → ok (r.offset.toNat / 4 + n) v) : c'.Fresh ok bad i := by
  intro w o a hshown
  by_cases hslot : c.machine.memory.layout.firstSlot i + w + o = slot
  · obtain ⟨rfl, ⟨r, hr, hi, rfl⟩, hwords | hcontested⟩ := hn.shown_of_eq hf hshown hslot
    · refine .inl ⟨?_, fun {n v} _ hvalue => hword hr hi (hwords ▸ hvalue)⟩
      have hbound := hn.sound.bounded
      have hcount := hn.sound.opCount
      have hsize := EntryTable.index?_lt_size hf.orderly.apart hf.charted.shape hn.index
      rw [hn.memory, hslot, hn.spans_getD,
        if_pos ⟨rfl, by rw [hf.charted.marked.spans]; exact hsize⟩, hwords]
      omega
    · exact .inr (hbad hcontested)
  · refine (h w o a (hn.shown_of_ne hf hshown hslot)).imp_left fun hkept => ⟨?_, hkept.word⟩
    rw [hn.memory, hn.spans_getD, if_neg fun heq => hslot heq.1.symm]
    exact hkept.span

end Enlists

/-! ## Every step -/

/-- What a step does to entries and cached blocks. Most lose some. The others give an entry to a
block that has just been decoded or to one that is put back, or make code. -/
theorem Step.loses_or (hstep : Step R c c') (hs : c.Sound R) : c.Loses c' ∨
    (∃ b slot entry, Enlists R c c' b slot entry ∧
      ((entry = .pending ∨ entry = .memset) ∧ (∃ pc, R.start pc ∧ c.Decoded pc b) ∨
        c.config.reuseIdenticalBlocks = true ∧ c.tally.reused < c'.tally.reused)) ∨
    ∃ id b k offsets start t g, c.Compiles R c' id b k offsets start t g := by
  have hold : ∀ {line : CacheLine} {b' : Block}, c.cache.Holds line →
      c.blocks line.block = some b' → c.cache.Holds line ∧ ∃ b, c.blocks line.block = some b ∧
        b'.pc = b.pc ∧ b'.words = b.words ∧ b'.code = b.code :=
    fun hheld hget => ⟨hheld, _, hget, rfl, rfl, rfl⟩
  have hless : ∀ {id : BlockId} {line : CacheLine} {b' : Block}, c.cache.Holds line →
      Function.update c.blocks id none line.block = some b' → c.cache.Holds line ∧
        ∃ b, c.blocks line.block = some b ∧ b'.pc = b.pc ∧ b'.words = b.words ∧ b'.code = b.code := by
    intro id line b' hheld hget
    rcases update_eq_some hget with ⟨hnew, -⟩ | hget
    · cases hnew
    · exact hold hheld hget
  have hwaits : ∀ {entry : Entry}, entry = .pending ∨ entry = .memset →
      entry ≠ .null ∧ ∀ {n : CodeId} {o : Nat}, entry = .code n o → o = 0 := by
    rintro entry (rfl | rfl) <;> exact ⟨Entry.noConfusion, Entry.noConfusion⟩
  cases hstep with
  | log | miss | charge | touch | release =>
    exact .inl ⟨rfl, .refl _, Nat.le_refl _, hold⟩
  | change hget hkeeps =>
    refine .inl ⟨rfl, .refl _, Nat.le_refl _, fun hheld hget' => ?_⟩
    rcases update_eq_some hget' with ⟨hnew, hid⟩ | hget'
    · cases hnew
      exact ⟨hheld, _, hid ▸ hget, hkeeps.pc, hkeeps.words, hkeeps.code⟩
    · exact hold hheld hget'
  | @enroll pc b slot entry hstart hdecoded hslot hnew hentry =>
    obtain ⟨hsound, -, hcode, -⟩ := hdecoded.sound hstart hs.maxBlockOps
    refine .inr (.inl ⟨b, slot, entry, ⟨hsound, hslot, (hwaits hentry).1, (hwaits hentry).2, rfl,
      rfl, rfl, ⟨c.nextBlock, (BlockCache.holds_insert hs.cache).mpr (.inl rfl),
        Function.update_self ..⟩, ?_⟩, .inl ⟨hentry, pc, hstart, hdecoded⟩⟩)
    rintro a ⟨id, hheld, hget⟩
    rcases (BlockCache.holds_insert hs.cache).mp hheld with heq | hheld
    · cases show id = c.nextBlock from congrArg CacheLine.block heq
      cases (Function.update_self ..).symm.trans hget
      exact .inr ⟨rfl, hcode⟩
    · rcases update_eq_some hget with ⟨-, hid⟩ | hget
      · exact absurd hid (hs.uncached_nextBlock hheld)
      · exact .inl ⟨⟨id, hheld, hget⟩, .inr (hnew hheld)⟩
  | lend =>
    -- a block that is lent is not cached
    refine .inl ⟨rfl, .refl _, Nat.le_refl _, fun hheld hget' => ?_⟩
    rcases update_eq_some hget' with ⟨-, hid⟩ | hget'
    · exact absurd hid (hs.uncached_nextBlock hheld)
    · exact hold hheld hget'
  | drop => exact .inl ⟨rfl, .refl _, Nat.le_refl _, hless⟩
  | @kill id b hget hheld =>
    refine .inl ⟨rfl, .unregister c.cache _ id b, Nat.le_refl _, fun hline hget' => ?_⟩
    replace hline := ((BlockCache.holds_erase hs.cache hheld).mp hline).1
    rcases update_eq_some hget' with ⟨hnew, hid⟩ | hget'
    · cases hnew
      exact ⟨hline, b, hid.symm ▸ hget, rfl, rfl, rfl⟩
    · exact hold hline hget'
  | publish hp hload =>
    exact .inr (.inr ⟨_, _, _, _, _, _, _, hp, rfl, rfl, rfl, .inr ⟨hload, rfl, rfl⟩⟩)
  | abandon hp => exact .inr (.inr ⟨_, _, _, _, _, _, _, hp, rfl, rfl, rfl, .inl ⟨rfl, rfl⟩⟩)
  | retire id slots => exact .inl ⟨rfl, .retire _ id slots, Nat.le_refl _, hold⟩
  | demote slot id => exact .inl ⟨rfl, .demote _ slot id, Nat.le_refl _, hold⟩
  | @republish id b slot entry hreuse henlisted hheld hentry =>
    have hentry' : entry ≠ .null ∧ ∀ {n : CodeId} {o : Nat}, entry = .code n o → o = 0 := by
      rcases hentry with hpending | hmemset | ⟨k, -, rfl⟩
      · exact hwaits (.inl hpending)
      · exact hwaits (.inr hmemset)
      · exact ⟨Entry.noConfusion, fun h => (Entry.code.inj h).2.symm⟩
    refine .inr (.inl ⟨b, slot, entry, ⟨(hs.block henlisted.1).1, henlisted.2, hentry'.1, hentry'.2,
      rfl, rfl, rfl, ⟨id, hheld, henlisted.1⟩, ?_⟩, .inr ⟨hreuse, Nat.lt_succ_self _⟩⟩)
    rintro a ⟨id', hheld', hget'⟩
    refine .inl ⟨⟨id', hheld', hget'⟩, ?_⟩
    by_cases hstart : a.start = b.start
    · cases show id' = id from congrArg CacheLine.block (hs.cache.start hheld' hheld hstart)
      exact .inl (Option.some.inj (hget'.symm.trans henlisted.1))
    · exact .inr hstart
  | @scrap k => exact .inl ⟨rfl, .retire _ k.id k.slots, Nat.le_refl _, hold⟩
  | @bury n b =>
    cases b.code with
    | none => exact .inl ⟨rfl, .refl _, Nat.le_refl _, hless⟩
    | some k => exact .inl ⟨rfl, .retire _ k.id k.slots, Nat.le_refl _, hless⟩

/-- No step lets an entry lead to something that is not `ok`, as long as what stands in memory is,
and whatever is put back. -/
theorem Step.fresh (hstep : Step R c c') (hf : c.Follows R) (h : c.Fresh ok bad i)
    (hbad : ∀ {w words}, c'.Contested i w words → bad w words)
    (hdrop : ∀ {w words} (m : Nat), bad w words → bad (w + m) (words.drop m))
    (hcurrent : ∀ {w v}, c.machine.memory.Stores i w v → ok w v)
    (hreuse : c.config.reuseIdenticalBlocks = true → ∀ {w v}, ok w v) : c'.Fresh ok bad i := by
  rcases hstep.loses_or hf.sound with
    hloses | ⟨b, slot, entry, hn, hgiven⟩ | ⟨id, b, k, offsets, start, t, g, hc⟩
  · exact hloses.fresh h
  · refine hn.fresh hf h hbad fun {r n v} hr hi hvalue => ?_
    rcases hgiven with ⟨-, pc, hstart, hdecoded⟩ | ⟨hon, -⟩
    · obtain ⟨-, rfl, -, -, -, r', data, hsupplies⟩ := hdecoded.sound hstart hf.sound.maxBlockOps
      cases hr.symm.trans hsupplies.resolves
      refine hcurrent ⟨data, hi ▸ hsupplies.bytes, ?_⟩
      have hword := hsupplies.word (List.getElem?_eq_some_iff.mp hvalue).1
      rw [hvalue] at hword
      rw [Option.some.inj hword]
      congr 1
      omega
    · exact hreuse hon
  · exact hc.fresh hf h hbad hdrop

/-! ## Every change of the machine -/

omit [Generator γ] in
/-- The bytes that guest code writes are named by the address that is invalidated. -/
theorem names_of_places {addr length : UInt32} {m : Memory δ} (hl : m.layout.Orderly)
    {index offset i k : Nat} (hplaces : m.Places addr length index offset)
    (hcode : m.layout.isCode i = true) (hrange : Memory.range index offset length.toNat i k) :
    m.layout.Names addr length.toNat i k := by
  obtain ⟨origin, r, hr, rfl, rfl, hor⟩ := hplaces.resolves
  obtain ⟨rfl, hbytes⟩ := hrange
  rcases hor with rfl | rfl
  · exact ⟨r, hr, rfl, hbytes⟩
  · refine ⟨r, Layout.Apart.resolve_paddr hl.apart hr fun {s} hs => ?_, rfl, hbytes⟩
    obtain ⟨s', hs', hown, -⟩ := Layout.inside_of_resolve hr
    cases hs.symm.trans hs'
    have hlow := hl.low hs (by rwa [Layout.canonical_of_not_isAlias hs hown])
    omega

variable {free : Prop}

omit [Generator γ] in
/-- Whatever happens to the machine, it keeps its map and comes to no new entries. -/
theorem lowers_of_change {m m' : Machine δ κ} (h : Machine.Change free m m') :
    m.entries.Lowers m'.entries ∧ ∃ W, m.memory.SameExcept W m'.memory := by
  cases h with
  | control hmemory hentries | overwrite _ hmemory hentries =>
    rw [hentries]
    exact ⟨.refl _, _, hmemory⟩
  | @write _ addr length _ _ _ hmemory hentries =>
    rw [hentries]
    exact ⟨.invalidate _ addr length, _, hmemory⟩
  | demote slot id => exact ⟨.demote _ slot id, _, .refl Memory.nowhere _⟩
  | invalidate addr length => exact ⟨.invalidate _ addr length, _, .refl Memory.nowhere _⟩
  | invalidateAll => exact ⟨.invalidateAll _, _, .refl Memory.nowhere _⟩
  | mode => exact ⟨.refl _, _, .refl Memory.nowhere _⟩

/-- What is needed to follow entries stays, and so does the map. -/
theorem Move.follows (hmove : Move R free c c') (hf : c.Follows R) :
    c'.Follows R ∧ c'.machine.memory.layout = c.machine.memory.layout := by
  cases hmove with
  | step hstep =>
    obtain ⟨entries, log, hmachine⟩ := hstep.machine
    have hmemory : c'.machine.memory = c.machine.memory := by rw [hmachine]
    exact ⟨⟨hstep.sound hf.sound, hstep.linked hf.sound hf.linked,
      hstep.charted hf.sound hf.charted, hmemory ▸ hf.orderly⟩, congrArg _ hmemory⟩
  | machine hchange =>
    obtain ⟨hlowers, W, hmemory⟩ := lowers_of_change hchange
    exact ⟨hf.withMachine hmemory hlowers, hmemory.layout⟩

theorem Evolves.follows (h : Evolves R free c c') (hf : c.Follows R) :
    c'.Follows R ∧ c'.machine.memory.layout = c.machine.memory.layout := by
  induction h with
  | refl => exact ⟨hf, rfl⟩
  | tail _ hmove ih =>
    obtain ⟨hf', hlayout⟩ := ih
    obtain ⟨hf'', hlayout'⟩ := hmove.follows hf'
    exact ⟨hf'', hlayout'.trans hlayout⟩

omit [Generator γ] in
/-- Without new entries, words that are `ok` stay so. -/
theorem Fresh.withMachine (h : c.Fresh ok bad i)
    (hlayout : m.memory.layout = c.machine.memory.layout)
    (hlowers : c.machine.entries.Lowers m.entries) (hok : ∀ {w v}, ok w v → ok' w v) :
    Fresh ok' bad i { c with machine := m } :=
  h.lower hlayout hlowers (Nat.le_refl _) (fun hcached => ⟨_, hcached, rfl, rfl, rfl⟩)
    fun _ hkept _ hn hvalue => hok (hkept.word hn hvalue)

/-- Whatever happens, entries of a region with one name span what they lead to. -/
theorem Evolves.spans (h : Evolves R free c c') (hf : c.Follows R)
    (hone : c.machine.memory.layout.OneName R.start i)
    (hfresh : c.Fresh (fun _ _ => True) (fun _ _ => False) i) :
    c'.Fresh (fun _ _ => True) (fun _ _ => False) i := by
  induction h with
  | refl => exact hfresh
  | @tail d d' hevolves hmove ih =>
    obtain ⟨hf', hlayout⟩ := Evolves.follows hevolves hf
    obtain ⟨hf'', hlayout'⟩ := hmove.follows hf'
    have hone' : d'.machine.memory.layout.OneName R.start i := by
      rw [hlayout', hlayout]
      exact hone
    cases hmove with
    | step hstep =>
      exact hstep.fresh hf' ih (fun h => hf''.not_contested hone' h) (fun _ h => h)
        (fun _ => trivial) fun _ _ _ => trivial
    | machine hchange => exact ih.withMachine hlayout' (lowers_of_change hchange).1 fun h => h

/-- Guest code invalidates what it writes, and identical blocks are not reused. -/
structure Guarded (c : Core δ κ γ) : Prop where
  mode : c.machine.hostInvalidationOnly = false
  reuse : c.config.reuseIdenticalBlocks = false

theorem Move.guarded (hmove : Move R False c c') (h : c.Guarded) : c'.Guarded := by
  cases hmove with
  | step hstep =>
    obtain ⟨entries, log, hmachine⟩ := hstep.machine
    refine ⟨?_, hstep.config ▸ h.reuse⟩
    rw [hmachine]
    exact h.mode
  | machine hchange =>
    refine ⟨?_, h.reuse⟩
    cases hchange with
    | control _ _ hmode | write _ _ _ hmode | overwrite _ _ _ hmode => exact hmode.trans h.mode
    | demote | invalidate | invalidateAll => exact h.mode
    | mode hfree => exact hfree.elim

/-- Guest code leaves nothing out of date behind. -/
theorem Move.fresh (hmove : Move R False c c') {missed : Nat → Nat → Prop} (hf : c.Follows R)
    (hg : c.Guarded) (h : c.Fresh (c.machine.memory.Matches missed i) bad i)
    (hbad : ∀ {w words}, c'.Contested i w words → bad w words)
    (hdrop : ∀ {w words} (m : Nat), bad w words → bad (w + m) (words.drop m)) :
    c'.Fresh (c'.machine.memory.Matches missed i) bad i := by
  cases hmove with
  | step hstep =>
    obtain ⟨entries, log, hmachine⟩ := hstep.machine
    have hmemory : c'.machine.memory = c.machine.memory := by rw [hmachine]
    rw [hmemory]
    refine hstep.fresh hf h hbad hdrop .inl fun hon => ?_
    cases hon.symm.trans hg.reuse
  | machine hchange =>
    have hlowers := (lowers_of_change hchange).1
    cases hchange with
    | control hmemory =>
      exact h.withMachine hmemory.layout hlowers fun hmatches =>
        hmatches.sameExcept hmemory fun _ hw => False.elim hw
    | write hplaces hmemory hentries =>
      refine h.invalidated hf hmemory.layout hentries fun hcode hnot hmatches => ?_
      exact hmatches.sameExcept hmemory fun hk hw =>
        absurd (names_of_places hf.orderly hplaces hcode hw) (hnot _ hk)
    | overwrite hallowed =>
      rcases hallowed with hfree | hmode
      · exact hfree.elim
      · cases hmode.symm.trans hg.mode
    | demote | invalidate | invalidateAll => exact h.withMachine rfl hlowers fun h => h
    | mode hfree => exact hfree.elim

end Core

end Dynarec
