/-
  Dynarec.Proofs.Engine.Upkeep

  Engines whose host invalidates what it writes.

  As long as guest code invalidates what it writes, too, a block that comes
  back has the words that are in memory. There are two ways to get another one.
  Words that the host writes are found one by one, and may lie in several
  regions, but what is invalidated lies in the region of the first one. And
  where guest code is run at two addresses that lead to the same word, the
  block of one of them can be made anew while that of the other one stays.
-/
import Dynarec.Proofs.AliasChains
import Dynarec.Proofs.Decode
import Dynarec.Proofs.Engine.Freshness

namespace Dynarec

variable {δ κ γ : Type}

/-- The words stand in memory from `pc` on, in the bytes `data` of the region that `r` names, apart
from those with a byte in `missed`. -/
structure Memory.SuppliesBut (m : Memory δ) (missed : Nat → Nat → Prop) (pc : UInt32)
    (words : List UInt32) (r : Resolved) (data : ByteArray) : Prop where
  resolves : m.layout.resolve pc = .ok r
  bytes : m.bytes? r.index = some data
  fits : r.offset.toNat / 4 * 4 + 4 * words.length ≤ data.size
  word : ∀ {n : Nat}, n < words.length →
    words[n]? = some (Bytes.wordAt data (r.offset.toNat / 4 * 4 + 4 * n)) ∨
      ∃ k, k / 4 = r.offset.toNat / 4 + n ∧ missed r.index k

/-- A first word that is not the one in memory has a byte in `missed`. -/
theorem Memory.SuppliesBut.missed {m : Memory δ} {missed : Nat → Nat → Prop} {pc old new : UInt32}
    {words : List UInt32} {r : Resolved} {data : ByteArray}
    (h : m.SuppliesBut missed pc words r data) (haligned : r.offset.toNat % 4 = 0)
    (hold : words[0]? = some old) (hread : m.readWord pc = .ok new) (hne : old ≠ new) :
    ∃ k, k / 4 = r.offset.toNat / 4 ∧ missed r.index k := by
  rcases h.word (List.getElem?_eq_some_iff.mp hold).1 with hword | hmissed
  · refine absurd ?_ hne
    obtain ⟨r', data', hr', hdata', -, rfl⟩ := readWord_eq_ok_iff.mp hread
    cases hr'.symm.trans h.resolves
    cases hdata'.symm.trans h.bytes
    rw [hold, Nat.div_mul_cancel (Nat.dvd_of_mod_eq_zero haligned)] at hword
    exact Option.some.inj hword
  · exact hmissed

/-- Memory that was made of a list of regions has no bytes but theirs. -/
theorem Memory.sized_of_ofRegions {specs : Array (RegionSpec δ)} {m : Memory δ}
    (h : ofRegions specs = .ok m) : m.Sized := by
  obtain ⟨hlayout, hcontents⟩ := ofRegions_eq_ok_iff.mp h
  intro i data hdata
  rw [bytes?, hcontents, Array.getElem?_map] at hdata
  cases hspec : specs[i]? with
  | none =>
    rw [hspec] at hdata
    cases hdata
  | some spec =>
    have hregion : m.layout.regions[i]? = some spec.region := by
      rw [Layout.regions_of_ofRegions hlayout, Array.getElem?_map, hspec, Option.map_some]
    rw [hspec, Option.map_some, RegionSpec.contents] at hdata
    refine ⟨spec.region, hregion, ?_⟩
    unfold Region.isDirect
    cases hbacking : spec.region.backing with
    | ram | rom =>
      rw [hbacking] at hdata
      cases hdata
      exact ⟨rfl, (Bytes.size_copy ..).trans (Bytes.size_zeros _)⟩
    | device =>
      rw [hbacking] at hdata
      cases hdevice : spec.device with
      | none =>
        rw [hdevice] at hdata
        cases hdata
      | some d =>
        rw [hdevice] at hdata
        cases hdata
    | aliasOf target =>
      rw [hbacking] at hdata
      cases hdata

theorem Memory.sized_loaded [Device δ] (specs : Array (RegionSpec δ)) (addr : UInt32)
    (words : List UInt32) : (loaded specs addr words).Sized := by
  unfold loaded
  split
  · rename_i m hm
    exact (HostWrite.sameExcept_writeWords m _ _).sized (sized_of_ofRegions hm)
  · intro i data hdata
    cases hdata

/-- A block that is not out of date has its entry. -/
theorem BlockCache.load_ne_null_of_isOutdated {t : EntryTable} {b : Block} {slot : Nat}
    (hslot : t.index? b.start = some slot) (h : isOutdated t b = false) : t.load slot ≠ .null := by
  unfold isOutdated at h
  rw [hslot] at h
  intro hnull
  replace h : (t.load slot).isNull = false := h
  rw [hnull] at h
  cases h

/-- Whatever some generator of this kind makes. -/
def Rules.made (γ : Type) [Generator γ] (start : UInt32 → Prop) : Rules where
  start := start
  makes source p targets := ∃ (g : γ) (cache : RegisterCache) (emitted : Emitted),
    (Generator.compile g source cache).result = .ok emitted ∧ emitted.program = p ∧
      emitted.targets = targets

theorem Rules.admits_made [Generator γ] (start : UInt32 → Prop) : (Rules.made γ start).Admits γ :=
  fun g _ cache emitted hmade => ⟨g, cache.reset, emitted, hmade, rfl, rfl⟩

/-- The host has written something and invalidated it. -/
def Core.Rewritten [Device δ] (w : HostWrite) (c c' : Core δ κ γ) : Prop :=
  ∃ m, c' = { c with machine := m } ∧ m.memory = (w.apply c.machine.memory).2 ∧
    m.entries = (c.machine.entries.invalidate w.addr w.length.toUInt32).2 ∧
    m.hostInvalidationOnly = c.machine.hostInvalidationOnly

theorem Core.Rewritten.sameExcept [Device δ] {w : HostWrite} {c c' : Core δ κ γ} {l : Layout}
    (h : Rewritten w c c') (hlayout : c.machine.memory.layout = l) :
    ∃ m, c' = { c with machine := m } ∧ c.machine.memory.SameExcept (w.Writes l) m.memory ∧
      m.entries = (c.machine.entries.invalidate w.addr w.length.toUInt32).2 ∧
      m.hostInvalidationOnly = c.machine.hostInvalidationOnly := by
  obtain ⟨m, hcore, hmemory, hrest⟩ := h
  refine ⟨m, hcore, ?_, hrest⟩
  rw [hmemory, ← hlayout]
  exact w.sameExcept_apply_writes c.machine.memory

namespace Engine

variable {e e' : Engine δ κ γ}

/-- An engine that is asked to invalidate something does that. -/
theorem ensures_invalidate_entries (addr length : UInt32) :
    Ensures (invalidate addr length) e fun _ e' => ∃ m, e'.core = { e.core with machine := m } ∧
      m.memory = e.machine.memory ∧ m.entries = (e.machine.entries.invalidate addr length).2 ∧
      m.hostInvalidationOnly = e.machine.hostInvalidationOnly := by
  unfold invalidate
  refine Ensures.bind (P := fun _ e1 => ∃ m, e1.core = { e.core with machine := m } ∧
    m.memory = e.machine.memory ∧ m.entries = (e.machine.entries.invalidate addr length).2 ∧
    m.hostInvalidationOnly = e.machine.hostInvalidationOnly)
    (Ensures.modifyGet ⟨_, rfl, rfl, rfl, rfl⟩) ?_
  intro cleared e1 h1
  split
  · exact Ensures.of_eq rfl h1
  · exact Ensures.pure h1

/-! ## Moments -/

/-- Byte `k` of the region at position `i` has been written by the host but not invalidated. -/
def Strayed (l : Layout) (writes : List HostWrite) (i k : Nat) : Prop :=
  ∃ w ∈ writes, w.Strays l i k

/-- At some moment the entry of a block that consisted of `words`, or went on with them, led to a
block under another name as well, which had other words. -/
def Usurped (past : List (Core δ κ γ)) (i w : Nat) (words : List UInt32) : Prop :=
  ∃ c ∈ past, ∃ w0 m whole, c.Contested i w0 whole ∧ w = w0 + m ∧ words = whole.drop m

variable {R : Rules} {l : Layout} {g : γ} {writes : List HostWrite} {past : List (Core δ κ γ)}
  {c c' : Core δ κ γ}

theorem Usurped.mono {past' : List (Core δ κ γ)} {i w : Nat} {words : List UInt32}
    (h : Usurped past i w words) (hsub : past ⊆ past') : Usurped past' i w words := by
  obtain ⟨c, hc, hrest⟩ := h
  exact ⟨c, hsub hc, hrest⟩

theorem Usurped.drop {i w : Nat} {words : List UInt32} (h : Usurped past i w words) (n : Nat) :
    Usurped past i (w + n) (words.drop n) := by
  obtain ⟨c, hc, w0, m, whole, hcontested, rfl, rfl⟩ := h
  exact ⟨c, hc, w0, m + n, whole, hcontested, Nat.add_assoc .., List.drop_drop⟩

variable [Device δ] [Generator γ]

/-- A new engine over map `l` without background compiler. -/
inductive IsNew (l : Layout) (g : γ) : Engine δ κ γ → Prop
  | create {memory : Memory δ} (hlayout : memory.layout = l) (hsized : memory.Sized) (cop0 cop2 : κ)
      {config : Config} (log : Log) (hsync : config.threaded = false) :
      IsNew l g (create memory cop0 cop2 config g log)

/-- Moments that a core goes through from that of a new engine on, with the last one in front. The
host invalidates each of `writes`, and so does guest code what it writes; identical blocks are not
reused. -/
inductive Trail (l : Layout) (g : γ) (R : Rules) :
    List HostWrite → List (Core δ κ γ) → Core δ κ γ → Prop
  | new {e : Engine δ κ γ} (hnew : IsNew l g e) (hguarded : e.core.Guarded) :
      Trail l g R [] [e.core] e.core
  | move {writes : List HostWrite} {past : List (Core δ κ γ)} {c c' : Core δ κ γ}
      (h : Trail l g R writes past c) (hmove : Core.Move R False c c') :
      Trail l g R writes (c' :: past) c'
  | write {writes : List HostWrite} {past : List (Core δ κ γ)} {c c' : Core δ κ γ} {w : HostWrite}
      (h : Trail l g R writes past c) (hwrite : Core.Rewritten w c c') :
      Trail l g R (w :: writes) (c' :: past) c'

omit [Device δ] in
theorem IsNew.follows (h : IsNew l g e) (hl : l.Orderly) :
    e.core.Follows R ∧ e.machine.memory.layout = l := by
  obtain @⟨memory, rfl, hsized, cop0, cop2, config, log, hsync⟩ := h
  refine ⟨⟨sound_create memory cop0 cop2 g log hsync, fun _ => linked_create .., ?_, hl⟩, rfl⟩
  exact {
    shape := .refl _
    marked := EntryTable.marked_ofLayout _ _
    sized := hsized
    block := fun {id b} hget => by cases (Registry.get?_empty id).symm.trans hget }

omit [Device δ] in
/-- A new engine has no blocks that could be out of date. -/
theorem IsNew.fresh (h : IsNew l g e) (ok : Nat → UInt32 → Prop) (bad : Nat → List UInt32 → Prop)
    (i : Nat) : e.core.Fresh ok bad i := by
  intro w o b hshown
  obtain ⟨id, hheld, -⟩ := hshown.cached
  cases h
  exact absurd hheld (BlockCache.not_holds_empty _)

namespace Trail

variable (h : Trail l g R writes past c)
include h

theorem mem : c ∈ past := by
  cases h <;> exact List.mem_cons_self

/-- Entries can be followed at all moments. -/
theorem follows (hl : l.Orderly) : ∀ d ∈ past, d.Follows R ∧ d.machine.memory.layout = l := by
  induction h with
  | new hnew => exact List.forall_mem_singleton.mpr (hnew.follows hl)
  | @move _ _ c c' htrail hmove ih =>
    obtain ⟨hf, hlayout⟩ := ih c htrail.mem
    obtain ⟨hf', hlayout'⟩ := hmove.follows hf
    exact List.forall_mem_cons.mpr ⟨⟨hf', hlayout'.trans hlayout⟩, ih⟩
  | @write _ _ c c' w htrail hwrite ih =>
    obtain ⟨hf, hlayout⟩ := ih c htrail.mem
    obtain ⟨m, rfl, hsame, hentries, -⟩ := hwrite.sameExcept hlayout
    refine List.forall_mem_cons.mpr ⟨⟨hf.withMachine hsame ?_, hsame.layout.trans hlayout⟩, ih⟩
    rw [hentries]
    exact .invalidate _ _ _

/-- Entries lead to what is up to date, unless it has been usurped. -/
theorem fresh (hl : l.Orderly) : c.Guarded ∧
    ∀ i, c.Fresh (c.machine.memory.Matches (Strayed l writes) i) (Usurped past i) i := by
  induction h with
  | new hnew hguarded => exact ⟨hguarded, fun i => hnew.fresh _ _ i⟩
  | @move _ past c c' htrail hmove ih =>
    obtain ⟨hguarded, hfresh⟩ := ih
    have hf := (htrail.follows hl c htrail.mem).1
    refine ⟨hmove.guarded hguarded, fun i => hmove.fresh hf hguarded ((hfresh i).mono (fun h => h)
      fun h => h.mono (List.subset_cons_self ..)) ?_ fun n h => h.drop n⟩
    exact fun hcontested => ⟨c', List.mem_cons_self, _, 0, _, hcontested, rfl, rfl⟩
  | @write writes past c c' w htrail hwrite ih =>
    obtain ⟨hguarded, hfresh⟩ := ih
    obtain ⟨hf, hlayout⟩ := htrail.follows hl c htrail.mem
    obtain ⟨m, rfl, hsame, hentries, hmode⟩ := hwrite.sameExcept hlayout
    refine ⟨⟨hmode.trans hguarded.mode, hguarded.reuse⟩, fun i => ?_⟩
    have hmore : c.Fresh (c.machine.memory.Matches (Strayed l (w :: writes)) i)
        (Usurped ({ c with machine := m } :: past) i) i := by
      refine (hfresh i).mono (fun hmatches => hmatches.imp_right ?_) fun h =>
        h.mono (List.subset_cons_self ..)
      rintro ⟨k, hk, w', hw', hstrays⟩
      exact ⟨k, hk, w', List.mem_cons_of_mem _ hw', hstrays⟩
    refine hmore.invalidated hf hsame.layout hentries fun _ hnot hmatches => ?_
    -- what is not named by the range that is invalidated has strayed
    rw [hlayout] at hnot
    exact hmatches.sameExcept hsame fun hk hw => ⟨w, List.mem_cons_self, hw, hnot _ hk⟩

/-- Where a region has one name no entry leads to two blocks. -/
theorem not_usurped (hl : l.Orderly) {i : Nat} (hone : l.OneName R.start i) {w : Nat}
    {words : List UInt32} : ¬ Usurped past i w words := by
  rintro ⟨d, hd, w0, m, whole, hcontested, -⟩
  obtain ⟨hf, rfl⟩ := h.follows hl d hd
  exact hf.not_contested hone hcontested

theorem evolves (hevolves : Core.Evolves R False c c') : ∃ past', Trail l g R writes past' c' := by
  induction hevolves with
  | refl => exact ⟨past, h⟩
  | tail _ hmove ih =>
    obtain ⟨past', htrail⟩ := ih
    exact ⟨_, htrail.move hmove⟩

end Trail

/-! ## Engines -/

variable [Coprocessor κ]

/-- The host has written something and invalidated it. -/
def Rewrites (w : HostWrite) (e e' : Engine δ κ γ) : Prop :=
  ∃ (fuel : Nat) (e1 : Engine δ κ γ), (HostCall.write w).perform fuel e = .ok () e1 ∧
    (HostCall.invalidate w.addr w.length.toUInt32).perform fuel e1 = .ok () e'

theorem Rewrites.rewritten {w : HostWrite} (h : Rewrites w e e') :
    Core.Rewritten w e.core e'.core := by
  obtain ⟨fuel, e1, hwrite, hinvalidate⟩ := h
  have hwritten : Ensures ((HostCall.write w).perform fuel) e fun _ e1 => e1.core = { e.core with
      machine := { e.machine with memory := (w.apply e.machine.memory).2 } } :=
    Ensures.of_eq rfl rfl
  replace hwritten := hwritten.ok hwrite
  obtain ⟨m, hcore, hmemory, hentries, hmode⟩ :=
    (ensures_invalidate_entries w.addr w.length.toUInt32).ok hinvalidate
  have hmachine : e1.machine = { e.machine with memory := (w.apply e.machine.memory).2 } :=
    congrArg Core.machine hwritten
  rw [hmachine] at hmemory hentries hmode
  exact ⟨m, by rw [hcore, hwritten], hmemory, hentries, hmode⟩

/-- An engine over map `l` without background compiler, between calls from the host or inside of
one. Guest code is dispatched at addresses of `start` only and invalidates what it writes, and so
does the host after each of `writes`. Identical blocks are not reused. -/
inductive Tended (l : Layout) (g : γ) (start : UInt32 → Prop) :
    List HostWrite → Engine δ κ γ → Prop
  | new {e : Engine δ κ γ} (hnew : IsNew l g e) (hguarded : e.core.Guarded) : Tended l g start [] e
  | call {writes : List HostWrite} {e e' : Engine δ κ γ} {fuel : Nat} {call : HostCall}
      (h : Tended l g start writes e) (htame : call.isTame = true)
      (hstart : call.StartsIn start fuel e) (hcall : call.perform fuel e = .ok () e') :
      Tended l g start writes e'
  | write {writes : List HostWrite} {e e' : Engine δ κ γ} {w : HostWrite}
      (h : Tended l g start writes e) (hwrite : Rewrites w e e') : Tended l g start (w :: writes) e'
  | clock {writes : List HostWrite} {e : Engine δ κ γ} (h : Tended l g start writes e)
      (clock : Clock) : Tended l g start writes { e with machine := { e.machine with clock } }
  | dispatch {writes : List HostWrite} {e e' : Engine δ κ γ} {fuel : Nat} {pc next : UInt32}
      (h : Tended l g start writes e) (hstart : start pc)
      (hdispatch : dispatch fuel pc e = .ok next e') : Tended l g start writes e'

namespace Tended

/-- Calls, reports and guest code are moves of the core; a write of the host adds a moment. -/
theorem trail (h : Tended l g R.start writes e) (hR : R.Admits γ) (hl : l.Orderly) :
    ∃ past, Trail l g R writes past e.core := by
  induction h with
  | new hnew hguarded => exact ⟨_, .new hnew hguarded⟩
  | @call _ e _ _ _ _ htame hstart hcall ih =>
    obtain ⟨past, htrail⟩ := ih
    have hs := (htrail.follows hl e.core htrail.mem).1.sound
    refine htrail.evolves ((ensures_call hR hstart (fun hfree => ?_) hs).ok hcall).1
    cases htame.symm.trans hfree
  | write _ hwrite ih =>
    obtain ⟨past, htrail⟩ := ih
    exact ⟨_, htrail.write hwrite.rewritten⟩
  | @clock _ e _ clock ih =>
    obtain ⟨past, htrail⟩ := ih
    exact htrail.evolves (moved_of_clock (e := e) ⟨clock, rfl⟩)
  | @dispatch _ e _ _ _ _ _ hstart hdispatch ih =>
    obtain ⟨past, htrail⟩ := ih
    have hs := (htrail.follows hl e.core htrail.mem).1.sound
    exact htrail.evolves ((ensures_dispatch hR (fun _ => hstart) hs _).ok hdispatch).evolves

/-- The block that comes back has the words of memory, up to what has strayed there, unless it has
been usurped. -/
theorem supplies (h : Tended l g R.start writes e) (hR : R.Admits γ) (hl : l.Orderly) {pc : UInt32}
    (hpc : R.start pc) {id : BlockId} (hget : getBlock pc e = .ok (some id) e') :
    ∃ b r data, e'.blocks.get? id = some b ∧ b.Sound R ∧ b.start = physical pc ∧
      l.resolve pc = .ok r ∧ (∃ past, Trail l g R writes past e'.core) ∧
      ∀ past, Trail l g R writes past e'.core →
        e'.machine.memory.SuppliesBut (Strayed l writes) pc b.words r data ∨
          Usurped past r.index (r.offset.toNat / 4) b.words := by
  obtain ⟨past0, htrail0⟩ := h.trail hR hl
  have hs := (htrail0.follows hl e.core htrail0.mem).1.sound
  obtain ⟨hsteps, b, hfound⟩ : LooksUp R e pc (some id) e' := (ensures_getBlock hpc hs).ok hget
  obtain ⟨past1, htrail1⟩ := htrail0.evolves (.of_steps hsteps)
  obtain ⟨hf, rfl⟩ := htrail1.follows hl e'.core htrail1.mem
  obtain ⟨r, data, hr, hdata, hfits⟩ := (hf.charted.block hfound.get).2
  have hresolves : e'.machine.memory.layout.resolve pc = .ok r :=
    Layout.resolve_congr hfound.start hr
  refine ⟨b, r, data, hfound.get, (hf.sound.block hfound.get).1, hfound.start, hresolves,
    ⟨past1, htrail1⟩, fun past htrail => ?_⟩
  obtain ⟨hguarded, hfresh⟩ := htrail.fresh hl
  rcases hfound.fresh with ⟨hheld, hcurrent⟩ | ⟨r', data', hsupplies⟩ | hreuse
  · -- a cached block whose entry is still there
    have henlisted := hf.enlisted hheld hfound.get ⟨r, hr, rfl, rfl⟩
    have hload := BlockCache.load_ne_null_of_isOutdated henlisted.2 hcurrent
    refine (hfresh r.index _ 0 b ⟨⟨⟨id, hheld, hfound.get⟩, ⟨r, hr, rfl, rfl⟩,
      (hf.sound.block hfound.get).1.nonempty, .inl ⟨rfl, hload⟩⟩, .inl rfl⟩).imp_left fun hkept =>
        ⟨hresolves, hdata, hfits, fun {n} hn => ?_⟩
    have hvalue := List.getElem?_eq_getElem hn
    refine (hkept.word (Nat.zero_le n) hvalue).imp_left ?_
    rintro ⟨data', hdata', hword⟩
    cases hdata.symm.trans hdata'
    refine hvalue.trans (congrArg some (hword.symm.trans ?_))
    congr 1
    omega
  · -- a block that has just been decoded
    cases hr.symm.trans hsupplies.resolves
    cases hdata.symm.trans hsupplies.bytes
    exact .inl ⟨hresolves, hdata, hfits, fun hn => .inl (hsupplies.word hn)⟩
  · cases hreuse.symm.trans hguarded.reuse

end Tended

/-- On a map without aliases a block that comes back has the words that are in memory where it was
decoded, whatever guest code and host have done before, unless the host has written words behind the
end of the region where it began to write. -/
theorem getBlock_supplies_unless_strayed (hl : l.Plain)
    (hlow : ∀ {i : Nat} {s : Region}, l.regions[i]? = some s → l.isCode i = true →
      s.base.toNat + s.length.toNat ≤ 0x20000000)
    (h : Tended l g (fun pc => pc.toNat % 4 = 0) writes e) {pc : UInt32} (hpc : pc.toNat % 4 = 0)
    {id : BlockId} (hget : getBlock pc e = .ok (some id) e') :
    ∃ b r data, e'.blocks.get? id = some b ∧ b.start = physical pc ∧ b.opCount = b.words.length ∧
      l.resolve pc = .ok r ∧
      e'.machine.memory.SuppliesBut (Strayed l writes) pc b.words r data := by
  have horderly := hl.orderly hlow
  obtain ⟨b, r, data, hb, hsound, hstart, hr, ⟨past, htrail⟩, hsupplies⟩ := Tended.supplies
    (R := .made γ fun pc => pc.toNat % 4 = 0) h (Rules.admits_made _) horderly hpc hget
  exact ⟨b, r, data, hb, hstart, hsound.opCount, hr,
    (hsupplies past htrail).resolve_right
      (htrail.not_usurped horderly (hl.oneName (fun _ h => h) r.index))⟩

/-- Two regions of memory, one behind the other, with code at the start of the second that puts one
into a register and returns. -/
def bordering : Memory RegisterBank :=
  .loaded #[.ram 0 0x20, .ram 0x20 0x20] 0x20 [0x24020001, 0x03e00008, 0]

theorem regions_bordering : bordering.layout.regions =
    #[{ base := 0, length := 0x20, backing := .ram, code := true },
      { base := 0x20, length := 0x20, backing := .ram, code := true }] := by
  decide +kernel

theorem plain_bordering : bordering.layout.Plain where
  apart := Layout.Apart.of_pair regions_bordering (by decide)
  own hs := by
    rcases Layout.eq_of_pair regions_bordering hs with ⟨-, rfl⟩ | ⟨-, rfl⟩ <;> rfl
  aligned hs := by
    rcases Layout.eq_of_pair regions_bordering hs with ⟨-, rfl⟩ | ⟨-, rfl⟩ <;> rfl

/-- The host puts a hundred in the place of the one, with a word in front that lies in the first
region. The block that comes back afterwards still has the one. -/
theorem getBlock_supplies_unless_strayed_bordering :
    ∃ (e e' : Engine RegisterBank StandardCoprocessor HostGenerator) (id : BlockId) (b : Block),
      Tended bordering.layout {} (fun pc => pc.toNat % 4 = 0) [.words 0x1c [0, 0x24020064]] e ∧
      getBlock 0x20 e = .ok (some id) e' ∧ e'.blocks.get? id = some b ∧
      b.words[0]? = some 0x24020001 ∧ e'.machine.memory.readWord 0x20 = .ok 0x24020064 ∧
      ∃ k < 4, (HostWrite.words 0x1c [0, 0x24020064]).Strays bordering.layout 1 k := by
  have hruns : EngineM.passes (HostCall.perform 20 (.runInterpreter 0x20))
      (fun _ => EngineM.passes (HostCall.perform 20 (.write (.words 0x1c [0, 0x24020064])))
        fun _ => EngineM.passes (HostCall.perform 20 (.invalidate 0x1c 8))
          fun _ => EngineM.passes (getBlock 0x20) fun found e' => found.any fun id =>
            (e'.blocks.get? id).any fun b => decide (b.words[0]? = some 0x24020001 ∧
              (e'.machine.memory.readWord 0x20).toOption = some 0x24020064))
      (create bordering .inert .inert { threaded := false, codeBudgetBytes := 0 } {} default :
        Engine RegisterBank StandardCoprocessor HostGenerator) = true := by
    decide +kernel
  obtain ⟨_, e₁, hinterpret, hruns⟩ := EngineM.exists_of_passes hruns
  obtain ⟨_, e₂, hwrite, hruns⟩ := EngineM.exists_of_passes hruns
  obtain ⟨_, e, hinvalidate, hruns⟩ := EngineM.exists_of_passes hruns
  obtain ⟨found, e', hget, hruns⟩ := EngineM.exists_of_passes hruns
  obtain ⟨id, rfl, hfound⟩ := (Option.any_eq_true _ _).mp hruns
  obtain ⟨b, hb, hfacts⟩ := (Option.any_eq_true _ _).mp hfound
  obtain ⟨hold, hread⟩ := of_decide_eq_true hfacts
  replace hread := Block.eq_ok_of_toOption hread
  have haligned : (0x20 : UInt32).toNat % 4 = 0 := rfl
  have hsized : bordering.Sized := Memory.sized_loaded _ _ _
  have htended : Tended bordering.layout {} (fun pc => pc.toNat % 4 = 0)
      [.words 0x1c [0, 0x24020064]] e :=
    .write (.call (.new (.create rfl hsized _ _ _ rfl) ⟨rfl, rfl⟩) rfl (by exact haligned) hinterpret)
      ⟨20, e₂, hwrite, hinvalidate⟩
  have hplace : (bordering.layout.resolve 0x20).toOption =
      some { index := 1, offset := 0, paddr := 0x20, kind := .direct } := by decide +kernel
  obtain ⟨_, r, data, hb', -, -, hr, hsupplies⟩ := getBlock_supplies_unless_strayed plain_bordering
    (fun hs _ => by
      rcases Layout.eq_of_pair regions_bordering hs with ⟨-, rfl⟩ | ⟨-, rfl⟩ <;> decide)
    htended haligned hget
  cases hb.symm.trans hb'
  cases hr.symm.trans (Block.eq_ok_of_toOption hplace)
  refine ⟨e, e', id, b, htended, hget, hb, hold, hread, ?_⟩
  obtain ⟨k, hk, w, hw, hstrays⟩ := hsupplies.missed rfl hold hread (by decide)
  cases List.mem_singleton.mp hw
  exact ⟨k, Nat.lt_of_div_eq_zero (by decide) hk, hstrays⟩

/-- On a map with aliases the same holds of a block and of the code that was made for it, unless
guest code is dispatched at addresses that lead into its region under two names, and a block under
the other name has at some moment given its entry back to the block although their words differ. -/
theorem getBlock_supplies_unless_aliased {start : UInt32 → Prop} (hl : l.Orderly)
    (h : Tended l g start writes e) {pc : UInt32} (hpc : start pc) {id : BlockId}
    (hget : getBlock pc e = .ok (some id) e') :
    ∃ b r data, e'.blocks.get? id = some b ∧ b.start = physical pc ∧ b.opCount = b.words.length ∧
      l.resolve pc = .ok r ∧
      (∀ {k : CompiledCode}, b.code = some k → b.Suits (.made γ start) k.program []) ∧
      (e'.machine.memory.SuppliesBut (Strayed l writes) pc b.words r data ∨
        (∃ p q, start p ∧ start q ∧ l.Aliased p q r.index) ∧
          ∀ past, Trail l g (.made γ start) writes past e'.core →
            Usurped past r.index (r.offset.toNat / 4) b.words) := by
  obtain ⟨b, r, data, hb, hsound, hstart, hr, ⟨past₀, htrail₀⟩, hsupplies⟩ := Tended.supplies
    (R := .made γ start) h (Rules.admits_made _) hl hpc hget
  refine ⟨b, r, data, hb, hstart, hsound.opCount, hr, hsound.code, ?_⟩
  by_cases hcurrent : e'.machine.memory.SuppliesBut (Strayed l writes) pc b.words r data
  · exact .inl hcurrent
  have husurped := fun past htrail => (hsupplies past htrail).resolve_left hcurrent
  refine .inr ⟨Classical.byContradiction fun hnone => ?_, husurped⟩
  exact htrail₀.not_usurped hl (fun {p q} hp hq h => hnone ⟨p, q, hp, hq, h⟩)
    (husurped past₀ htrail₀)

/-- A region of memory with code that puts one into a register and returns, and another name for
it. -/
def mirrored : Memory RegisterBank :=
  .loaded #[.ram 0 0x40, .aliasOf 0x40 0x40 0] 0 [0x24020001, 0x03e00008, 0]

theorem regions_mirrored : mirrored.layout.regions =
    #[{ base := 0, length := 0x40, backing := .ram, code := true },
      { base := 0x40, length := 0x40, backing := .aliasOf 0, code := true }] := by
  decide +kernel

theorem orderly_mirrored : mirrored.layout.Orderly where
  apart := Layout.Apart.of_pair regions_mirrored (by decide)
  aligned hs := by
    rcases Layout.eq_of_pair regions_mirrored hs with ⟨-, rfl⟩ | ⟨-, rfl⟩ <;> rfl
  low hs _ := by
    rcases Layout.eq_of_pair regions_mirrored hs with ⟨-, rfl⟩ | ⟨-, rfl⟩ <;> decide
  copies hs _ halias := by
    rcases Layout.eq_of_pair regions_mirrored hs with ⟨rfl, rfl⟩ | ⟨rfl, rfl⟩
    · cases halias
    · decide +kernel

/-- The code is run under both names, the host puts a hundred in the place of the one, and the code
is run under its first name. The block that comes back under the second name still has the one. -/
theorem getBlock_supplies_unless_aliased_mirrored :
    ∃ (e e' : Engine RegisterBank StandardCoprocessor HostGenerator) (id : BlockId) (b : Block),
      Tended mirrored.layout {} (fun pc => pc = 0 ∨ pc = 0x40) [.word 0 0x24020064] e ∧
      getBlock 0x40 e = .ok (some id) e' ∧ e'.blocks.get? id = some b ∧
      b.words[0]? = some 0x24020001 ∧ e'.machine.memory.readWord 0x40 = .ok 0x24020064 ∧
      (∃ p q, (p = 0 ∨ p = 0x40) ∧ (q = 0 ∨ q = 0x40) ∧ mirrored.layout.Aliased p q 0) ∧
      ∃ past, Trail mirrored.layout {} (.made HostGenerator fun pc => pc = 0 ∨ pc = 0x40)
        [.word 0 0x24020064] past e'.core ∧ Usurped past 0 0 b.words := by
  have hruns : EngineM.passes (HostCall.perform 20 (.runInterpreter 0))
      (fun _ => EngineM.passes (HostCall.perform 20 (.runInterpreter 0x40))
        fun _ => EngineM.passes (HostCall.perform 20 (.write (.word 0 0x24020064)))
          fun _ => EngineM.passes (HostCall.perform 20 (.invalidate 0 4))
            fun _ => EngineM.passes (HostCall.perform 20 (.runInterpreter 0))
              fun _ => EngineM.passes (getBlock 0x40) fun found e' => found.any fun id =>
                (e'.blocks.get? id).any fun b => decide (b.words[0]? = some 0x24020001 ∧
                  (e'.machine.memory.readWord 0x40).toOption = some 0x24020064))
      (create mirrored .inert .inert { threaded := false, codeBudgetBytes := 0 } {} default :
        Engine RegisterBank StandardCoprocessor HostGenerator) = true := by
    decide +kernel
  obtain ⟨_, e₁, hfirst, hruns⟩ := EngineM.exists_of_passes hruns
  obtain ⟨_, e₂, hsecond, hruns⟩ := EngineM.exists_of_passes hruns
  obtain ⟨_, e₃, hwrite, hruns⟩ := EngineM.exists_of_passes hruns
  obtain ⟨_, e₄, hinvalidate, hruns⟩ := EngineM.exists_of_passes hruns
  obtain ⟨_, e, hagain, hruns⟩ := EngineM.exists_of_passes hruns
  obtain ⟨found, e', hget, hruns⟩ := EngineM.exists_of_passes hruns
  obtain ⟨id, rfl, hfound⟩ := (Option.any_eq_true _ _).mp hruns
  obtain ⟨b, hb, hfacts⟩ := (Option.any_eq_true _ _).mp hfound
  obtain ⟨hold, hread⟩ := of_decide_eq_true hfacts
  replace hread := Block.eq_ok_of_toOption hread
  have hsized : mirrored.Sized := Memory.sized_loaded _ _ _
  have htended : Tended mirrored.layout {} (fun pc => pc = 0 ∨ pc = 0x40)
      [.word 0 0x24020064] e :=
    .call (.write (.call (.call (.new (.create rfl hsized _ _ _ rfl) ⟨rfl, rfl⟩)
      rfl (by exact .inl rfl) hfirst) rfl (by exact .inr rfl) hsecond)
      ⟨20, e₃, hwrite, hinvalidate⟩) rfl (by exact .inl rfl) hagain
  have hplace : (mirrored.layout.resolve 0x40).toOption =
      some { index := 0, offset := 0, paddr := 0, kind := .direct } := by decide +kernel
  obtain ⟨_, r, data, hb', -, -, hr, -, hsupplies⟩ :=
    getBlock_supplies_unless_aliased orderly_mirrored htended (.inr rfl) hget
  cases hb.symm.trans hb'
  cases hr.symm.trans (Block.eq_ok_of_toOption hplace)
  obtain ⟨haliased, husurped⟩ := hsupplies.resolve_left fun hsupplies => by
    -- what was written has been invalidated
    obtain ⟨k, -, w, hw, hwrites, hnot⟩ := hsupplies.missed rfl hold hread (by decide)
    cases List.mem_singleton.mp hw
    exact hnot hwrites
  obtain ⟨_, _, _, -, -, -, -, ⟨past, htrail⟩, -⟩ :=
    Tended.supplies (R := .made _ _) htended (Rules.admits_made _) orderly_mirrored (.inr rfl) hget
  exact ⟨e, e', id, b, htended, hget, hb, hold, hread, haliased, past, htrail, husurped past htrail⟩

end Engine

end Dynarec
