/-
  Dynarec.Proofs.Engine.Modes

  Guest code does the same whatever the engine is set up to do.

  How long blocks may be, whether they are interpreted first, how much code is
  kept and whether code can be generated at all decides how a program is cut
  up and what runs in the place of its blocks. As long as every block is a
  block of the program, each of them takes the guest where it gets to by
  itself. So all engines that stop stop at the same place.
-/
import Dynarec.Proofs.Engine.Tables
import Dynarec.Proofs.Execution

namespace Dynarec

variable {δ κ γ : Type}

/-! ## Addresses -/

/-- Where an address leads depends on its physical form only. -/
theorem Layout.resolve_congr {l : Layout} {a b : UInt32} (h : physical a = physical b) {r : Resolved}
    (hr : l.resolve a = .ok r) : l.resolve b = .ok r := by
  unfold resolve at hr ⊢
  rw [h] at hr
  dsimp only at hr ⊢
  split
  · rename_i hnone
    rw [hnone] at hr
    cases hr
  · rename_i found hfound
    rw [hfound] at hr
    exact hr

theorem Memory.readWord_congr {m : Memory δ} {a b word : UInt32} (h : physical a = physical b)
    (hread : m.readWord a = .ok word) : m.readWord b = .ok word := by
  obtain ⟨r, data, hr, hrest⟩ := readWord_eq_ok_iff.mp hread
  exact readWord_eq_ok_iff.mpr ⟨r, data, Layout.resolve_congr h hr, hrest⟩

namespace Program

variable {p : Program δ} {m : Memory δ}

/-- Memory that holds the program is as good as the memory it was in. -/
theorem In.wellFormed (hm : p.In m) (hp : p.WellFormed) : WellFormed { p with memory := m } where
  plain := hm.plain hp
  sized := hm.sized hp
  single := hp.single
  parted ha hb hv hw := hp.parted ha hb ((hm.word ha).symm.trans hv) ((hm.word hb).symm.trans hw)

theorem In.symm (hm : p.In m) : In { p with memory := m } p.memory where
  same := ⟨hm.same.layout.symm, fun i => (hm.same.size i).symm, fun _ _ h => absurd trivial h⟩
  word ha := (hm.word ha).symm

/-- A block that lies in the program now has always been there. -/
theorem In.covers (hm : p.In m) (hp : p.WellFormed) {maxOps : Nat} (hmost : maxOps ≤ 65534)
    {pc : UInt32} (h : Covers { p with memory := m } maxOps pc) : p.Covers maxOps pc where
  aligned := h.aligned
  low hdecode := h.low (h.decode_of_in (hm.wellFormed hp) hm.symm hmost hdecode)
  fetched hdecode := h.fetched (h.decode_of_in (hm.wellFormed hp) hm.symm hmost hdecode)

/-- Words that are decoded as a block at `pc` are code of the program, at low addresses. -/
def Spans (p : Program δ) (m : Memory δ) (maxOps : Nat) (pc : UInt32) : Prop :=
  ∀ {ops : Array Op}, Block.decode m pc maxOps = .ok ops →
    (physical pc).toNat + 4 * ops.size ≤ 0x20000000 ∧
      ∀ {i : Nat}, i < ops.size → p.fetched (pc + i.toUInt32 * 4)

/-- Blocks of the program, and code made from them. -/
def rules (p : Program δ) (maxOps : Nat) : Rules := .host (p.Covers maxOps)

end Program

/-- Whatever the generator makes the built-in generator could have made. -/
def Generator.Conforms (γ : Type) [Generator γ] : Prop :=
  ∀ start : UInt32 → Prop, (Rules.host start).Admits γ

theorem HostGenerator.conforms : Generator.Conforms HostGenerator := Rules.admits_host

/-- A generator that never makes anything does nothing wrong. -/
theorem Generator.conforms_of_refuses [Generator γ] (h : ∀ (g : γ) (source : BlockSource)
    (cache : RegisterCache) (emitted : Emitted), (compile g source cache).result ≠ .ok emitted) :
    Conforms γ :=
  fun _ g source cache emitted hmade => absurd hmade (h g source cache.reset emitted)

/-! ## Cores that carry a program -/

namespace Core

variable {R : Rules} {c c' : Core δ κ γ}

/-- A block is one that was there before, or has just been decoded. -/
theorem Step.block_cases [Generator γ] (h : Step R c c') {n : BlockId} {b' : Block}
    (hget : c'.blocks n = some b') :
    (∃ b, c.blocks n = some b ∧ b'.pc = b.pc ∧ b'.words = b.words) ∨
      ∃ pc, R.start pc ∧ c.Decoded pc b' := by
  have hold : c.blocks n = some b' → ∃ b, c.blocks n = some b ∧ b'.pc = b.pc ∧ b'.words = b.words :=
    fun h => ⟨b', h, rfl, rfl⟩
  cases h with
  | log | miss | charge | touch | release | retire | demote | republish | scrap | abandon =>
    exact .inl (hold hget)
  | change hb hkeeps =>
    rcases update_eq_some hget with ⟨hnew, rfl⟩ | h
    · cases hnew
      exact .inl ⟨_, hb, hkeeps.pc, hkeeps.words⟩
    · exact .inl (hold h)
  | enroll hstart hdecoded | lend hstart hdecoded =>
    rcases update_eq_some hget with ⟨hnew, rfl⟩ | h
    · cases hnew
      exact .inr ⟨_, hstart, hdecoded⟩
    · exact .inl (hold h)
  | drop =>
    rcases update_eq_some hget with ⟨hnew, -⟩ | h
    · cases hnew
    · exact .inl (hold h)
  | kill hb =>
    rcases update_eq_some hget with ⟨hnew, rfl⟩ | h
    · cases hnew
      exact .inl ⟨_, hb, rfl, rfl⟩
    · exact .inl (hold h)
  | publish hp =>
    rcases update_eq_some hget with ⟨hnew, rfl⟩ | h
    · cases hnew
      exact .inl ⟨_, hp.enlisted.1, rfl, rfl⟩
    · exact .inl (hold h)
  | @bury id b rest hwaiting hb =>
    have hblocks : (c.forgot? b.code).blocks = c.blocks := by cases b.code <;> rfl
    rcases update_eq_some hget with ⟨hnew, -⟩ | h
    · cases hnew
    · exact .inl (hold (hblocks ▸ h))

theorem Evolves.linked [Generator γ] {free : Prop} (h : Evolves R free c c') (hs : c.Sound R)
    (hlinked : c.made < 2 ^ 32 → c.Linked R) (hmade : c'.made < 2 ^ 32) : c'.Linked R := by
  induction h with
  | refl => exact hlinked hmade
  | tail hbefore hmove ih => exact hmove.linked (Evolves.sound hbefore hs) ih hmade

theorem Evolves.counts_le [Generator γ] {free : Prop} (h : Evolves R free c c') :
    c.made ≤ c'.made ∧ c.tally.reused ≤ c'.tally.reused := by
  induction h with
  | refl => exact ⟨Nat.le_refl _, Nat.le_refl _⟩
  | tail _ hmove ih =>
    cases hmove with
    | step hstep => exact ⟨Nat.le_trans ih.1 hstep.counts_le.1, Nat.le_trans ih.2 hstep.counts_le.2⟩
    | machine => exact ih

/-- All blocks of the core are blocks of the program, and the table has a slot for every word of code
on the map. -/
structure Carries (p : Program δ) (maxOps : Nat) (c : Core δ κ γ) : Prop where
  sound : c.Sound (p.rules maxOps)
  linked : c.made < 2 ^ 32 → c.Linked (p.rules maxOps)
  charted : c.machine.entries.regions =
    (EntryTable.ofLayout c.machine.memory.layout maxOps).regions
  reads : ∀ {id : BlockId} {b : Block}, c.blocks id = some b → p.Reads maxOps b.pc b.words
  maxBlockOps : c.config.maxBlockOps = maxOps
  replaceMemset : c.config.replaceMemset = false

namespace Carries

variable {p : Program δ} {maxOps : Nat}

theorem most (h : c.Carries p maxOps) : maxOps ≤ 65534 := h.maxBlockOps ▸ h.sound.maxBlockOps

/-- A block of the program is decoded where the rules allow it. -/
theorem step [Generator γ] (h : c.Carries p maxOps) (hp : p.WellFormed) (hm : p.In c.machine.memory)
    (hstep : Step (p.rules maxOps) c c') : c'.Carries p maxOps where
  sound := hstep.sound h.sound
  linked := hstep.linked h.sound h.linked
  charted := by
    obtain ⟨entries, log, hmachine⟩ := hstep.machine
    rw [hstep.sameShape.regions, h.charted, hmachine]
  reads := by
    intro id b' hget
    rcases hstep.block_cases hget with ⟨b, hb, hpc, hwords⟩ | ⟨pc, hstart, hdecoded⟩
    · rw [hpc, hwords]
      exact h.reads hb
    · obtain ⟨ops, flags, hdecode, rfl, -⟩ := hdecoded
      rw [h.maxBlockOps] at hdecode
      have hcovers : p.Covers maxOps pc := hstart
      refine ⟨h.most, hcovers, ops, hcovers.decode_of_in hp hm h.most hdecode, ?_⟩
      exact (annotates_annotate c.machine.memory.layout c.config pc ops).opWords_eq.symm
  maxBlockOps := by rw [hstep.config, h.maxBlockOps]
  replaceMemset := by rw [hstep.config, h.replaceMemset]

theorem steps [Generator γ] (h : c.Carries p maxOps) (hp : p.WellFormed) (hm : p.In c.machine.memory)
    (hsteps : Steps (p.rules maxOps) c c') : c'.Carries p maxOps := by
  induction hsteps with
  | refl => exact h
  | tail hbefore hstep ih =>
    obtain ⟨entries, log, hmachine⟩ := Steps.machine hbefore
    refine ih.step hp ?_ hstep
    rw [hmachine]
    exact hm

/-- The machine changes, and blocks only keep what they are. -/
theorem of_changes (h : c.Carries p maxOps) (hsound : c'.Sound (p.rules maxOps))
    (hlinked : c'.made < 2 ^ 32 → c'.Linked (p.rules maxOps))
    (hchanges : Machine.Changes False c.machine c'.machine) (hconfig : c'.config = c.config)
    (hblocks : ∀ {id b'}, c'.blocks id = some b' →
      ∃ b, c.blocks id = some b ∧ b'.pc = b.pc ∧ b'.words = b.words) : c'.Carries p maxOps where
  sound := hsound
  linked := hlinked
  charted := by rw [hchanges.sameShape.regions, hchanges.layout, h.charted]
  reads := by
    intro id b' hget
    obtain ⟨b, hb, hpc, hwords⟩ := hblocks hget
    rw [hpc, hwords]
    exact h.reads hb
  maxBlockOps := hconfig ▸ h.maxBlockOps
  replaceMemset := hconfig ▸ h.replaceMemset

variable [Device δ] [Coprocessor κ] {fuel : Nat} {pc next : UInt32}

theorem runs [Generator γ] (h : c.Carries p maxOps) (hruns : Runs (p.rules maxOps) fuel c pc next c') :
    c'.Carries p maxOps := by
  have hevolves := hruns.evolves
  refine h.of_changes (hevolves.sound h.sound) (hevolves.linked h.sound h.linked) ?_ ?_ ?_
  · cases hruns with
    | fault => exact .control rfl rfl rfl
    | call _ _ _ hcall => exact Machine.guestRelation_changes.call hcall
    | interpret _ _ hemulate => exact Machine.guestRelation_changes.emulate hemulate
    | memset hreplace =>
      rw [h.replaceMemset] at hreplace
      cases hreplace
  · cases hruns <;> rfl
  · -- running a block may mark it, and leaves its words alone
    intro n b' hget'
    have hold : ∀ {b'}, c.blocks n = some b' →
        ∃ b, c.blocks n = some b ∧ b'.pc = b.pc ∧ b'.words = b.words := fun h => ⟨_, h, rfl, rfl⟩
    cases hruns with
    | fault | memset => exact hold hget'
    | @call id b k _ r hget _ _ hcall =>
      have hkeeps := HostProgram.keeps_call hcall
      dsimp only at hget'
      split at hget'
      · rcases update_eq_some hget' with ⟨hnew, rfl⟩ | hget'
        · cases hnew
          exact ⟨b, hget, hkeeps.pc, hkeeps.words⟩
        · exact hold hget'
      · exact hold hget'
    | @interpret id b r hget _ hemulate =>
      have hkeeps := Interpreter.keeps_emulate hemulate
      rcases update_eq_some hget' with ⟨hnew, rfl⟩ | hget'
      · cases hnew
        exact ⟨b, hget, hkeeps.pc, hkeeps.words⟩
      · exact hold hget'

/-! ## Running the program -/

variable {m : Machine δ κ}

/-- A word of the program has one address. -/
theorem address_eq (hp : p.WellFormed) {b : Block} (hreads : p.Reads maxOps b.pc b.words)
    (hg : Guest.Executes p { machine := m, pc }) {offset : Nat} (hlt : offset < b.words.length)
    (h : physical pc = physical (b.pc + offset.toUInt32 * 4)) : pc = b.pc + offset.toUInt32 * 4 := by
  obtain ⟨hfetched, hread⟩ := hreads.word hp (List.getElem?_eq_getElem hlt)
  have hnow := (hg.holds.word hfetched).trans hread
  have hpc : p.fetched pc :=
    hg.behaves.fetched (.refl _) hg.running (Memory.readWord_congr h.symm hnow)
  exact hp.single hpc hfetched h

/-- An entry leads into code of a block at the word whose slot it is in. -/
theorem physical_eq_of_index? (hp : p.WellFormed) (h : c.Carries p maxOps)
    (hg : Guest.Executes p { machine := c.machine, pc }) {b : Block}
    (hreads : p.Reads maxOps b.pc b.words) {offset slot : Nat} (hlt : offset < b.words.length)
    (hbound : b.words.length ≤ 65535) (hpc : c.machine.entries.index? pc = some slot)
    (hslot : c.machine.entries.index? (b.start + offset.toUInt32 * 4) = some slot) :
    physical pc = physical (b.pc + offset.toUInt32 * 4) := by
  have hplain := hg.holds.plain hp
  have hfour := @Interpreter.toNat_mul_four offset (by omega)
  have hlow := hreads.low
  -- the start of the block is a physical address, and goes on as one
  have hstart : physical (b.start + offset.toUInt32 * 4) =
      physical (b.pc + offset.toUInt32 * 4) := by
    have hsum : (physical b.pc + offset.toUInt32 * 4).toNat =
        (physical b.pc).toNat + offset * 4 := by
      rw [UInt32.toNat_add, hfour]
      exact Nat.mod_eq_of_lt (by omega)
    rw [@physical_add b.pc _ (by omega), Block.start]
    exact physical_of_low (by omega)
  obtain ⟨r, r', hr, hr', hindex, hword⟩ :=
    EntryTable.eq_of_index? hplain.apart h.charted hpc hslot
  -- both addresses are whole words, so words of a region that are the same have the same offset
  have haligned : r.offset.toNat % 4 = 0 :=
    (hplain.offset_mod_four hr).trans (hg.behaves.aligned (.refl _) hg.running)
  have haligned' : r'.offset.toNat % 4 = 0 := by
    have hmod := hplain.offset_mod_four hr'
    have hb := toNat_physical_mod_four (b.start + offset.toUInt32 * 4)
    rw [hstart, toNat_physical_mod_four, UInt32.toNat_add, hfour] at hb
    have hpc := hreads.aligned
    omega
  exact (hplain.physical_inj hr hr' hindex (by omega)).trans hstart

/-- What runs in the place of a block takes the guest where it gets to. -/
theorem gets [Generator γ] (ht : KeepsTime δ κ) (hp : p.WellFormed) (h : c.Carries p maxOps)
    (hmade : c.made < 2 ^ 32) (hg : Guest.Executes p { machine := c.machine, pc })
    (hruns : Runs (p.rules maxOps) fuel c pc next c') :
    Guest.Gets { machine := c.machine, pc } next c'.machine := by
  cases hruns with
  | fault hfault =>
    obtain ⟨fault, hfault⟩ := hfault
    -- what cannot be decoded cannot be read by the guest either
    have hnone : ∀ word, c.machine.memory.readWord pc ≠ .ok word := by
      intro word hread
      obtain ⟨ops, hdecode⟩ := Program.exists_decode_of_readWord hp hg.holds
        (hg.behaves.aligned (.refl _) hg.running) hread c.config.maxBlockOps
      cases hfault.symm.trans hdecode
    have hstep : Guest.step { machine := c.machine, pc } =
        { machine := c.machine.setExit { segfault := true }, pc } := by
      unfold Guest.step
      dsimp only
      cases hread : c.machine.memory.readWord pc with
      | error f => rfl
      | ok word => exact absurd hread (hnone word)
    exact ⟨_, .step hg.running, by rw [hstep], by rw [hstep], by rw [hstep]; exact .refl _⟩
  | @call id b k offset r hget hsuits hleads hcall =>
    have hreads := h.reads hget
    have hsound := (h.sound.block hget).1
    obtain ⟨hlt, htarget, hphysical⟩ : offset < b.words.length ∧
        (offset = 0 ∨ offset ∈ k.program.targets) ∧
        physical pc = physical (b.pc + offset.toUInt32 * 4) := by
      rcases hleads with ⟨rfl, hstart, -⟩ | ⟨code, hentry, hcode, hblock⟩
      · refine ⟨hsound.nonempty, .inl rfl, ?_⟩
        rw [show b.pc + Nat.toUInt32 0 * 4 = b.pc from UInt32.add_zero _]
        exact hstart.symm
      · -- the entry is that of the block whose code it leads into
        have hlinked := h.linked hmade
        unfold EntryTable.get at hentry
        split at hentry
        · rename_i slot hslot
          obtain ⟨id', b', k', hcurrent, rfl, -, hindex, hoffset⟩ := hlinked.entry hentry
          obtain ⟨hcode', hblock', -⟩ := hlinked.code hcurrent.get hcurrent.code
          cases hcode.symm.trans hcode'
          cases hblock.symm.trans hblock'
          cases hget.symm.trans hcurrent.get
          have hlt : offset < b.words.length := by
            rcases hoffset with rfl | ⟨hlt, -⟩
            · exact hsound.nonempty
            · rwa [hsound.opCount] at hlt
          have htarget : offset = 0 ∨ offset ∈ k.program.targets := by
            rcases hoffset with rfl | ⟨-, hsuits⟩
            · exact .inl rfl
            · exact (hsuits.entryPoint? (.inr List.mem_cons_self)).1
          exact ⟨hlt, htarget, physical_eq_of_index? hp h hg hreads hlt hsound.bounded hslot hindex⟩
        · cases hentry
    obtain ⟨source, targets, hsource, ⟨-, cache, hcache, hgenerate⟩, -⟩ := hsuits
    -- The entry is found by the physical address. Within the program there is only one address for
    -- it.
    have hpc := address_eq hp hreads hg hlt hphysical
    rw [hpc] at hg ⊢
    exact HostProgram.gets_of_call ht hp hreads hsource hcache hgenerate htarget hg hcall
  | @interpret id b r hget hstart hemulate =>
    have hreads := h.reads hget
    have hsound := (h.sound.block hget).1
    have hzero : b.pc + Nat.toUInt32 0 * 4 = b.pc := UInt32.add_zero _
    have hpc : pc = b.pc := by
      rw [← hzero]
      refine address_eq hp hreads hg hsound.nonempty ?_
      rw [hzero]
      exact hstart.symm
    rw [hpc] at hg ⊢
    exact Interpreter.gets_of_emulate ht hp hreads hsound.opCount hsound.bounded
      (fun hops => (hsound.ops hops).words) hg hemulate
  | memset hreplace =>
    rw [h.replaceMemset] at hreplace
    cases hreplace

end Carries

/-- What is a rule for code does not depend on where blocks may start. -/
theorem Sound.host {start start' : UInt32 → Prop} (h : c.Sound (.host start))
    (hstart : ∀ {id b}, c.blocks id = some b → start' b.pc) : c.Sound (.host start') where
  maxBlockOps := h.maxBlockOps
  idle := h.idle
  cache := h.cache
  block hget := ⟨{ (h.block hget).1 with start := hstart hget }, (h.block hget).2⟩
  cached := h.cached
  waiting := h.waiting
  condemned := h.condemned
  code := h.code

theorem Linked.host {start start' : UInt32 → Prop} (h : c.Linked (.host start)) :
    c.Linked (.host start') where
  next := h.next
  registered := h.registered
  code := h.code
  scrapped := h.scrapped
  placed := h.placed
  nodup := h.nodup
  entry := h.entry

end Core

namespace Engine

variable [Device δ] [Coprocessor κ] [Generator γ] {p : Program δ} {maxOps fuel : Nat}
  {e e' : Engine δ κ γ} {pc next : UInt32}

/-- A dispatch takes the guest where it gets to. -/
theorem Serves.gets (ht : KeepsTime δ κ) (hp : p.WellFormed) (h : e.core.Carries p maxOps)
    (hg : Guest.Executes p { machine := e.machine, pc }) (hmade : e'.core.made < 2 ^ 32)
    (hserves : Serves (p.rules maxOps) fuel e pc next e') :
    Guest.Gets { machine := e.machine, pc } next e'.machine ∧ e'.core.Carries p maxOps := by
  obtain ⟨c1, c2, hsteps1, hruns, hsteps2⟩ := hserves
  obtain ⟨entries1, log1, hmachine1⟩ := hsteps1.machine
  obtain ⟨entries2, log2, hmachine2⟩ := hsteps2.machine
  have hmade1 : c1.made < 2 ^ 32 :=
    Nat.lt_of_le_of_lt (hruns.evolves.trans (.of_steps hsteps2)).counts_le.1 hmade
  -- what the engine does by itself shows in entries and log only
  have hsame : Guest.Alike { machine := e.machine, pc } { machine := c1.machine, pc } :=
    ⟨hmachine1 ▸ Machine.alike_withEntries e.machine entries1 log1, rfl, rfl⟩
  have h1 := h.steps hp hg.holds hsteps1
  obtain ⟨g', hv, hpending, hpc, halike⟩ := h1.gets ht hp hmade1 (hg.alike hsame) hruns
  have hm2 : p.In c2.machine.memory :=
    halike.memory ▸ (hg.alike hsame).holds_of_visits hv
  refine ⟨?_, (h1.runs hruns).steps hp hm2 hsteps2⟩
  have hsame2 : Machine.Alike e'.core.machine c2.machine := by
    rw [hmachine2]
    exact (Machine.alike_withEntries c2.machine entries2 log2).symm
  exact Guest.Gets.alike ⟨g', hv, hpending, hpc, halike⟩ hsame.symm hsame2

/-! ## Whole runs -/

omit [Generator γ] [Device δ] [Coprocessor κ] in
/-- The guest of an engine that is about to go on at `pc`. -/
def guest (e : Engine δ κ γ) (pc : UInt32) : Guest δ κ := { machine := e.machine, pc }

/-- Blocks that are decoded in a run are code of the program. -/
def Decodes (p : Program δ) (fuel : Nat) (e : Engine δ κ γ) (pc : UInt32) : Prop :=
  ∀ {e' : Engine δ κ γ} {pc' : UInt32}, Passes fuel e pc e' pc' → ¬ e'.Published pc' →
    p.Spans e'.machine.memory e'.config.maxBlockOps pc'

namespace Passes

variable {e₁ e₂ : Engine δ κ γ} {pc1 pc2 : UInt32}

/-- A run of blocks ends with a dispatch after which it has to stop. -/
theorem of_runBlocks {count : Nat} (h : runBlocks fuel count pc e = .ok next e') :
    ∃ e₁ pc1, Passes fuel e pc e₁ pc1 ∧ dispatch fuel pc1 e₁ = .ok next e' := by
  induction count generalizing pc e with
  | zero => cases h
  | succ count ih =>
    obtain ⟨pc1, e₁, hdispatch, h⟩ := bind_ok h
    replace h : (if e₁.machine.clock.shouldStop then pure pc1
      else runBlocks fuel count pc1 : EngineM δ κ γ UInt32) e₁ = .ok next e' := h
    split at h
    · cases h
      exact ⟨e, pc, .here, hdispatch⟩
    · rename_i hgoes
      obtain ⟨e₂, pc2, hpasses, hlast⟩ := ih h
      exact ⟨e₂, pc2, hpasses.head hdispatch (Bool.eq_false_iff.mpr hgoes), hlast⟩

end Passes

/-- The run stops before `n` dispatches, and `P` holds before each of them. -/
def always (P : Engine δ κ γ → UInt32 → Bool) (fuel : Nat) : Nat → Engine δ κ γ → UInt32 → Bool
  | 0, _, _ => false
  | n + 1, e, pc => P e pc &&
    match dispatch fuel pc e with
    | .ok pc' e' => e'.machine.clock.shouldStop || always P fuel n e' pc'
    | .error _ _ => true

theorem Passes.of_always {P : Engine δ κ γ → UInt32 → Bool} {fuel n : Nat} {e₁ : Engine δ κ γ}
    {pc1 : UInt32} (h : e.always P fuel n pc = true) (hpasses : Passes fuel e pc e₁ pc1) :
    P e₁ pc1 = true := by
  suffices ∃ n, e₁.always P fuel n pc1 = true by
    obtain ⟨n, hn⟩ := this
    cases n with
    | zero => cases hn
    | succ n => exact (Bool.and_eq_true_iff.mp hn).1
  induction hpasses with
  | here => exact ⟨n, h⟩
  | next _ hdispatch hgoes ih =>
    obtain ⟨n, hn⟩ := ih
    cases n with
    | zero => cases hn
    | succ n =>
      have hrest := (Bool.and_eq_true_iff.mp hn).2
      rw [hdispatch] at hrest
      dsimp only at hrest
      rw [hgoes, Bool.false_or] at hrest
      exact ⟨n, hrest⟩

/-! ## One dispatch -/

section Program

variable (ht : KeepsTime δ κ) (hR : Generator.Conforms γ) (hp : p.WellFormed)

include ht hR hp in
theorem gets_of_dispatch (h : e.core.Carries p maxOps) (hg : (e.guest pc).Executes p)
    (hspans : ¬ e.Published pc → p.Spans e.machine.memory e.config.maxBlockOps pc)
    (hdispatch : dispatch fuel pc e = .ok next e') (hmade : e'.core.made < 2 ^ 32) :
    (e.guest pc).Gets next e'.machine ∧ e'.core.Carries p maxOps := by
  have hstart : ¬ e.Published pc → (p.rules maxOps).start pc := by
    intro hnot
    have hspans : p.Spans e.machine.memory maxOps pc := h.maxBlockOps ▸ hspans hnot
    exact hg.holds.covers hp h.most
      ⟨hg.behaves.aligned (.refl _) hg.running, fun h => (hspans h).1, fun h => (hspans h).2⟩
  have hserves := (ensures_dispatch (hR _) hstart h.sound fuel).ok hdispatch
  exact hserves.gets ht hp h hg hmade

/-! ## A run -/

include hR in
/-- Whatever runs, code is only ever counted up. -/
theorem made_le_of_dispatch {e₁ : Engine δ κ γ} {pc1 : UInt32} (h : e.core.Carries p maxOps)
    (hpasses : Passes fuel e pc e₁ pc1) (hdispatch : dispatch fuel pc1 e₁ = .ok next e') :
    e₁.core.made ≤ e'.core.made := by
  have hany : ∀ pc, (Rules.host fun _ => True).start pc := fun _ => trivial
  have hs0 : e.core.Sound (.host fun _ => True) := h.sound.host fun _ => trivial
  have hs := (hpasses.moved (hR _) (fun _ => hany _) hs0).sound hs0
  have hserves := (ensures_dispatch (hR _) (fun _ => hany _) hs fuel).ok hdispatch
  exact hserves.evolves.counts_le.1

include ht hR hp in
/-- Wherever a run gets to, the guest gets to by itself. -/
theorem Passes.gets {e₁ : Engine δ κ γ} {pc1 : UInt32} (hpasses : Passes fuel e pc e₁ pc1)
    (h : e.core.Carries p maxOps) (hg : (e.guest pc).Executes p) (hdecodes : Decodes p fuel e pc)
    (hmade : e₁.core.made < 2 ^ 32) :
    (e.guest pc).Gets pc1 e₁.machine ∧ e₁.core.Carries p maxOps ∧ (e₁.guest pc1).Executes p := by
  induction hpasses with
  | here => exact ⟨⟨_, .refl _, rfl, rfl, .refl _⟩, h, hg⟩
  | @next e₁ e₂ pc1 pc2 hbefore hdispatch hgoes ih =>
    have hmade1 := Nat.lt_of_le_of_lt (made_le_of_dispatch hR h hbefore hdispatch) hmade
    obtain ⟨hgets, hcarries, hexecutes⟩ := ih hmade1
    obtain ⟨hgets2, hcarries2⟩ :=
      gets_of_dispatch ht hR hp hcarries hexecutes (hdecodes hbefore) hdispatch hmade
    have hrunning : e₂.machine.clock.exit.isNormal = true := by
      simp only [Clock.shouldStop, Bool.or_eq_false_iff, Bool.not_eq_false'] at hgoes
      exact hgoes.1
    exact ⟨hgets.trans hgets2, hcarries2, hg.gets (hgets.trans hgets2) hrunning⟩

include ht hR hp in
/-- A run ends where the guest gets to. -/
theorem gets_of_run {target : UInt32} (h : e.core.Carries p maxOps)
    (hg : ((e.armed target).guest pc).Executes p) (hdecodes : Decodes p fuel (e.armed target) pc)
    (hrun : run fuel pc target e = .ok next e') (hmade : e'.core.made < 2 ^ 32) :
    ((e.armed target).guest pc).Gets next e'.machine := by
  -- the clock is set, blocks run, and the end of the run is none of the guest's business
  obtain ⟨_, e₁, harmed, hrun⟩ := bind_ok hrun
  cases harmed
  obtain ⟨next2, e₂, hblocks, hrun⟩ := bind_ok hrun
  obtain ⟨_, e3, hfinish, hrun⟩ := bind_ok hrun
  cases hrun
  have hmoved : Moved (p.rules maxOps) e (e.armed target) := moved_of_clock ⟨_, rfl⟩
  have harmed : (e.armed target).core.Carries p maxOps :=
    h.of_changes (hmoved.sound h.sound) (hmoved.linked h.sound h.linked) (.control rfl rfl rfl) rfl
      fun hget => ⟨_, hget, rfl, rfl⟩
  have hany : ∀ pc, (Rules.host fun _ => True).start pc := fun _ => trivial
  have hs : (e.armed target).core.Sound (.host fun _ => True) := harmed.sound.host fun _ => trivial
  have hs2 := ((ensures_runBlocks (hR _) (fun _ => hany _) hs).ok hblocks).sound hs
  have hsteps := (((takes_finishRun next).ensures hs2).ok hfinish).1
  have hevolves : Core.Evolves (.host fun _ => True) False e₂.core e'.core := .of_steps hsteps
  have hmade2 : e₂.core.made < 2 ^ 32 :=
    Nat.lt_of_le_of_lt hevolves.counts_le.1 hmade
  obtain ⟨e₁, pc1, hpasses, hlast⟩ := Passes.of_runBlocks hblocks
  have hmade1 := Nat.lt_of_le_of_lt (made_le_of_dispatch hR harmed hpasses hlast) hmade2
  obtain ⟨hgets1, h1, hg1⟩ := hpasses.gets ht hR hp harmed hg hdecodes hmade1
  have hgets2 := (gets_of_dispatch ht hR hp h1 hg1 (hdecodes hpasses) hlast hmade2).1
  obtain ⟨entries, log, hmachine⟩ := hsteps.machine
  refine (hgets1.trans hgets2).alike ⟨.refl _, rfl, rfl⟩ ?_
  show Machine.Alike e'.core.machine _
  rw [hmachine]
  exact (Machine.alike_withEntries e₂.machine entries log).symm

end Program

/-! ## All runs -/

/-- The table of entries has a slot for every word of memory that can hold code. -/
theorem Reachable.charted (hR : Generator.Conforms γ) {g : γ} (h : Reachable g e) :
    e.machine.entries.regions =
      (EntryTable.ofLayout e.machine.memory.layout e.config.maxBlockOps).regions := by
  refine (h.invariant (hR fun _ => True) (fun _ => trivial)
    (I := fun c => c.machine.entries.regions =
      (EntryTable.ofLayout c.machine.memory.layout c.config.maxBlockOps).regions) ?_ ?_).2
  · intro memory cop0 cop2 config log
    rfl
  · intro c c' _ hc hmove
    cases hmove with
    | step hstep =>
      obtain ⟨entries, log, hmachine⟩ := hstep.machine
      rw [hstep.sameShape.regions, hstep.config, hc, hmachine]
    | machine hchange =>
      show _ = (EntryTable.ofLayout _ c.config.maxBlockOps).regions
      rw [hchange.sameShape.regions, hc, Machine.Changes.layout (.single hchange)]

/-- An engine that the host can get at and that is about to run a program: blocks that it has
already are up to date, and it does all loops itself. -/
structure Prepared (p : Program δ) (g : γ) (e : Engine δ κ γ) : Prop where
  reachable : Reachable g e
  replaceMemset : e.config.replaceMemset = false
  reads : ∀ {id : BlockId} {b : Block}, e.blocks.get? id = some b →
    p.Reads e.config.maxBlockOps b.pc b.words

theorem Prepared.carries (hR : Generator.Conforms γ) {g : γ} (h : Prepared p g e) :
    e.core.Carries p e.config.maxBlockOps := by
  obtain ⟨hs, hlinked⟩ := h.reachable.linked (hR fun _ => True) fun _ => trivial
  exact ⟨hs.host fun hget => (h.reads hget).2.1, fun hmade => (hlinked hmade).host,
    h.reachable.charted hR, h.reads, rfl, h.replaceMemset⟩

end Engine

/-- Two engines that run the same program from the same state, and stop because of something that
the program does, stop at the same place in the same state, whatever their settings are and
whether or not they generate code. Code must not be made so often that its numbers repeat. -/
theorem Engine.run_independent_of_mode [Device δ] [Coprocessor κ] {γ₁ γ₂ : Type} [Generator γ₁]
    [Generator γ₂] (ht : KeepsTime δ κ) (hR₁ : Generator.Conforms γ₁) (hR₂ : Generator.Conforms γ₂)
    {p : Program δ} (hp : p.WellFormed) {g₁ : γ₁} {g₂ : γ₂} {e₁ e₁' : Engine δ κ γ₁}
    {e₂ e₂' : Engine δ κ γ₂} (h₁ : e₁.Prepared p g₁) (h₂ : e₂.Prepared p g₂)
    (hsame : e₁.machine.Alike e₂.machine) (hmemory : e₁.machine.memory = p.memory)
    (hzero : e₁.machine.regs.get 0 = 0) {pc target next₁ next₂ : UInt32} {fuel₁ fuel₂ : Nat}
    (hbehaves : ((e₁.armed target).guest pc).Behaves p)
    (hdecodes₁ : Decodes p fuel₁ (e₁.armed target) pc)
    (hdecodes₂ : Decodes p fuel₂ (e₂.armed target) pc)
    (hrun₁ : run fuel₁ pc target e₁ = .ok next₁ e₁') (hrun₂ : run fuel₂ pc target e₂ = .ok next₂ e₂')
    (hstop₁ : e₁'.machine.clock.exit.isNormal = false)
    (hstop₂ : e₂'.machine.clock.exit.isNormal = false) (hmade₁ : e₁'.health.successes < 2 ^ 32)
    (hmade₂ : e₂'.health.successes < 2 ^ 32) :
    next₁ = next₂ ∧ e₁'.machine.Alike e₂'.machine := by
  have hg₁ : ((e₁.armed target).guest pc).Executes p :=
    ⟨hbehaves, rfl, hzero, hmemory ▸ .refl _ _⟩
  have hguests : ((e₁.armed target).guest pc).Alike ((e₂.armed target).guest pc) :=
    ⟨⟨hsame.regs, hsame.current, rfl, hsame.memory, hsame.cop0, hsame.cop2, trivial,
      hsame.hostInvalidationOnly⟩, rfl, rfl⟩
  have hgets₁ := gets_of_run ht hR₁ hp (h₁.carries hR₁) hg₁ hdecodes₁ hrun₁ hmade₁
  have hgets₂ := gets_of_run ht hR₂ hp (h₂.carries hR₂) (hg₁.alike hguests) hdecodes₂ hrun₂ hmade₂
  -- both runs are runs of one guest, which stops once only
  obtain ⟨g₁, hv₁, -, rfl, halike₁⟩ := hgets₁
  obtain ⟨g₂, hv₂, -, rfl, halike₂⟩ := hgets₂.alike hguests.symm (.refl _)
  have hstopped₁ : g₁.isRunning = false := by
    rw [Guest.isRunning, ← halike₁.exit, hstop₁]
  have hstopped₂ : g₂.isRunning = false := by
    rw [Guest.isRunning, ← halike₂.exit, hstop₂]
  cases hv₁.stopped_unique hv₂ hstopped₁ hstopped₂
  exact ⟨rfl, halike₁.trans halike₂.symm⟩

/-! ## A countdown -/

/-- A generator that makes nothing. -/
structure Refusing where
deriving Inhabited

instance : Generator Refusing where
  name _ := "none"
  ready _ _ := true
  compile g _ cache :=
    { result := .error (.codegen .outOfMemory), generator := g, cache, notices := [] }
  release g _ := g

theorem Refusing.conforms : Generator.Conforms Refusing :=
  Generator.conforms_of_refuses fun _ _ _ _ h => by cases h

namespace Countdown

/-- Count down from three in a register, and make a system call. -/
def memory : Memory RegisterBank :=
  match Memory.ofRegions #[.ram 0 0x20] with
  | .ok memory => (memory.writeWords 0 [0x24020003, 0x2442ffff, 0x1440fffe, 0, 0x0000000c]).2
  | .error _ => default

def addresses : List UInt32 := [0x00, 0x04, 0x08, 0x0c, 0x10]

def program : Program RegisterBank where
  memory := memory
  fetched a := a ∈ addresses

/-- Code is generated for blocks as soon as they are found. -/
def compiling : Engine RegisterBank StandardCoprocessor HostGenerator :=
  .create memory .inert .inert
    { threaded := false, replaceMemset := false, firstPass := false, codeBudgetBytes := 0 } {} default

/-- Blocks of two instructions are interpreted. -/
def interpreting : Engine RegisterBank StandardCoprocessor Refusing :=
  .create memory .inert .inert
    { threaded := false, replaceMemset := false, maxBlockOps := 2 } {} default

theorem regions_memory : memory.layout.regions =
    #[{ base := 0, length := 0x20, backing := .ram, code := true }] := by
  decide +kernel

def wordAt (a : UInt32) : UInt32 :=
  match memory.readWord a with
  | .ok word => word
  | .error _ => 0

theorem wordAt_eq {a word : UInt32} (h : memory.readWord a = .ok word) : wordAt a = word := by
  rw [wordAt, h]

/-- What is to hold at all addresses is checked at one after the other. -/
theorem forall_addresses {P : UInt32 → Prop} [DecidablePred P]
    (h : (addresses.all fun a => decide (P a)) = true) : ∀ a ∈ addresses, P a :=
  fun a ha => of_decide_eq_true (List.all_eq_true.mp h a ha)

theorem wellFormed_program : program.WellFormed where
  plain := .of_single regions_memory rfl rfl
  sized := Memory.Sized.of_single regions_memory rfl (by decide +kernel) (by decide +kernel)
  single := by
    have hall : (addresses.all fun a => addresses.all fun b =>
        decide (physical a = physical b → a = b)) = true := by
      decide +kernel
    intro a b ha hb
    exact of_decide_eq_true (List.all_eq_true.mp (List.all_eq_true.mp hall a ha) b hb)
  parted := by
    have hall : ∀ a ∈ addresses, Instruction.hasDelaySlot { word := wordAt a } = true →
        Instruction.hasDelaySlot { word := wordAt (a + 4) } = false :=
      forall_addresses (by decide +kernel)
    intro a v w ha _ hv hw
    rw [← wordAt_eq hv, ← wordAt_eq hw]
    exact hall a ha

theorem behaves : ((compiling.armed 100).guest 0).Behaves program := by
  -- the guest never leaves the program while it runs, and never changes it
  have hvisits : ∀ {g'},
      ((compiling.armed 100).guest 0).Visits g' →
      (∀ a ∈ addresses, g'.machine.memory.readWord a = memory.readWord a) ∧
        (g'.isRunning = true → g'.pc ∈ addresses) := by
    intro g' hv
    have halways : ((compiling.armed 100).guest 0).always (fun g' =>
        addresses.all (fun a => decide (g'.machine.memory.readWord a = memory.readWord a)) &&
          decide (g'.isRunning = true → g'.pc ∈ addresses)) 20 = true := by
      decide +kernel
    obtain ⟨hmemory, hpc⟩ := Bool.and_eq_true_iff.mp (hv.of_always halways)
    exact ⟨forall_addresses hmemory, of_decide_eq_true hpc⟩
  have haligned : ∀ a ∈ addresses, a.toNat % 4 = 0 := forall_addresses (by decide +kernel)
  have hdecided : ∀ a ∈ addresses, Interpreter.isSelfLez { word := wordAt a } = false :=
    forall_addresses (by decide +kernel)
  have hslot : ∀ a ∈ addresses, Instruction.hasDelaySlot { word := wordAt a } = true →
      (memory.layout.resolve a).toOption.all (fun r => decide (r.offset.toNat + 8 ≤
        (memory.layout.regions.getD r.index default).length.toNat)) = true :=
    forall_addresses (by decide +kernel)
  have hword : ∀ {g' word},
      ((compiling.armed 100).guest 0).Visits g' → g'.isRunning = true →
      g'.machine.memory.readWord g'.pc = .ok word → g'.pc ∈ addresses ∧ wordAt g'.pc = word := by
    intro g' word hv hrunning hread
    have hpc := (hvisits hv).2 hrunning
    exact ⟨hpc, wordAt_eq (((hvisits hv).1 _ hpc).symm.trans hread)⟩
  refine ⟨fun hv a ha => (hvisits hv).1 a ha, fun hv hr => haligned _ ((hvisits hv).2 hr),
    fun hv hr hread => (hword hv hr hread).1, ?_, ?_⟩
  · intro g' word hv hrunning hread
    obtain ⟨hpc, rfl⟩ := hword hv hrunning hread
    exact hdecided _ hpc
  · intro g' word hv hrunning hread hbranch r hr
    obtain ⟨hpc, rfl⟩ := hword hv hrunning hread
    have hends := hslot _ hpc hbranch
    rw [show memory.layout.resolve g'.pc = .ok r from hr] at hends
    exact of_decide_eq_true hends

/-- Whether a block at `pc` would be code of the program. -/
def spans {γ : Type} (e : Engine RegisterBank StandardCoprocessor γ) (pc : UInt32) : Bool :=
  match Block.decode e.machine.memory pc e.config.maxBlockOps with
  | .ok ops => decide ((physical pc).toNat + 4 * ops.size ≤ 0x20000000 ∧
      ∀ i < ops.size, pc + i.toUInt32 * 4 ∈ addresses)
  | .error _ => true

theorem decodes {γ : Type} [Generator γ] {e : Engine RegisterBank StandardCoprocessor γ}
    {pc : UInt32} {fuel n : Nat} (h : e.always spans fuel n pc = true) :
    e.Decodes program fuel pc := by
  intro e' pc' hpasses _ ops hdecode
  have hspans := hpasses.of_always h
  rw [spans, hdecode] at hspans
  obtain ⟨hlow, hcode⟩ := of_decide_eq_true hspans
  exact ⟨hlow, fun hi => hcode _ hi⟩

theorem prepared_compiling : compiling.Prepared program {} where
  reachable := .new _ _ _ _ rfl
  replaceMemset := rfl
  reads hget := by cases (Registry.get?_empty _).symm.trans hget

theorem prepared_interpreting : interpreting.Prepared program default where
  reachable := .new _ _ _ _ rfl
  replaceMemset := rfl
  reads hget := by cases (Registry.get?_empty _).symm.trans hget

end Countdown

/-- Code that is generated and blocks that are interpreted take the countdown to the same end. -/
theorem Engine.run_independent_of_mode_countdown : ∃ next₁ next₂ e₁ e₂,
    run 60 0 100 Countdown.compiling = .ok next₁ e₁ ∧
    run 60 0 100 Countdown.interpreting = .ok next₂ e₂ ∧
    e₁.machine.clock.exit.isNormal = false ∧ e₂.machine.clock.exit.isNormal = false ∧
    next₁ = next₂ ∧ e₁.machine.Alike e₂.machine := by
  have hruns₁ : (match run 60 0 100 Countdown.compiling with
      | .ok _ e => decide (e.machine.clock.exit.isNormal = false ∧ e.health.successes = 1)
      | .error _ _ => false) = true := by decide +kernel
  have hruns₂ : (match run 60 0 100 Countdown.interpreting with
      | .ok _ e => decide (e.machine.clock.exit.isNormal = false ∧ e.health.successes = 0)
      | .error _ _ => false) = true := by decide +kernel
  split at hruns₁
  · rename_i next₁ e₁ hrun₁
    split at hruns₂
    · rename_i next₂ e₂ hrun₂
      obtain ⟨hstop₁, hmade₁⟩ := of_decide_eq_true hruns₁
      obtain ⟨hstop₂, hmade₂⟩ := of_decide_eq_true hruns₂
      have hlt₁ : e₁.health.successes < 2 ^ 32 := by omega
      have hlt₂ : e₂.health.successes < 2 ^ 32 := by omega
      have hsame : Countdown.compiling.machine.Alike Countdown.interpreting.machine :=
        ⟨rfl, rfl, rfl, rfl, rfl, rfl, trivial, rfl⟩
      have hdecodes₁ : (Countdown.compiling.armed 100).Decodes Countdown.program 60 0 :=
        Countdown.decodes (n := 10) (by decide +kernel)
      have hdecodes₂ : (Countdown.interpreting.armed 100).Decodes Countdown.program 60 0 :=
        Countdown.decodes (n := 10) (by decide +kernel)
      exact ⟨next₁, next₂, e₁, e₂, hrun₁, hrun₂, hstop₁, hstop₂,
        run_independent_of_mode keepsTime_standard HostGenerator.conforms Refusing.conforms
          Countdown.wellFormed_program Countdown.prepared_compiling Countdown.prepared_interpreting
          hsame rfl rfl Countdown.behaves hdecodes₁ hdecodes₂ hrun₁ hrun₂ hstop₁ hstop₂ hlt₁ hlt₂⟩
    · cases hruns₂
  · cases hruns₁

end Dynarec
