/-
  Dynarec.Proofs.Engine.Tables

  The tables of an engine with the built-in generator.

  Between calls from the host the tables can be relied on: what the cache finds
  is alive, what the table of entries leads into is the code that a cached block
  has, and it can be entered there. The two reasons to give up that would show
  a broken promise never come up.
-/
import Dynarec.Proofs.Engine.Links

namespace Dynarec

variable {δ κ : Type} [Device δ] [Coprocessor κ]

/-- What the built-in generator makes. -/
def Rules.host (start : UInt32 → Prop) : Rules where
  start := start
  makes source p targets := targets = p.targets ∧ ∃ cache : RegisterCache, cache.WellFormed ∧
    (HostProgram.generate source cache).result = .ok p

theorem Rules.admits_host (start : UInt32 → Prop) : (Rules.host start).Admits HostGenerator := by
  intro g source cache emitted h
  obtain ⟨hgenerate, htargets⟩ := HostProgram.generate_of_compile h
  exact ⟨htargets, cache.reset, cache.wellFormed_reset, hgenerate⟩

/-- Code that the built-in generator made for a block can be entered at its start and at the
offsets it names. -/
theorem Block.Suits.entryPoint? {start : UInt32 → Prop} {b : Block} {p : HostProgram}
    {offsets : List Nat} (h : b.Suits (.host start) p offsets) {offset : Nat}
    (hoffset : offset = 0 ∨ offset ∈ offsets) :
    (offset = 0 ∨ offset ∈ p.targets) ∧ ∃ place, p.entryPoint? offset = some place := by
  obtain ⟨source, targets, hsource, ⟨rfl, cache, hcache, hgenerate⟩, hoffsets⟩ := h
  have htarget := hoffset.imp_right (hoffsets offset)
  obtain ⟨sEnd, hassembled⟩ := HostProgram.assembled_of_generate
    (σ := (⟨b, source, False⟩ : HostProgram.Site RegisterBank StandardCoprocessor))
    hsource.faithful hcache hgenerate
  obtain ⟨place, hlabel⟩ := hassembled.targets htarget
  exact ⟨htarget, place, hassembled.entry hlabel⟩

/-- Memory of the regions, with words written at one place. -/
def Memory.loaded (specs : Array (RegionSpec δ)) (addr : UInt32) (words : List UInt32) : Memory δ :=
  match ofRegions specs with
  | .ok m => (m.writeWords addr words).2
  | .error _ => default

namespace Engine

/-- Code whose block is there is called. -/
theorem isSome_of_callPublished {γ : Type} {e e' : Engine δ κ γ} {fuel offset : Nat} {n : CodeId}
    {k : CompiledCode} {id : BlockId} {b : Block} {next : Option UInt32}
    (hcode : e.codes.get? n.toNat = some k) (hblock : k.block = some id)
    (hget : e.blocks.get? id = some b) (h : callPublished fuel n offset e = .ok next e') :
    next.isSome := by
  have heq : callPublished fuel n offset e = (some <$> callCode fuel k offset id b) e := by
    rw [callPublished, EngineM.get_bind_eq, hcode]
    dsimp only
    rw [hblock]
    dsimp only
    rw [hget]
  rw [heq] at h
  replace h : EStateM.map some (callCode fuel k offset id b) e = .ok next e' := h
  unfold EStateM.map at h
  split at h
  · cases h
    rfl
  · cases h

/-- Between calls from the host the cache holds one block per start address, all of them alive, and
every entry that leads into code leads into the current code of a cached block, at the slot of the
instruction where it is entered. Calls never give up because a promise about blocks is broken. -/
theorem tables_consistent {g : HostGenerator} {e : Engine δ κ HostGenerator} (h : Reachable g e)
    (hmade : e.health.successes < 2 ^ 32) :
    (∀ {l l' : CacheLine}, e.cache.Holds l → e.cache.Holds l' → l.start = l'.start → l = l') ∧
    (∀ {l : CacheLine}, e.cache.Holds l → ∃ b, e.blocks.get? l.block = some b ∧
      b.start = l.start ∧ b.flags.isDead = false) ∧
    (∀ {slot : Nat} {n : CodeId} {offset : Nat}, e.machine.entries.load slot = .code n offset →
      ∃ k id b, e.codes.get? n.toNat = some k ∧ k.id = n ∧ k.block = some id ∧
        e.blocks.get? id = some b ∧ b.code = some k ∧
        e.cache.Holds { start := b.start, block := id } ∧
        e.machine.entries.index? (b.start + offset.toUInt32 * 4) = some slot ∧
        (offset = 0 ∨ offset ∈ k.program.targets ∧ offset < b.opCount) ∧
        (∃ place, k.program.entryPoint? offset = some place) ∧
        ∀ {fuel : Nat} {next : Option UInt32} {e' : Engine δ κ HostGenerator},
          callPublished fuel n offset e = .ok next e' → next.isSome) ∧
    ∀ {fuel : Nat} {call : HostCall} {abort : Abort} {e' : Engine δ κ HostGenerator},
      call.perform fuel e = .error abort e' →
        (∀ pc, abort ≠ .unregisteringUncached pc) ∧ ∀ pc, abort ≠ .compiledUncached pc := by
  have hR := Rules.admits_host fun _ => True
  obtain ⟨hs, hlinked⟩ := h.linked hR fun _ => trivial
  replace hlinked := hlinked hmade
  refine ⟨hs.cache.start, ?_, ?_, ?_⟩
  · intro l hl
    obtain ⟨b, -, ⟨hget, -⟩, hstart, halive⟩ := hs.cached hl
    exact ⟨b, hget, hstart, halive⟩
  · intro slot n offset hload
    obtain ⟨id, b, k, hcurrent, rfl, -, hindex, hoffset⟩ := hlinked.entry hload
    obtain ⟨hcode, hblock, -⟩ := hlinked.code hcurrent.get hcurrent.code
    have hentry : (offset = 0 ∨ offset ∈ k.program.targets ∧ offset < b.opCount) ∧
        ∃ place, k.program.entryPoint? offset = some place := by
      rcases hoffset with rfl | ⟨hlt, hsuits⟩
      · exact ⟨.inl rfl, (((hs.block hcurrent.get).1.code hcurrent.code).entryPoint? (.inl rfl)).2⟩
      · obtain ⟨htarget, hplace⟩ := hsuits.entryPoint? (.inr List.mem_cons_self)
        exact ⟨htarget.imp_right fun ht => ⟨ht, hlt⟩, hplace⟩
    exact ⟨k, id, b, hcode, rfl, hblock, hcurrent.get, hcurrent.code, hcurrent.held, hindex, hentry.1,
      hentry.2, isSome_of_callPublished hcode hblock hcurrent.get⟩
  · intro fuel call abort e' hcall
    have hexcused := (ensures_perform hR (fun _ => trivial) hs fuel call).excused hcall
    refine ⟨?_, ?_⟩
    · rintro pc rfl
      exact hexcused
    · rintro pc rfl
      exact hexcused

/-- A loop that counts in register 2. It can be entered at its fourth instruction, and branches back
to its first. -/
def looping : Memory RegisterBank :=
  .loaded #[.ram 0 0x20] 0
    [0x24420001, 0x14800001, 0, 0x2463ffff, 0x1460fffb, 0, 0x03e00008, 0]

/-- Two rounds of the loop to go. -/
def twoRounds : Registers := (({} : Registers).set 3 2).set 4 1

/-- An engine over the loop that compiles it when it is run. -/
def newLooping {γ : Type} [Generator γ] (g : γ) : Engine RegisterBank StandardCoprocessor γ :=
  create looping .inert .inert
    { threaded := false, replaceMemset := false, firstPass := false, codeBudgetBytes := 0 } g default

/-- The loop has been run. Two entries lead into its code, one to its start and one to its fourth
instruction. -/
theorem tables_consistent_looping :
    ∃ (e : Engine RegisterBank StandardCoprocessor HostGenerator) (k : CompiledCode) (id : BlockId)
      (b : Block),
      performAll 100 [.restoreRegisters twoRounds, .executeOne 0] (newLooping {}) = .ok () e ∧
      e.health.successes < 2 ^ 32 ∧ e.machine.entries.load 0 = .code 1 0 ∧
      e.machine.entries.load 3 = .code 1 3 ∧ e.codes.get? 1 = some k ∧ k.block = some id ∧
      e.blocks.get? id = some b ∧ b.code = some k ∧ b.flags.isDead = false ∧
      e.cache.Holds { start := b.start, block := id } ∧
      e.machine.entries.index? b.start = some 0 ∧
      e.machine.entries.index? (b.start + 12) = some 3 ∧ 3 ∈ k.program.targets ∧ 3 < b.opCount := by
  have hruns : EngineM.passes (performAll 100 [.restoreRegisters twoRounds, .executeOne 0])
      (fun _ e => decide (e.health.successes < 2 ^ 32 ∧ e.machine.entries.load 0 = .code 1 0 ∧
        e.machine.entries.load 3 = .code 1 3)) (newLooping ({} : HostGenerator)) = true := by
    decide +kernel
  obtain ⟨_, e, hcalls, hfacts⟩ := EngineM.exists_of_passes hruns
  obtain ⟨hmade, hstart, hinner⟩ := of_decide_eq_true hfacts
  obtain ⟨-, halive, hentry, -⟩ :=
    tables_consistent ((Reachable.new _ _ _ _ rfl).performAll hcalls) hmade
  obtain ⟨k, id, b, hk, -, hid, hb, hcode, hheld, hindex, -⟩ := hentry hstart
  obtain ⟨_, _, _, hk', -, hid', hb', -, -, hindex', htarget, -⟩ := hentry hinner
  cases hk.symm.trans hk'
  cases hid.symm.trans hid'
  cases hb.symm.trans hb'
  obtain ⟨_, hb', -, hdead⟩ := halive hheld
  cases hb.symm.trans hb'
  obtain ⟨htarget, hlt⟩ := htarget.resolve_left (by decide)
  exact ⟨e, k, id, b, hcalls, hmade, hstart, hinner, hk, hid, hb, hcode, hdead, hheld,
    (UInt32.add_zero b.start).symm ▸ hindex, hindex', htarget, hlt⟩

end Engine

end Dynarec
