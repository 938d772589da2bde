/-
  Dynarec.Proofs.Engine.Ledger

  Nothing is reclaimed twice and nothing is lost.

  A generator that keeps a record of what it made and of what it got back shows
  where every program is: back, on its way back, or registered. Code leaves the
  registry by one of five ways, and each of them hands its program back once.
  Blocks are counted in the same way. At the end of a run nothing is on its way
  any more.
-/
import Dynarec.Proofs.CodeBudget
import Dynarec.Proofs.Engine.Tables

namespace Dynarec

variable {δ κ γ : Type}

/-- A generator with a record of the programs it made and of those it got back. -/
structure Recorded (γ : Type) where
  generator : γ
  made : List HostProgram := []
  released : List HostProgram := []

/-- The program of a compilation, if there is one. -/
def madeBy : Except LoweringError Emitted → List HostProgram
  | .ok emitted => [emitted.program]
  | .error _ => []

instance [Generator γ] : Generator (Recorded γ) where
  name r := Generator.name r.generator
  ready r := Generator.ready r.generator
  compile r source cache :=
    let c := Generator.compile r.generator source cache
    c.map fun generator => { r with generator, made := r.made ++ madeBy c.result }
  release r p :=
    { r with generator := Generator.release r.generator p, released := r.released ++ [p] }

variable [Generator γ]

theorem Recorded.foldl_release (r : Recorded γ) (programs : List HostProgram) :
    (programs.foldl Generator.release r).made = r.made ∧
      (programs.foldl Generator.release r).released = r.released ++ programs := by
  induction programs generalizing r with
  | nil => exact ⟨rfl, (List.append_nil _).symm⟩
  | cons p programs ih =>
    rw [List.foldl_cons]
    obtain ⟨hmade, hreleased⟩ := ih (Generator.release r p)
    refine ⟨hmade, hreleased.trans ?_⟩
    show r.released ++ [p] ++ programs = _
    rw [List.append_assoc]
    rfl

namespace Core

variable {R : Rules} {c c' : Core δ κ (Recorded γ)}

/-! ## Programs -/

omit [Generator γ] in
/-- The programs made when the generator is asked once more. -/
theorem made_compile [Generator γ] (r : Recorded γ) (source : BlockSource) (cache : RegisterCache) :
    (Generator.compile r source cache).generator.made =
      r.made ++ madeBy (Generator.compile r source cache).result := rfl

/-- As many programs were made as the engine says. -/
theorem Step.made_eq (hstep : Step R c c') (h : c.made = c.generator.made.length) :
    c'.made = c'.generator.made.length := by
  have hnew : ∀ {source cache} {emitted : Emitted},
      (Generator.compile c.generator source cache).result = .ok emitted →
      c.made + 1 = (Generator.compile c.generator source cache).generator.made.length := by
    intro source cache emitted hcompile
    rw [made_compile, hcompile, List.length_append, ← h]
    rfl
  cases hstep with
  | miss herror =>
    rw [made_compile, herror, List.length_append, ← h]
    rfl
  | publish hp | abandon hp =>
    obtain ⟨source, cache, emitted, hcompile, -, rfl⟩ := hp.made
    exact hnew hcompile
  | @bury id b => cases b.code <;> exact h
  | release => exact h.trans (congrArg List.length (c.generator.foldl_release c.unreleased).1.symm)
  | _ => exact h

/-- Every program that was made is back, on its way back, or registered, and is so once. -/
def Accounts (c : Core δ κ (Recorded γ)) : Prop :=
  c.generator.made.Perm (c.generator.released ++ c.unreleased ++ c.codes.toList.map (·.program))

omit [Generator γ] in
/-- Registered code is forgotten. -/
theorem Accounts.forgot (h : c.Accounts) {k : CompiledCode}
    (hk : c.codes.get? k.id.toNat = some k) : (c.forgot k).Accounts := by
  have hperm := (Registry.toList_erase_perm hk).map (·.program)
  show c.generator.made.Perm (c.generator.released ++ (c.unreleased ++ [k.program]) ++
    (c.codes.erase k.id.toNat).toList.map (·.program))
  rw [← List.append_assoc, List.append_assoc _ [k.program]]
  exact List.Perm.trans h (hperm.append_left _)

open scoped List in
/-- A new program is registered under a number that is free. -/
theorem Accounts.withCode (h : c.Accounts) {k : CompiledCode} {source : BlockSource}
    {cache : RegisterCache} {emitted : Emitted} (hfree : c.codes.get? k.id.toNat = none)
    (hcompile : (Generator.compile c.generator source cache).result = .ok emitted)
    (hprogram : emitted.program = k.program) :
    (c.withCode k (Generator.compile c.generator source cache).generator).Accounts := by
  have hperm := (Registry.toList_insert_perm hfree k).map (·.program)
  show (Generator.compile c.generator source cache).generator.made.Perm
    (c.generator.released ++ c.unreleased ++ (c.codes.insert k.id.toNat k).toList.map (·.program))
  rw [made_compile, hcompile, madeBy, hprogram]
  calc c.generator.made ++ [k.program]
    _ ~ k.program :: c.generator.made := List.perm_append_singleton _ _
    _ ~ k.program :: (c.generator.released ++ c.unreleased ++ c.codes.toList.map (·.program)) :=
        List.Perm.cons _ h
    _ ~ c.generator.released ++ c.unreleased ++ k.program :: c.codes.toList.map (·.program) :=
        List.perm_middle.symm
    _ ~ _ := hperm.symm.append_left _

/-- Steps keep accounts of programs. -/
theorem Step.accounts (hstep : Step R c c') (hlinked : c.Linked R) (hmade : c'.made < 2 ^ 32)
    (h : c.Accounts) : c'.Accounts := by
  cases hstep with
  | log | change | enroll | lend | drop | kill | charge | touch | retire | demote | republish =>
    exact h
  | @miss source cache error herror =>
    show (Generator.compile c.generator source cache).generator.made.Perm _
    rw [made_compile, herror, madeBy, List.append_nil]
    exact h
  | publish hp | abandon hp =>
    obtain ⟨source, cache, emitted, hcompile, hprogram, rfl⟩ := hp.made
    have hfree := (hlinked.next_free hmade).2
    rw [← hp.number] at hfree
    exact h.withCode hfree hcompile hprogram
  | scrap hwaiting => exact h.forgot (hlinked.scrapped (hwaiting ▸ List.mem_cons_self)).1
  | @bury id b rest hwaiting hget =>
    cases hcode : b.code with
    | none => exact h
    | some k => exact h.forgot (hlinked.code hget hcode).1
  | release =>
    obtain ⟨hmade, hreleased⟩ := c.generator.foldl_release c.unreleased
    show (c.unreleased.foldl Generator.release c.generator).made.Perm
      ((c.unreleased.foldl Generator.release c.generator).released ++ [] ++ c.codes.toList.map (·.program))
    rw [hmade, hreleased, List.append_nil]
    exact h

/-! ## The budget -/

/-- The budget holds only code that is registered. -/
def Funded (c : Core δ κ γ) : Prop :=
  ∀ n : CodeId, c.budget.contains n = true → ∃ k, c.codes.get? n.toNat = some k

omit [Generator γ] in
theorem Funded.forgot {c : Core δ κ γ} (h : c.Funded) (k : CompiledCode) : (c.forgot k).Funded := by
  intro n hn
  replace hn : (c.budget.remove k.id).2.contains n = true := hn
  rw [CodeBudget.contains_remove, Bool.and_eq_true] at hn
  obtain ⟨k', hk'⟩ := h n hn.1
  refine ⟨k', ?_⟩
  show (c.codes.erase k.id.toNat).get? n.toNat = some k'
  rw [Registry.get?_erase, if_neg]
  · exact hk'
  · intro heq
    rw [UInt32.toNat_inj.mp heq] at hn
    simp at hn

theorem Step.funded {c c' : Core δ κ γ} (hstep : Step R c c') (h : c.Funded) : c'.Funded := by
  have hinsert : ∀ k n, c.budget.contains n = true →
      ∃ k', (c.codes.insert k.id.toNat k).get? n.toNat = some k' := by
    intro k n hn
    rw [Registry.get?_insert]
    split
    · exact ⟨k, rfl⟩
    · exact h n hn
  cases hstep with
  | log | change | enroll | lend | drop | kill | miss | retire | demote | republish | release =>
    exact h
  | charge hcode =>
    intro n hn
    rcases CodeBudget.contains_insert hn with rfl | hn
    · exact ⟨_, hcode⟩
    · exact h n hn
  | touch id =>
    intro n hn
    exact h n ((c.budget.contains_touch id n).symm.trans hn)
  | publish | abandon => exact hinsert _
  | scrap => exact h.forgot _
  | @bury id b rest hwaiting hget =>
    cases hcode : b.code with
    | none => exact h
    | some k => exact h.forgot k

/-! ## Blocks -/

/-- Blocks are counted right. -/
structure Counts (c : Core δ κ γ) : Prop where
  cached : c.cache.Counted
  precompiled : c.tally.precompiled = c.cache.count + c.tally.uncached + c.tally.lost
  reclaimed : c.tally.lost = c.tally.reclaimed + c.condemned.length

theorem Step.counts {c c' : Core δ κ γ} (hstep : Step R c c') (hs : c.Sound R) (h : c.Counts) :
    c'.Counts := by
  -- Blocks are counted when they are decoded, when they are lost and when they are reclaimed; code
  -- that waits is not counted.
  cases hstep with
  | log | change | drop | miss | charge | touch | retire | demote | republish | release =>
    exact ⟨h.cached, h.precompiled, h.reclaimed⟩
  | enroll =>
    refine ⟨h.cached.insert hs.cache _, ?_, h.reclaimed⟩
    show c.tally.precompiled + 1 = c.cache.count + 1 + c.tally.uncached + c.tally.lost
    rw [h.precompiled]
    omega
  | lend =>
    refine ⟨h.cached, ?_, h.reclaimed⟩
    show c.tally.precompiled + 1 = c.cache.count + (c.tally.uncached + 1) + c.tally.lost
    rw [h.precompiled]
    omega
  | @kill id b hget hheld =>
    obtain ⟨hcounted, hcount⟩ := h.cached.erase hs.cache hheld
    refine ⟨hcounted, ?_, ?_⟩
    · show c.tally.precompiled =
        (c.cache.erase ⟨b.start, id⟩).count + c.tally.uncached + (c.tally.lost + 1)
      rw [h.precompiled]
      omega
    · show c.tally.lost + 1 =
        c.tally.reclaimed + ((c.waiting ++ [Discarded.block id]).filterMap Discarded.block?).length
      rw [List.filterMap_append, List.length_append, h.reclaimed]
      rfl
  | @publish id b k offsets start t g hp =>
    refine ⟨h.cached, h.precompiled, ?_⟩
    show c.tally.lost = c.tally.reclaimed +
      ((c.waiting ++ (b.code.map Discarded.code).toList).filterMap Discarded.block?).length
    rw [List.filterMap_append, List.length_append, h.reclaimed]
    cases b.code <;> rfl
  | @abandon id b k offsets start t g hp =>
    refine ⟨h.cached, h.precompiled, ?_⟩
    show c.tally.lost =
      c.tally.reclaimed + ((c.waiting ++ [Discarded.code k]).filterMap Discarded.block?).length
    rw [List.filterMap_append, List.length_append, h.reclaimed]
    rfl
  | @scrap k rest hwaiting =>
    refine ⟨h.cached, h.precompiled, h.reclaimed.trans ?_⟩
    rw [condemned, hwaiting]
    rfl
  | @bury id b rest hwaiting hget =>
    have hlost : c.tally.lost = c.tally.reclaimed + 1 + (rest.filterMap Discarded.block?).length := by
      rw [h.reclaimed, condemned, hwaiting, List.filterMap_cons]
      simp only [Discarded.block?, List.length_cons]
      omega
    cases b.code with
    | none => exact ⟨h.cached, h.precompiled, hlost⟩
    | some k => exact ⟨h.cached, h.precompiled, hlost⟩

/-! ## All of it -/

/-- Programs, budget and blocks are accounted for. -/
structure Balanced (R : Rules) (c : Core δ κ (Recorded γ)) : Prop where
  linked : c.Linked R
  accounts : c.Accounts
  funded : c.Funded
  counts : c.Counts

/-- The engine knows how many programs were made, and until their numbers repeat its books are in
order. -/
def Audited (R : Rules) (c : Core δ κ (Recorded γ)) : Prop :=
  c.made = c.generator.made.length ∧ (c.made < 2 ^ 32 → c.Balanced R)

theorem Step.audited (hstep : Step R c c') (hs : c.Sound R) (h : c.Audited R) : c'.Audited R := by
  refine ⟨hstep.made_eq h.1, ?_⟩
  intro hmade
  have hbalanced := h.2 (Nat.lt_of_le_of_lt hstep.counts_le.1 hmade)
  exact {
    linked := hstep.linked hs (fun _ => hbalanced.linked) hmade
    accounts := hstep.accounts hbalanced.linked hmade hbalanced.accounts
    funded := hstep.funded hbalanced.funded
    counts := hstep.counts hs hbalanced.counts }

/-- What happens to the machine is no business of the books. -/
theorem Move.audited {free : Prop} (hmove : Move R free c c') (hs : c.Sound R)
    (h : c.Audited R) : c'.Audited R := by
  have hlinked := hmove.linked hs fun hmade => (h.2 hmade).linked
  cases hmove with
  | step hstep => exact hstep.audited hs h
  | machine =>
    refine ⟨h.1, ?_⟩
    intro hmade
    obtain ⟨-, haccounts, hfunded, hcounts⟩ := h.2 hmade
    exact ⟨hlinked hmade, haccounts, hfunded, ⟨hcounts.cached, hcounts.precompiled, hcounts.reclaimed⟩⟩

end Core

namespace Engine

variable [Device δ] [Coprocessor κ]

omit [Device δ] [Coprocessor κ] in
theorem audited_create {R : Rules} (memory : Memory δ) (cop0 cop2 : κ) (config : Config) (g : γ)
    (log : Log) :
    (create memory cop0 cop2 config ({ generator := g } : Recorded γ) log).core.Audited R := by
  refine ⟨rfl, fun _ => ⟨linked_create memory cop0 cop2 config _ log, List.Perm.refl [], ?_,
    ⟨BlockCache.counted_empty, rfl, rfl⟩⟩⟩
  intro n h
  have hheld : (CodeBudget.empty config.normalize.codeBudgetBytes :
      CodeBudget (RecencyList CodeId Nat)).contains n = true := h
  rw [CodeBudget.contains_eq, CodeBudget.queue_empty] at hheld
  cases hheld

/-- The rules of an engine whose generator may make anything. -/
def anything : Rules where
  start _ := True
  makes _ _ _ := True

theorem Reachable.audited {g : γ} {e : Engine δ κ (Recorded γ)}
    (h : Reachable { generator := g } e) :
    e.core.Sound anything ∧ e.core.Audited anything :=
  h.invariant (fun _ _ _ _ _ => trivial) (fun _ => trivial)
    (fun memory cop0 cop2 config log => audited_create memory cop0 cop2 config g log)
    fun hs ha hmove => hmove.audited hs ha

/-- After a run every program that the generator made has been handed back or is registered, and no
program has been handed back more often than it was made. Registered is just the code that cached
blocks have, the budget holds nothing else, and the counts of blocks add up. -/
theorem reclaimed_exactly_once {g : γ} {e e' : Engine δ κ (Recorded γ)}
    (h : Reachable { generator := g } e) {fuel : Nat} {call : HostCall}
    (hruns : call.runsGuest = true) (hcall : call.perform fuel e = .ok () e')
    (hmade : e'.generator.made.length < 2 ^ 32) :
    e'.generator.made.Perm (e'.generator.released ++ e'.codes.toList.map (·.program)) ∧
    (∀ p, e'.generator.released.count p ≤ e'.generator.made.count p) ∧
    e'.generator.made.length = e'.generator.released.length + e'.codes.toList.length ∧
    (∀ k, k ∈ e'.codes.toList ↔ ∃ id b, e'.blocks.get? id = some b ∧ b.code = some k ∧
      e'.cache.Holds { start := b.start, block := id }) ∧
    (∀ n, e'.budget.contains n = true → ∃ k ∈ e'.codes.toList, k.id = n) ∧
    e'.cache.count + e'.counters.uncachedBlocks + e'.counters.outdatedBlocks +
      e'.counters.deadBlocks = e'.counters.blocksPrecompiled ∧
    e'.counters.reclaimedBlocks = e'.counters.outdatedBlocks + e'.counters.deadBlocks := by
  have hR : anything.Admits (Recorded γ) := fun _ _ _ _ _ => trivial
  have hdrained := ((ensures_perform hR (fun _ => trivial) h.audited.1 fuel call).ok hcall).2 hruns
  obtain ⟨-, hcount, hbalanced⟩ := (h.call hcall).audited
  obtain ⟨hlinked, haccounts, hfunded, hcounts⟩ := hbalanced (hcount ▸ hmade)
  have hperm : e'.generator.made.Perm
      (e'.generator.released ++ e'.codes.toList.map (·.program)) := by
    have hall : e'.generator.made.Perm
        (e'.generator.released ++ e'.core.unreleased ++ e'.codes.toList.map (·.program)) := haccounts
    rw [hdrained.2, List.append_nil] at hall
    exact hall
  refine ⟨hperm, ?_, ?_, ?_, ?_, ?_, ?_⟩
  · intro p
    rw [hperm.count_eq, List.count_append]
    exact Nat.le_add_right _ _
  · rw [hperm.length_eq, List.length_append, List.length_map]
  · intro k
    rw [Registry.mem_toList]
    constructor
    · rintro ⟨n, hk⟩
      obtain ⟨-, -, -, ⟨id, b, hget, hcode⟩ | hwaiting⟩ := hlinked.registered hk
      · rcases hlinked.placed hget hcode with hheld | hwaiting
        · exact ⟨id, b, hget, hcode, hheld⟩
        · rw [hdrained.1] at hwaiting
          cases hwaiting
      · rw [hdrained.1] at hwaiting
        cases hwaiting
    · rintro ⟨id, b, hget, hcode, -⟩
      exact ⟨_, (hlinked.code hget hcode).1⟩
  · intro n hn
    obtain ⟨k, hk⟩ := hfunded n hn
    exact ⟨k, Registry.mem_toList.mpr ⟨_, hk⟩, UInt32.toNat_inj.mp (hlinked.registered hk).1⟩
  · have hblocks : e'.counters.blocksPrecompiled = e'.cache.count + e'.counters.uncachedBlocks +
        (e'.counters.outdatedBlocks + e'.counters.deadBlocks) := hcounts.precompiled
    omega
  · have hlost : e'.counters.outdatedBlocks + e'.counters.deadBlocks =
        e'.counters.reclaimedBlocks + e'.core.condemned.length := hcounts.reclaimed
    rw [Core.condemned, hdrained.1] at hlost
    exact hlost.symm

/-- The loop has been run, overwritten and invalidated. When it is run again its code is handed back
and its block reclaimed; the code of the new block is registered. -/
theorem reclaimed_exactly_once_overwritten :
    ∃ (e e' : Engine RegisterBank StandardCoprocessor (Recorded HostGenerator)) (k : CompiledCode),
      performAll 100 [.restoreRegisters twoRounds, .executeOne 0, .write (.word 0 0x24420064),
        .invalidate 0 4, .restoreRegisters twoRounds] (newLooping { generator := {} }) = .ok () e ∧
      HostCall.perform 100 (.executeOne 0) e = .ok () e' ∧ e'.generator.made.length = 2 ∧
      e'.generator.released.length = 1 ∧ e'.codes.toList = [k] ∧
      e'.generator.made.Perm (e'.generator.released ++ [k.program]) ∧
      e'.counters.blocksPrecompiled = 2 ∧ e'.cache.count = 1 ∧ e'.counters.reclaimedBlocks = 1 ∧
      e'.counters.outdatedBlocks + e'.counters.deadBlocks = 1 := by
  have hruns : EngineM.passes (performAll 100 [.restoreRegisters twoRounds, .executeOne 0,
      .write (.word 0 0x24420064), .invalidate 0 4, .restoreRegisters twoRounds])
      (fun _ => EngineM.passes (HostCall.perform 100 (.executeOne 0)) fun _ e' =>
        decide (e'.generator.made.length = 2 ∧ e'.generator.released.length = 1 ∧
          e'.counters.blocksPrecompiled = 2 ∧ e'.cache.count = 1 ∧ e'.counters.reclaimedBlocks = 1))
      (newLooping ({ generator := {} } : Recorded HostGenerator)) = true := by decide +kernel
  obtain ⟨_, e, hcalls, hruns⟩ := EngineM.exists_of_passes hruns
  obtain ⟨_, e', hcall, hfacts⟩ := EngineM.exists_of_passes hruns
  obtain ⟨hmade, hreleased, hprecompiled, hcount, hreclaimed⟩ := of_decide_eq_true hfacts
  obtain ⟨hperm, -, hlength, -, -, -, hsum⟩ := reclaimed_exactly_once
    ((Reachable.new _ _ _ _ rfl).performAll hcalls) rfl hcall (by rw [hmade]; decide)
  obtain ⟨k, hk⟩ := List.length_eq_one_iff.mp (show e'.codes.toList.length = 1 by omega)
  rw [hk] at hperm
  exact ⟨e, e', k, hcalls, hcall, hmade, hreleased, hk, hperm, hprecompiled, hcount, hreclaimed,
    hsum.symm.trans hreclaimed⟩

end Engine

end Dynarec
