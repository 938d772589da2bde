/-
  Dynarec.Proofs.Host.Costs

  What the steps of code generation take.

  A step takes host registers, which stay locked until the instruction is done;
  it makes the program longer; and it sums up cycles. `Costs` bounds all three
  and says that a step with enough of each succeeds, whatever the instruction
  word and the flags are.

  A write-back made to free a host register is paid for by the request that
  made the register dirty: `Lowering.weight` counts the write-backs that wait
  beside the operations that are there, so that each request adds one at most.
-/
import Dynarec.Proofs.Host.Branches
import Dynarec.Proofs.RegisterUse

namespace Dynarec

namespace RegisterCache

/-! ## Room and write-backs -/

/-- Number of host registers that can be handed out. -/
def unlocked (c : RegisterCache) : Nat := hosts.countP fun h => !c.slots[h].locked

/-- Number of write-backs that wait. -/
def waiting (c : RegisterCache) : Nat := (hosts.filterMap c.writeBack?).length

variable {c d : RegisterCache} {a : Allocation} {g : Reg} {h k : HostReg}

theorem ne_of_mem_erase_hosts (hk : k ∈ hosts.erase h) : k ≠ h := by
  have hnodup : hosts.Nodup := by decide
  exact (hnodup.mem_erase_iff.mp hk).1

/-- The host registers, one of them apart. -/
theorem perm_hosts (h : HostReg) : hosts.Perm (h :: hosts.erase h) :=
  List.perm_cons_erase (mem_hosts h)

theorem unlocked_le_of_others (h : HostReg)
    (hs : ∀ {k}, k ≠ h → d.slots[k] = c.slots[k]) : c.unlocked ≤ d.unlocked + 1 := by
  -- `h` may have been locked; the others count the same in both
  have hrest : (hosts.erase h).countP (fun k => !c.slots[k].locked) =
      (hosts.erase h).countP fun k => !d.slots[k].locked := by
    apply List.countP_congr
    intro k hk
    rw [hs (ne_of_mem_erase_hosts hk)]
  unfold unlocked
  rw [(perm_hosts h).countP_eq, (perm_hosts h).countP_eq, List.countP_cons, List.countP_cons, hrest]
  split <;> split <;> omega

theorem writeBack?_congr {h : HostReg} (hg : d.slots[h].guest = c.slots[h].guest)
    (hd : d.slots[h].dirty = c.slots[h].dirty) : d.writeBack? h = c.writeBack? h := by
  unfold writeBack?
  rw [hg, hd]

theorem waiting_eq (c : RegisterCache) (h : HostReg) : c.waiting = (c.writeBack? h).toList.length +
      ((hosts.erase h).filterMap c.writeBack?).length := by
  unfold waiting
  rw [((perm_hosts h).filterMap _).length_eq]
  cases hb : c.writeBack? h with
  | none => simp [hb]
  | some t => simp [hb]; omega

theorem length_toList_le (x : Option RegisterTransfer) : x.toList.length ≤ 1 := by
  cases x <;> simp

theorem SameUse.waiting_eq (h : c.SameUse d) : d.waiting = c.waiting := by
  have hsame : d.writeBack? = c.writeBack? := funext fun k => writeBack?_congr (h k).1 (h k).2
  unfold waiting
  rw [hsame]

theorem Clean.waiting_eq (h : c.Clean) : c.waiting = 0 := by
  have hnone (k : HostReg) : c.writeBack? k = none := by
    unfold writeBack?
    rw [h k]
    cases c.slots[k].guest <;> rfl
  simp [waiting, hnone]

theorem unlocked_of_forall (h : ∀ k : HostReg, c.slots[k].locked = false) : c.unlocked = 8 := by
  have hall : hosts.countP (fun k => !c.slots[k].locked) = hosts.length :=
    List.countP_eq_length.mpr fun k _ => by rw [h k]; rfl
  exact hall

theorem unlocked_releaseLocks (c : RegisterCache) : c.releaseLocks.unlocked = 8 :=
  unlocked_of_forall fun k => by simp [releaseLocks]

theorem unlocked_unloadAll (c : RegisterCache) : c.unloadAll.2.unlocked = 8 :=
  unlocked_of_forall fun k => by simp [unloadAll]

theorem unlocked_reset (c : RegisterCache) : c.reset.unlocked = 8 :=
  unlocked_of_forall fun k => by simp [reset]

theorem unlocked_flushAll (c : RegisterCache) : c.flushAll.2.unlocked = c.unlocked := by
  unfold unlocked
  simp only [locked_flushAll]

theorem unlocked_le (c : RegisterCache) : c.unlocked ≤ 8 := List.countP_le_length

/-! ## Requests -/

/-- What a request takes: one host register at most, and one operation for now or later. -/
structure Serves (c : RegisterCache) (a : Allocation) : Prop where
  wellFormed : a.cache.WellFormed
  unlocked : c.unlocked ≤ a.cache.unlocked + 1
  waiting : a.transfers.length + a.cache.waiting ≤ c.waiting + 1

/-- Only the host register handed out changes hands. -/
theorem Serves.of_others (hw : a.cache.WellFormed)
    (hs : ∀ {k}, k ≠ a.host → a.cache.slots[k] = c.slots[k])
    (hcost : a.transfers.length + (a.cache.writeBack? a.host).toList.length ≤
      (c.writeBack? a.host).toList.length + 1) : c.Serves a where
  wellFormed := hw
  unlocked := unlocked_le_of_others a.host hs
  waiting := by
    have hrest : ((hosts.erase a.host).filterMap a.cache.writeBack?).length =
        ((hosts.erase a.host).filterMap c.writeBack?).length := by
      rw [List.length_filterMap_eq_countP, List.length_filterMap_eq_countP]
      apply List.countP_congr
      intro k hk
      have hsame := hs (ne_of_mem_erase_hosts hk)
      rw [writeBack?_congr (congrArg HostSlot.guest hsame) (congrArg HostSlot.dirty hsame)]
    rw [a.cache.waiting_eq a.host, c.waiting_eq a.host, hrest]
    omega

theorem slots_touch_of_ne (c : RegisterCache) (hk : k ≠ h) : (c.touch h).slots[k] = c.slots[k] :=
  c.slots.getElem_set_of_ne hk _

theorem slots_setDirty_of_ne (c : RegisterCache) (hk : k ≠ h) (dirty : Bool) :
    (c.setDirty h dirty).slots[k] = c.slots[k] :=
  c.slots.getElem_set_of_ne hk _

theorem slots_assign_of_ne (c : RegisterCache) (hk : k ≠ h) (g : Reg) :
    (c.assign h g).slots[k] = c.slots[k] :=
  c.slots.getElem_set_of_ne hk _

/-- The mapping of a register that is read from the file needs no write-back. -/
theorem writeBack?_touch_assign (c : RegisterCache) {h : HostReg} (hd : c.slots[h].dirty = false)
    (g : Reg) : ((c.assign h g).touch h).writeBack? h = none := by
  have hdirty : ((c.assign h g).touch h).slots[h].dirty = false := by
    rw [((c.assign h g).sameUse_touch h h).2]
    simpa [assign] using hd
  unfold writeBack?
  rw [hdirty]
  split
  · rename_i hfalse
    cases hfalse
  · rfl

theorem serves_allocIn? (hw : c.WellFormed) (hown : g.IsOwn) (ha : c.allocIn? g = some a) :
    c.Serves a := by
  have hread := Reads.of_allocIn? hw hown ha
  unfold allocIn? at ha
  split at ha
  · rename_i h hf
    cases ha
    refine .of_others hread.wellFormed (slots_touch_of_ne c) ?_
    have hsame := writeBack?_congr (c.sameUse_touch h h).1 (c.sameUse_touch h h).2
    simp [hsame]
  · split at ha
    · cases ha
    · rename_i v hv
      cases ha
      have hvac := Vacated.of_vacate? hw hv
      refine .of_others hread.wellFormed ?_ ?_
      · intro k hk
        rw [slots_touch_of_ne _ hk, slots_assign_of_ne _ hk, hvac.others hk]
      · -- the write-back and the load, but what was loaded is not written back later
        dsimp only
        rw [writeBack?_touch_assign v.cache hvac.dirty, transfers_vacate? hv]
        simp

theorem serves_allocOut? (hw : c.WellFormed) (hown : g.IsOwn) (h0 : g ≠ 0)
    (ha : c.allocOut? g = some a) : c.Serves a := by
  have hwrite := Writes.of_allocOut? hw hown h0 ha
  have hone := length_toList_le (a.cache.writeBack? a.host)
  unfold allocOut? at ha
  split at ha
  · cases ha
    refine .of_others hwrite.wellFormed ?_ ?_
    · intro k hk
      rw [slots_touch_of_ne _ hk, slots_setDirty_of_ne _ hk]
    · rw [List.length_nil, Nat.zero_add]
      exact Nat.le_add_left_of_le hone
  · split at ha
    · cases ha
    · rename_i v hv
      cases ha
      refine .of_others hwrite.wellFormed ?_ ?_
      · intro k hk
        rw [slots_touch_of_ne _ hk, slots_setDirty_of_ne _ hk, slots_assign_of_ne _ hk,
          (Vacated.of_vacate? hw hv).others hk]
      · -- the write-back of the one that was there, and later that of the new one
        rw [transfers_vacate? hv]
        exact Nat.add_le_add_left hone _

theorem serves_allocTemp? (hw : c.WellFormed) (ha : c.allocTemp? = some a) : c.Serves a := by
  have hlend := Lends.of_allocTemp? hw ha
  have hone := length_toList_le (a.cache.writeBack? a.host)
  unfold allocTemp? at ha
  split at ha
  · cases ha
  · rename_i v hv
    cases ha
    refine .of_others hlend.wellFormed ?_ ?_
    · intro k hk
      rw [slots_touch_of_ne _ hk]
      exact (v.cache.slots.getElem_set_of_ne hk {}).trans ((Vacated.of_vacate? hw hv).others hk)
    · rw [transfers_vacate? hv]
      exact Nat.add_le_add_left hone _

/-- A request that is served while there is room. -/
def Supplies (request : RegisterCache → Option Allocation) : Prop :=
  ∀ {c : RegisterCache}, c.WellFormed → 0 < c.unlocked → ∃ a, request c = some a ∧ c.Serves a

theorem not_locked_of_unlocked_pos (h : 0 < c.unlocked) :
    ¬∀ k : HostReg, c.slots[k].locked = true := by
  intro hall
  obtain ⟨k, -, hk⟩ := List.countP_pos_iff.mp h
  rw [hall k] at hk
  cases hk

theorem supplies_allocIn? (hown : g.IsOwn) : Supplies (·.allocIn? g) := by
  intro c hw hroom
  cases ha : c.allocIn? g with
  | none => exact absurd (allocIn?_eq_none_iff.mp ha).2 (not_locked_of_unlocked_pos hroom)
  | some a => exact ⟨a, ha, serves_allocIn? hw hown ha⟩

theorem supplies_allocOut? (hown : g.IsOwn) (h0 : g ≠ 0) : Supplies (·.allocOut? g) := by
  intro c hw hroom
  cases ha : c.allocOut? g with
  | none => exact absurd (allocOut?_eq_none_iff.mp ha).2 (not_locked_of_unlocked_pos hroom)
  | some a => exact ⟨a, ha, serves_allocOut? hw hown h0 ha⟩

theorem supplies_allocTemp? : Supplies allocTemp? := by
  intro c hw hroom
  cases ha : c.allocTemp? with
  | none => exact absurd (allocTemp?_eq_none_iff.mp ha) (not_locked_of_unlocked_pos hroom)
  | some a => exact ⟨a, rfl, serves_allocTemp? hw ha⟩

end RegisterCache

/-- Cycles that an operation charges. -/
def HostOp.cycles : HostOp → Nat
  | .tick cycles => cycles.toNat
  | _ => 0

/-- An operation that neither jumps nor charges. -/
def HostOp.IsPlain (op : HostOp) : Prop := op.IsStraight ∧ op.cycles = 0

namespace Lowering

open RegisterCache (Supplies supplies_allocIn? supplies_allocOut? supplies_allocTemp?)

/-! ## Cycles and length -/

/-- Cycles that operations charge. -/
def ticks : List HostOp → Nat
  | [] => 0
  | op :: ops => op.cycles + ticks ops

@[simp] theorem ticks_nil : ticks [] = 0 := rfl

@[simp] theorem ticks_cons (op : HostOp) (ops : List HostOp) :
    ticks (op :: ops) = op.cycles + ticks ops := rfl

theorem ticks_append (ops ops' : List HostOp) : ticks (ops ++ ops') = ticks ops + ticks ops' := by
  induction ops with
  | nil => simp
  | cons op ops ih => rw [List.cons_append, ticks_cons, ticks_cons, ih, Nat.add_assoc]

theorem ticks_transfers (ts : List RegisterTransfer) : ticks (ts.map transferOp) = 0 := by
  induction ts with
  | nil => rfl
  | cons t ts ih =>
    rw [List.map_cons, ticks_cons, ih]
    cases t <;> rfl

/-- Length of the program, with the write-backs that wait. -/
def weight (s : Lowering) : Nat := s.program.size + s.cache.waiting

theorem size_pushTransfers (program : Array HostOp) (ts : List RegisterTransfer) :
    (pushTransfers program ts).size = program.size + ts.length := by
  rw [← Array.length_toList, toList_pushTransfers, List.length_append, List.length_map,
    Array.length_toList]

/-- From `s` to `s'` the generator appended a straight line. It handed out `locks` host registers at
most, added `room` operations at most, and summed up `charged` cycles more. -/
structure Appends (s s' : Lowering) (locks room charged : Nat) : Prop where
  line : ∃ ops, s.Extends s' ops ∧ ticks ops + s'.cycles.toNat = s.cycles.toNat + charged
  unlocked : s.cache.unlocked ≤ s'.cache.unlocked + locks
  weight : s'.weight ≤ s.weight + room

variable {s s' s'' : Lowering} {locks room charged locks' room' charged' : Nat}

theorem Appends.refl (hw : s.cache.WellFormed) : s.Appends s 0 0 0 :=
  ⟨⟨[], Extends.refl hw, Nat.zero_add _⟩, Nat.le_refl _, Nat.le_refl _⟩

theorem Appends.wellFormed (h : s.Appends s' locks room charged) : s'.cache.WellFormed := by
  obtain ⟨ops, he, -⟩ := h.line
  exact he.wellFormed

theorem Appends.trans (h1 : s.Appends s' locks room charged)
    (h2 : s'.Appends s'' locks' room' charged') :
    s.Appends s'' (locks + locks') (room + room') (charged + charged') where
  line := by
    obtain ⟨ops, he, hc⟩ := h1.line
    obtain ⟨ops', he', hc'⟩ := h2.line
    refine ⟨ops ++ ops', he.trans he', ?_⟩
    rw [ticks_append]
    omega
  unlocked := by
    have hu1 := h1.unlocked
    have hu2 := h2.unlocked
    omega
  weight := by
    have hw1 := h1.weight
    have hw2 := h2.weight
    omega

theorem Appends.mono (h : s.Appends s' locks room charged) (hl : locks ≤ locks')
    (hr : room ≤ room') : s.Appends s' locks' room' charged where
  line := h.line
  unlocked := Nat.le_trans h.unlocked (Nat.add_le_add_left hl _)
  weight := Nat.le_trans h.weight (Nat.add_le_add_left hr _)

/-! ## Steps of code generation -/

variable {α β : Type}

/-- A step that succeeds where there is room for it, and what it takes. -/
def Costs (x : LowerM α) (locks room charged : Nat) : Prop :=
  ∀ ⦃s : Lowering⦄, s.cache.WellFormed → locks ≤ s.cache.unlocked →
    s.cycles.toNat + charged < 4294967296 →
      ∃ v s', x s = .ok v s' ∧ s.Appends s' locks room charged

/-- Nothing is done, for which there is always room. -/
theorem costs_pure (v : α) : Costs (pure v) locks room 0 :=
  fun _ hw _ _ => ⟨v, _, rfl, (Appends.refl hw).mono (Nat.zero_le _) (Nat.zero_le _)⟩

theorem Costs.bind {x : LowerM α} {f : α → LowerM β} (hx : Costs x locks room charged)
    (hf : ∀ v, Costs (f v) locks' room' charged') :
    Costs (x >>= f) (locks + locks') (room + room') (charged + charged') := by
  intro s hw hroom hcycles
  obtain ⟨v, s1, h1, ha1⟩ := hx hw (by omega) (by omega)
  obtain ⟨ops, -, hsum⟩ := ha1.line
  have hunlocked := ha1.unlocked
  obtain ⟨w, s2, h2, ha2⟩ := hf v ha1.wellFormed (by omega) (by omega)
  exact ⟨w, s2, (bind_eq_of_ok h1).trans h2, ha1.trans ha2⟩

theorem Costs.mono {x : LowerM α} (h : Costs x locks room charged) (hl : locks ≤ locks')
    (hr : room ≤ room') : Costs x locks' room' charged := by
  intro s hw hroom hcycles
  obtain ⟨v, s', h', ha⟩ := h hw (Nat.le_trans hl hroom) hcycles
  exact ⟨v, s', h', ha.mono hl hr⟩

theorem Costs.ite {p : Prop} [Decidable p] {x y : LowerM α} (hx : p → Costs x locks room charged)
    (hy : ¬p → Costs y locks room charged) : Costs (if p then x else y) locks room charged := by
  split
  · exact hx ‹_›
  · exact hy ‹_›

/-- A choice between two first steps of the same computation. -/
theorem Costs.ite_bind {p : Prop} [Decidable p] {x y : LowerM α} {f : α → LowerM β}
    (hx : p → Costs x locks room charged) (hy : ¬p → Costs y locks room charged)
    (hf : ∀ v, Costs (f v) locks' room' charged') :
    Costs (if p then x >>= f else y >>= f) (locks + locks') (room + room') (charged + charged') :=
  .ite (fun hp => (hx hp).bind hf) fun hp => (hy hp).bind hf

/-- A step for a register that may be register zero, for which nothing is to be done. -/
theorem Costs.unless_zero {d : Reg} {x : LowerM Unit} (hx : d ≠ 0 → Costs x locks room 0) :
    Costs (if d ≠ 0 then x else pure ()) locks room 0 :=
  .ite hx fun _ => costs_pure ()

theorem Costs.map {x : LowerM α} (h : Costs x locks room charged) (f : α → β) :
    Costs (f <$> x) locks room charged := by
  intro s hw hroom hcycles
  obtain ⟨v, s', h', ha⟩ := h hw hroom hcycles
  refine ⟨f v, s', ?_, ha⟩
  show EStateM.map f x s = _
  unfold EStateM.map
  rw [h']

theorem costs_emit {op : HostOp} (hop : op.IsPlain) : Costs (emit op) 0 1 0 := by
  intro s hw _ _
  refine ⟨(), _, rfl, ⟨[op], Extends.push hop.1 hw, ?_⟩, Nat.le_refl _, ?_⟩
  · simp [hop.2]
  · simp only [weight, Array.size_push]
    omega

theorem costs_allocate {request : RegisterCache → Option RegisterCache.Allocation}
    (h : Supplies request) : Costs (allocate request) 1 1 0 := by
  intro s hw hroom _
  obtain ⟨a, ha, hserves⟩ := h hw hroom
  have hok : allocate request s = .ok a.host
      { s with cache := a.cache, program := pushTransfers s.program a.transfers } := by
    unfold allocate
    rw [bind_eq_of_ok (x := modifyGet _) rfl]
    rw [ha]
    rfl
  refine ⟨_, _, hok, ⟨_, Extends.transfers hserves.wellFormed a.transfers, ?_⟩, hserves.unlocked,
    ?_⟩
  · rw [ticks_transfers]
    exact Nat.zero_add _
  · have hwait := hserves.waiting
    simp only [weight, size_pushTransfers]
    omega

theorem costs_allocIn {g : Reg} (hown : g.IsOwn) : Costs (allocIn g) 1 1 0 :=
  costs_allocate (supplies_allocIn? hown)

theorem costs_allocOut {g : Reg} (hown : g.IsOwn) (h0 : g ≠ 0) : Costs (allocOut g) 1 1 0 :=
  costs_allocate (supplies_allocOut? hown h0)

theorem costs_allocTemp : Costs allocTemp 1 1 0 := costs_allocate supplies_allocTemp?

theorem costs_releaseLocks : Costs releaseLocks 0 0 0 := by
  intro s hw _ _
  have hsame := s.cache.sameUse_releaseLocks
  refine ⟨(), _, rfl, ⟨[], ⟨by simp, rfl, rfl, by simp, hsame.wellFormed hw⟩, ?_⟩, ?_, ?_⟩
  · simp
  · rw [RegisterCache.unlocked_releaseLocks]
    exact s.cache.unlocked_le
  · exact Nat.le_of_eq (congrArg (s.program.size + ·) hsame.waiting_eq)

theorem costs_charge (cycles : UInt32) : Costs (charge cycles) 0 0 cycles.toNat := by
  intro s hw _ hcycles
  refine ⟨(), _, rfl, ⟨[], ⟨by simp, rfl, rfl, by simp, hw⟩, ?_⟩, Nat.le_refl _, Nat.le_refl _⟩
  rw [ticks_nil, Nat.zero_add, UInt32.toNat_add]
  exact Nat.mod_eq_of_lt hcycles

theorem cycles_flushCycles {u : Unit} (h : flushCycles s = .ok u s') : s'.cycles = 0 := by
  cases h
  dsimp only
  split
  · assumption
  · rfl

theorem costs_flushCycles : Costs flushCycles 0 1 0 := by
  intro s hw _ _
  by_cases hzero : s.cycles = 0
  · have hok : flushCycles s = .ok () s := congrArg (EStateM.Result.ok ()) (if_pos hzero)
    exact ⟨(), s, hok, (Appends.refl hw).mono (Nat.le_refl _) (Nat.zero_le _)⟩
  · have hok : flushCycles s =
        .ok () { s with program := s.program.push (.tick s.cycles), cycles := 0 } :=
      congrArg (EStateM.Result.ok ()) (if_neg hzero)
    refine ⟨(), _, hok, ⟨[.tick s.cycles], ⟨by simp, rfl, rfl, by simp [HostOp.IsStraight], hw⟩,
      ?_⟩, Nat.le_refl _, ?_⟩
    · simp [HostOp.cycles]
    · simp only [weight, Array.size_push]
      omega

theorem cycles_unloadAll {u : Unit} (h : unloadAll s = .ok u s') : s'.cycles = s.cycles := by
  cases h
  rfl

/-- Write-backs that waited are made. -/
theorem appends_writeBacks {cache : RegisterCache} (hw' : cache.WellFormed) (hclean : cache.Clean)
    (hroom : s.cache.unlocked ≤ cache.unlocked) :
    s.Appends { s with program := pushTransfers s.program s.cache.flushAll.1, cache } 0 0 0 where
  line := ⟨_, Extends.transfers hw' _, by rw [ticks_transfers]; exact Nat.zero_add _⟩
  unlocked := hroom
  weight := by
    have hwait : s.cache.flushAll.1.length = s.cache.waiting := rfl
    simp only [weight, size_pushTransfers, hclean.waiting_eq]
    omega

theorem costs_flushAll : Costs flushAll 0 0 0 := by
  intro s hw _ _
  refine ⟨(), _, rfl, appends_writeBacks (RegisterCache.wellFormed_flushAll hw)
    (RegisterCache.clean_flushAll hw) ?_⟩
  exact Nat.le_of_eq s.cache.unlocked_flushAll.symm

theorem costs_unloadAll : Costs unloadAll 0 0 0 := by
  intro s _ _ _
  have hw' := s.cache.wellFormed_unloadAll
  refine ⟨(), _, rfl, appends_writeBacks hw' (s.cache.empty_unloadAll.clean hw') ?_⟩
  exact Nat.le_trans s.cache.unlocked_le (Nat.le_of_eq s.cache.unlocked_unloadAll.symm)

/-- Where code is entered or left, cycles are charged and the cache is empty. -/
theorem settles (hw : s.cache.WellFormed) : ∃ s', s.Appends s' 0 1 0 ∧ s'.cycles = 0 ∧
      ∀ {α : Type} (x : LowerM α), (do flushCycles; unloadAll; x) s = x s' := by
  obtain ⟨_, s1, h1, ha1⟩ := costs_flushCycles hw (Nat.zero_le _) s.cycles.toNat_lt
  obtain ⟨_, s2, h2, ha2⟩ := costs_unloadAll ha1.wellFormed (Nat.zero_le _) s1.cycles.toNat_lt
  refine ⟨s2, ha1.trans ha2, (cycles_unloadAll h2).trans (cycles_flushCycles h1), fun x => ?_⟩
  rw [bind_eq_of_ok h1, bind_eq_of_ok h2]

theorem costs_beforeCall : Costs beforeCall 0 1 0 := costs_flushCycles.bind fun _ => costs_flushAll

theorem costs_exitWith (op : HostOp) (hop : op.IsPlain) : Costs (exitWith op) 0 2 0 :=
  costs_flushCycles.bind fun _ => costs_unloadAll.bind fun _ => costs_emit hop

/-! ## Instructions -/

variable (i : Instruction)

theorem costs_lowerUnknown (pc : UInt32) : Costs (lowerUnknown i pc) 0 3 0 := by
  have hnotice (n : Notice) :
      Costs (modify fun s : Lowering => { s with notices := s.notices.push n }) 0 0 0 :=
    fun _ hw _ _ => ⟨(), _, rfl, ⟨[], ⟨by simp, rfl, rfl, by simp, hw⟩, Nat.zero_add _⟩,
      Nat.le_refl _, Nat.le_refl _⟩
  exact (hnotice _).bind fun _ => (costs_emit (by trivial)).bind fun _ =>
    costs_exitWith _ (by trivial)

theorem costs_raise_exit (flags : ExitFlags) (pc : UInt32) :
    Costs (do emit (.raise flags); exitWith (.exit pc)) 0 3 0 :=
  (costs_emit (by trivial)).bind fun _ => costs_exitWith _ (by trivial)

/-- A known value. -/
theorem costs_const {d : Reg} (hd : d.IsOwn) (h0 : d ≠ 0) (v : UInt32) :
    Costs (do let dst ← allocOut d; emit (.const dst v)) 1 2 0 :=
  (costs_allocOut hd h0).bind fun dst => costs_emit (by trivial)

/-- A computation on one register. -/
theorem costs_unary {g d : Reg} (hg : g.IsOwn) (hd : d.IsOwn) (h0 : d ≠ 0)
    (op : HostReg → HostReg → HostOp) (hop : ∀ k a, (op k a).IsPlain) :
    Costs (do let a ← allocIn g; let dst ← allocOut d; emit (op dst a)) 2 3 0 :=
  (costs_allocIn hg).bind fun a => (costs_allocOut hd h0).bind fun dst => costs_emit (hop dst a)

/-- A computation on two registers. -/
theorem costs_binary {g g' d : Reg} (hg : g.IsOwn) (hg' : g'.IsOwn) (hd : d.IsOwn) (h0 : d ≠ 0)
    (op : HostReg → HostReg → HostReg → HostOp) (hop : ∀ k a b, (op k a b).IsPlain) :
    Costs (do
      let a ← allocIn g
      let b ← allocIn g'
      let dst ← allocOut d
      emit (op dst a b)) 3 4 0 :=
  (costs_allocIn hg).bind fun a => (costs_allocIn hg').bind fun b =>
    (costs_allocOut hd h0).bind fun dst => costs_emit (hop dst a b)

theorem costs_lowerAccess (index : Nat) (o : Op) (access : MemoryAccess) :
    Costs (lowerAccess index o access) 3 5 0 := by
  have hnone : Costs (pure none : LowerM (Option HostReg)) 1 1 0 := costs_pure none
  have hread := (costs_allocIn o.instr.isOwn_rt).map some
  have hwrite (hw : (!access.isStore && access ≠ .lwc2 && o.instr.rt ≠ 0) = true) :
      Costs (some <$> allocOut o.instr.rt) 1 1 0 := by
    simp only [Bool.and_eq_true, decide_eq_true_eq] at hw
    exact (costs_allocOut o.instr.isOwn_rt hw.2).map some
  unfold lowerAccess
  exact costs_beforeCall.bind fun _ => (costs_allocIn o.instr.isOwn_rs).bind fun base =>
    .ite_bind (fun _ => hread) (fun _ => hnone) fun data =>
      .ite_bind hwrite (fun _ => hnone) fun dst => costs_emit (by trivial)

theorem costs_lowerSimple (index : Nat) (o : Op) (pc : UInt32) :
    Costs (lowerSimple index o pc) 4 5 0 := by
  -- The bounds are those of the costliest instructions: multiplications have four operands, and
  -- those that call out charge and write back first.
  rw [lowerSimple_eq]
  unfold lowerOperation
  dsimp only
  cases o.instr.operation with dsimp only
  | shift kind =>
    have hx := fun h0 => costs_unary o.instr.isOwn_rt o.instr.isOwn_rd h0
      (fun dst a => .aluImmediate kind dst a o.instr.shamt) fun _ _ => (by trivial)
    exact (Costs.unless_zero hx).mono (by decide) (by decide)
  | shiftVariable kind =>
    have hx := fun h0 => costs_binary o.instr.isOwn_rt o.instr.isOwn_rs o.instr.isOwn_rd h0
      (.alu kind) fun _ _ _ => (by trivial)
    exact (Costs.unless_zero hx).mono (by decide) (by decide)
  | syscall => exact (costs_raise_exit _ pc).mono (by decide) (by decide)
  | breakpoint => exact (costs_raise_exit _ pc).mono (by decide) (by decide)
  | moveFromHi =>
    have hx := fun h0 => costs_unary Reg.isOwn_hi o.instr.isOwn_rd h0 .move fun _ _ => (by trivial)
    exact (Costs.unless_zero hx).mono (by decide) (by decide)
  | moveFromLo =>
    have hx := fun h0 => costs_unary Reg.isOwn_lo o.instr.isOwn_rd h0 .move fun _ _ => (by trivial)
    exact (Costs.unless_zero hx).mono (by decide) (by decide)
  | moveToHi =>
    exact (costs_unary o.instr.isOwn_rs Reg.isOwn_hi (by decide) .move
      fun _ _ => (by trivial)).mono (by decide) (by decide)
  | moveToLo =>
    exact (costs_unary o.instr.isOwn_rs Reg.isOwn_lo (by decide) .move
      fun _ _ => (by trivial)).mono (by decide) (by decide)
  | mulDiv kind =>
    exact (costs_allocIn o.instr.isOwn_rs).bind fun a => (costs_allocIn o.instr.isOwn_rt).bind
      fun b => (costs_allocOut Reg.isOwn_lo (by decide)).bind fun lo =>
        (costs_allocOut Reg.isOwn_hi (by decide)).bind fun hi => costs_emit (by trivial)
  | alu kind =>
    have hx := fun h0 => costs_binary o.instr.isOwn_rs o.instr.isOwn_rt o.instr.isOwn_rd h0
      (.alu kind) fun _ _ _ => (by trivial)
    exact (Costs.unless_zero hx).mono (by decide) (by decide)
  | aluImmediate kind =>
    have hx := fun h0 => costs_unary o.instr.isOwn_rs o.instr.isOwn_rt h0
      (fun dst a => .aluImmediate kind dst a (o.instr.extended kind)) fun _ _ => (by trivial)
    exact (Costs.unless_zero hx).mono (by decide) (by decide)
  | loadUpper =>
    have hx := fun h0 => costs_const o.instr.isOwn_rt h0 (o.instr.imm <<< (16 : UInt32))
    exact (Costs.unless_zero hx).mono (by decide) (by decide)
  | copExecute =>
    exact (costs_beforeCall.bind fun _ => costs_emit (by trivial)).mono (by decide) (by decide)
  | copRead control =>
    exact (costs_beforeCall.bind fun _ => .ite_bind (fun h0 => costs_allocOut o.instr.isOwn_rt h0)
      (fun _ => costs_allocTemp) fun dst => costs_emit (by trivial)).mono (by decide) (by decide)
  | copWrite control =>
    have hexit : Costs (if o.instr.isSyscall then exitWith (.exit (pc + 4)) else pure ()) 0 2 0 :=
      .ite (fun _ => costs_exitWith _ (by trivial)) fun _ => costs_pure ()
    exact (costs_beforeCall.bind fun _ => (costs_allocIn o.instr.isOwn_rt).bind fun src =>
      (costs_emit (by trivial)).bind fun _ => hexit).mono (by decide) (by decide)
  | memory access => exact (costs_lowerAccess index o access).mono (by decide) (by decide)
  | unknown =>
    exact (Costs.ite_bind (fun _ => costs_beforeCall) (fun _ => costs_pure ())
      fun _ => costs_lowerUnknown o.instr pc).mono (by decide) (by decide)
  | jumpRegister | jumpLinkRegister | jump | jumpLink | branch =>
    exact (costs_lowerUnknown o.instr pc).mono (by decide) (by decide)

theorem costs_latch : Costs (latch i) 2 3 0 := by
  unfold latch
  refine .ite (fun _ => ?_) fun _ => ?_
  · exact ((costs_allocIn i.isOwn_rs).bind fun src => costs_emit (by trivial)).mono (by decide)
      (by decide)
  · cases decidingCondition? i with
    | some condition =>
      exact (costs_allocIn i.isOwn_rs).bind fun a => (costs_allocIn i.isOwn_rt).bind fun b =>
        costs_emit (by trivial)
    | none => exact costs_pure ()

theorem costs_lowerLink (pc : UInt32) : Costs (lowerLink i pc) 1 2 0 := by
  unfold lowerLink
  cases hl : linkRegister? i with
  | some link =>
    obtain ⟨hown, h0⟩ := isOwn_linkRegister? hl
    exact costs_const hown h0 (pc + 8)
  | none => exact costs_pure ()

theorem costs_lowerSlot (index : Nat) (o d : Op) (pc : UInt32) :
    Costs (lowerSlot index o d pc) 4 5 cyclesPerOp.toNat := by
  have hslot : Costs (if o.flags.noDelaySlot then pure ()
      else do lowerSimple index d pc; releaseLocks) 4 5 0 :=
    .ite (fun _ => costs_pure ()) fun _ =>
      (costs_lowerSimple index d pc).bind fun _ => costs_releaseLocks
  exact ((costs_charge cyclesPerOp).bind fun _ => hslot).mono (by decide) (by decide)

end Lowering

end Dynarec
