/-
  Dynarec.Proofs.Registrations

  The block cache as a list of registrations.

  Whatever is registered, unregistered and drained, the cache answers like a
  list with the latest registration first. The buckets are that list, cut by
  bucket index. The hot table is overwritten by every registration that shares
  an index, so all that is known of a hot line is that it is the first of its
  start address in the list. That is enough, and every call keeps it.
-/
import Dynarec.Proofs.BlockCache

namespace Dynarec

/-! ## The first of a kind after an element has left -/

section FindErase

variable {α : Type} [BEq α] [LawfulBEq α] {p : α → Bool} {a b : α} {items : List α}

/-- An element that is not looked for is not missed. -/
theorem find?_erase_of_eq_false (h : p a = false) : (items.erase a).find? p = items.find? p := by
  induction items with
  | nil => rfl
  | cons first rest ih =>
    rw [List.erase_cons]
    by_cases hfirst : (first == a) = true
    · rw [if_pos hfirst, List.find?_cons_of_neg]
      rw [eq_of_beq hfirst, h]
      exact Bool.false_ne_true
    · rw [if_neg hfirst, List.find?_cons, List.find?_cons, ih]

/-- What is found stays found when another element leaves. -/
theorem find?_erase_of_ne (h : items.find? p = some b) (hne : b ≠ a) :
    (items.erase a).find? p = some b := by
  induction items with
  | nil => cases h
  | cons first rest ih =>
    rw [List.find?_cons] at h
    rw [List.erase_cons]
    split at h
    · rename_i hp
      cases h
      rw [if_neg (by simpa using hne), List.find?_cons_of_pos hp]
    · rename_i hp
      by_cases hfirst : (first == a) = true
      · rw [if_pos hfirst]
        exact h
      · rw [if_neg hfirst, List.find?_cons_of_neg (by simp [hp])]
        exact ih h

end FindErase

namespace BlockCache

/-! ## Calls -/

/-- A call that changes the cache. -/
inductive Call where
  | register (t : EntryTable) (id : BlockId) (b : Block)
  | unregister (t : EntryTable) (id : BlockId) (b : Block)
  | drain

/-- What a call does to the cache. -/
def Call.perform (c : BlockCache) : Call → BlockCache
  | .register t id b => (c.register t id b).1
  | .unregister t id b => (c.unregister t id b).1
  | .drain => c.drain.2

/-- The registrations in force after a call, the latest first. Of several registrations of a block
the latest is taken back. -/
def Call.record (ids : List BlockId) : Call → List BlockId
  | .register _ id _ => id :: ids
  | .unregister _ id _ => ids.erase id
  | .drain => []

/-- The call is about the block that starts at `start id`, and only a registration in force is taken
back. -/
def Call.Allowed (start : BlockId → UInt32) (ids : List BlockId) : Call → Prop
  | .register _ id b => b.start = start id
  | .unregister _ id b => b.start = start id ∧ id ∈ ids
  | .drain => True

instance (start : BlockId → UInt32) (ids : List BlockId) :
    (call : Call) → Decidable (call.Allowed start ids)
  | .register _ id b => inferInstanceAs (Decidable (b.start = start id))
  | .unregister _ id b => inferInstanceAs (Decidable (b.start = start id ∧ id ∈ ids))
  | .drain => inferInstanceAs (Decidable True)

/-- The cache after some calls. -/
def after (calls : List Call) : BlockCache := calls.foldl Call.perform empty

/-- The registrations in force after some calls. -/
def inForce (calls : List Call) : List BlockId := calls.foldl Call.record []

/-- Every call is allowed when it is made. -/
def Allowed (start : BlockId → UInt32) : List BlockId → List Call → Prop
  | _, [] => True
  | ids, call :: calls => call.Allowed start ids ∧ Allowed start (call.record ids) calls

instance decidableAllowed (start : BlockId → UInt32) :
    (ids : List BlockId) → (calls : List Call) → Decidable (Allowed start ids calls)
  | _, [] => inferInstanceAs (Decidable True)
  | ids, call :: calls =>
    have := decidableAllowed start (call.record ids) calls
    inferInstanceAs (Decidable (call.Allowed start ids ∧ Allowed start (call.record ids) calls))

variable {start : BlockId → UInt32} {c : BlockCache} {ids : List BlockId} {id : BlockId}

/-! ## What the two tables hold -/

/-- The line of a block. -/
def lineOf (start : BlockId → UInt32) (id : BlockId) : CacheLine :=
  { start := start id, block := id }

@[simp] theorem start_lineOf : (lineOf start id).start = start id := rfl

/-- The cache holds the registrations `ids`. -/
structure Represents (start : BlockId → UInt32) (c : BlockCache) (ids : List BlockId) : Prop where
  hotSize : c.hot.size = hotSize
  size : c.buckets.size = bucketCount
  bucket : ∀ i, c.buckets.getD i [] =
    (ids.filter fun id => bucketIndex (start id) == i).map (lineOf start)
  place : ∀ {i line}, c.hot.getD i none = some line → hotIndex line.start = i
  first : ∀ {i line}, c.hot.getD i none = some line →
    ids.find? (fun id => start id == line.start) = some line.block
  count : c.count = ids.length

theorem represents_empty (start : BlockId → UInt32) : Represents start empty [] where
  hotSize := Array.size_replicate
  size := Array.size_replicate
  bucket := getD_buckets_empty
  place h := by
    simp only [empty, Array.getD_eq_getD_getElem?, Array.getElem?_replicate] at h
    split at h
    · cases h
    · cases h
  first h := by
    simp only [empty, Array.getD_eq_getD_getElem?, Array.getElem?_replicate] at h
    split at h
    · cases h
    · cases h
  count := rfl

theorem hotIndex_lt (start : UInt32) : hotIndex start < hotSize := Nat.mod_lt _ (by decide)

section

variable (h : Represents start c ids)
include h

theorem Represents.insert (id : BlockId) :
    Represents start (c.insert (lineOf start id)) (id :: ids) := by
  -- an older hot line that stays belongs to another start address
  have hhot : ∀ {i line}, (c.insert (lineOf start id)).hot.getD i none = some line →
      (i = hotIndex (start id) ∧ line = lineOf start id) ∨
        (c.hot.getD i none = some line ∧ line.start ≠ start id) := by
    intro i line hline
    have hlt : hotIndex (start id) < c.hot.size := by
      rw [h.hotSize]
      exact hotIndex_lt _
    by_cases hi : i = hotIndex (start id)
    · subst hi
      rw [show (c.insert (lineOf start id)).hot.getD (hotIndex (start id)) none =
        some (lineOf start id) from EntryTable.getD_setIfInBounds_self _ hlt _ _] at hline
      cases hline
      exact .inl ⟨rfl, rfl⟩
    · rw [show (c.insert (lineOf start id)).hot.getD i none = c.hot.getD i none from
        EntryTable.getD_setIfInBounds_of_ne _ hi _ _] at hline
      refine .inr ⟨hline, fun heq => hi ?_⟩
      rw [← h.place hline, heq]
  refine ⟨?_, ?_, fun i => ?_, fun {i line} hline => ?_, fun {i line} hline => ?_, ?_⟩
  · exact Array.size_setIfInBounds.trans h.hotSize
  · exact Array.size_modify.trans h.size
  · rw [getD_buckets_insert h.size, h.bucket, List.filter_cons, start_lineOf]
    by_cases hi : bucketIndex (start id) = i
    · rw [if_pos hi, if_pos (beq_iff_eq.mpr hi), List.map_cons]
    · rw [if_neg hi, if_neg (fun heq => hi (beq_iff_eq.mp heq))]
  · rcases hhot hline with ⟨rfl, rfl⟩ | ⟨hold, -⟩
    · rfl
    · exact h.place hold
  · rcases hhot hline with ⟨-, rfl⟩ | ⟨hold, hne⟩
    · exact List.find?_cons_of_pos (beq_self_eq_true _)
    · rw [List.find?_cons_of_neg (by simpa using hne.symm)]
      exact h.first hold
  · exact congrArg (· + 1) h.count

theorem Represents.erase (hid : id ∈ ids) :
    Represents start (c.erase (lineOf start id)) (ids.erase id) := by
  -- a hot line that stays was hot before, and is not one of the block that leaves
  have hhot : ∀ {i line}, (c.erase (lineOf start id)).hot.getD i none = some line →
      c.hot.getD i none = some line ∧ (line.start = start id → line.block ≠ id) := by
    intro i line hline
    simp only [BlockCache.erase, getD_modify] at hline
    split at hline
    · split at hline
      · rename_i line' hold
        split at hline
        · cases hline
        · rename_i hne
          cases hline
          exact ⟨hold, fun _ => hne⟩
      · cases hline
    · rename_i hi
      refine ⟨hline, fun heq => absurd ⟨?_, ?_⟩ hi⟩
      · rw [← h.place hline, heq]
        rfl
      · rw [← h.place hline, h.hotSize]
        exact hotIndex_lt _
  refine ⟨?_, ?_, fun i => ?_, fun {i line} hline => ?_, fun {i line} hline => ?_, ?_⟩
  · exact Array.size_modify.trans h.hotSize
  · exact Array.size_modify.trans h.size
  · rw [getD_buckets_erase h.size, h.bucket, ← List.erase_filter, start_lineOf]
    by_cases hi : bucketIndex (start id) = i
    · rw [if_pos hi, List.eraseP_map, List.erase_eq_eraseP]
      congr 2
      funext other
      exact Bool.beq_comm
    · rw [if_neg hi, List.erase_of_not_mem]
      intro hmem
      exact hi (beq_iff_eq.mp (List.mem_filter.mp hmem).2)
  · exact h.place (hhot hline).1
  · obtain ⟨hold, hother⟩ := hhot hline
    by_cases hstart : line.start = start id
    · exact find?_erase_of_ne (h.first hold) (hother hstart)
    · rw [find?_erase_of_eq_false (by simpa using Ne.symm hstart)]
      exact h.first hold
  · rw [List.length_erase_of_mem hid, ← h.count]
    rfl

/-! ## What the cache answers -/

/-- The block that is found is the latest of those that start there. -/
theorem Represents.find? (pc : UInt32) :
    c.find? pc = ids.find? fun id => start id == physical pc := by
  have hbucket : c.findInBucket? (physical pc) = ids.find? fun id => start id == physical pc := by
    unfold findInBucket?
    rw [h.bucket, List.find?_map, List.find?_filter]
    have hsame : (fun id => decide ((bucketIndex (start id) == bucketIndex (physical pc)) = true ∧
        ((fun line : CacheLine => line.start == physical pc) ∘ lineOf start) id = true)) =
        fun id => start id == physical pc := by
      funext id
      by_cases hstart : start id = physical pc
      · simp [lineOf, hstart]
      · simp [lineOf, hstart]
    rw [hsame]
    cases ids.find? fun id => start id == physical pc with
    | none => rfl
    | some id => rfl
  unfold BlockCache.find?
  dsimp only
  split
  · rename_i line hline
    split
    · rename_i hstart
      rw [← hstart, h.first hline]
    · exact hbucket
  · exact hbucket

/-- A block is there if a registration of it is in force. -/
theorem Represents.isRegistered_iff {b : Block}
    (hb : b.start = start id) : c.isRegistered id b = true ↔ id ∈ ids := by
  unfold isRegistered contains
  dsimp only
  rw [hb, h.bucket, List.any_map, List.any_eq_true]
  constructor
  · rintro ⟨other, hother, hblock⟩
    cases eq_of_beq hblock
    exact (List.mem_filter.mp hother).1
  · intro hid
    exact ⟨id, List.mem_filter.mpr ⟨hid, beq_self_eq_true _⟩, beq_self_eq_true _⟩

/-! ## What calls keep -/

theorem Represents.perform {call : Call}
    (hcall : call.Allowed start ids) : Represents start (call.perform c) (call.record ids) := by
  cases call with
  | register t id b =>
    have hline : (c.register t id b).1 = c.insert (lineOf start id) := by
      rw [lineOf, ← show b.start = start id from hcall]
      rfl
    show Represents start (c.register t id b).1 (id :: ids)
    rw [hline]
    exact h.insert id
  | unregister t id b =>
    have hline : (c.unregister t id b).1 = c.erase (lineOf start id) := by
      rw [lineOf, ← hcall.1]
      rfl
    show Represents start (c.unregister t id b).1 (ids.erase id)
    rw [hline]
    exact h.erase hcall.2
  | drain => exact represents_empty start

theorem Represents.foldl {calls : List Call} (hcalls : Allowed start ids calls) :
    Represents start (calls.foldl Call.perform c) (calls.foldl Call.record ids) := by
  induction calls generalizing c ids with
  | nil => exact h
  | cons call calls ih => exact ih (h.perform hcalls.1) hcalls.2

end

/-- After any calls the cache answers like the list of the registrations in force: it finds the
latest block with a physical start address, says how many there are, and does not confuse a block
that leaves with those that start elsewhere. -/
theorem after_eq_inForce {calls : List Call} (hcalls : Allowed start [] calls) :
    (∀ pc, (after calls).find? pc = (inForce calls).find? fun id => start id == physical pc) ∧
    (after calls).count = (inForce calls).length ∧
    (∀ id b, b.start = start id → ((after calls).isRegistered id b = true ↔ id ∈ inForce calls)) ∧
    (∀ t id b pc, b.start = start id → id ∈ inForce calls → start id ≠ physical pc →
      ((after calls).unregister t id b).1.find? pc = (after calls).find? pc) := by
  have h : Represents start (after calls) (inForce calls) := (represents_empty start).foldl hcalls
  refine ⟨h.find?, h.count, fun id b hb => h.isRegistered_iff hb, fun t id b pc hb hid hne => ?_⟩
  have hcall : Call.Allowed start (inForce calls) (.unregister t id b) := ⟨hb, hid⟩
  have hleft : ((after calls).unregister t id b).1.find? pc =
      ((inForce calls).erase id).find? fun id => start id == physical pc :=
    (h.perform hcall).find? pc
  rw [hleft, h.find?]
  exact find?_erase_of_eq_false (by simpa using hne)

/-- Blocks 0 and 1 start at the same physical address, block 2 shares their places in both
tables. -/
def rivals : BlockId → UInt32
  | 2 => 0x10100
  | _ => 0x100

/-- A block at an address. -/
def blockAt (pc : UInt32) : Block where
  pc
  opCount := 1
  words := [0]
  flags := {}
  ops := none

/-- Block 0 is registered on both sides of block 1 and then taken back once; block 2 comes and
goes. -/
def contested : List Call :=
  [.register {} 0 (blockAt 0x80000100), .register {} 1 (blockAt 0xa0000100),
    .register {} 0 (blockAt 0x80000100), .register {} 2 (blockAt 0x10100),
    .unregister {} 0 (blockAt 0x80000100), .unregister {} 2 (blockAt 0x10100)]

theorem after_eq_inForce_contested : Allowed rivals [] contested ∧
    (after contested).find? 0x100 = some 1 ∧ (after contested).find? 0x10100 = none ∧
    (after contested).count = 2 := by
  have hcalls : Allowed rivals [] contested := by decide
  obtain ⟨hfind, hcount, -, -⟩ := after_eq_inForce hcalls
  exact ⟨hcalls, hfind 0x100, hfind 0x10100, hcount⟩

end BlockCache

end Dynarec
