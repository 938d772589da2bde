/-
  Dynarec.Proofs.Program

  Guest code in memory, and the blocks that are cut out of it.

  A program is the set of addresses that code is fetched from. As long as the
  words there stay what they are, a block decoded from them is the same block
  whenever it is decoded, and every word of it is the word that is fetched at
  its address.
-/
import Dynarec.Proofs.Block
import Dynarec.Proofs.Layout
import Dynarec.Proofs.Operation

namespace Dynarec

variable {δ : Type}

/-! ## Words behind an address -/

/-- There is another word behind the one at `addr` in its region. -/
def Layout.GoesOn (l : Layout) (addr : UInt32) : Prop :=
  ∀ r : Resolved, l.resolve addr = .ok r →
    r.offset.toNat + 8 ≤ (l.regions.getD r.index default).length.toNat

/-- On a plain map the words behind an address are those behind it in its region. -/
theorem Memory.readWord_add {m : Memory δ} (hl : m.layout.Plain) (hm : m.Sized) {pc n : UInt32}
    {r : Resolved} {data : ByteArray} (hr : m.layout.resolve pc = .ok r)
    (hdata : m.bytes? r.index = some data) (hlow : (physical pc).toNat + n.toNat < 0x20000000)
    (hfits : r.offset.toNat + n.toNat + 4 ≤ data.size) :
    (∃ r', m.layout.resolve (pc + n) = .ok r' ∧ r'.index = r.index ∧
      r'.offset.toNat = r.offset.toNat + n.toNat) ∧
    m.readWord (pc + n) = .ok (Bytes.wordAt data (r.offset.toNat + n.toNat)) := by
  obtain ⟨s, hs, -, hsize⟩ := hm hdata
  have hlength : (m.layout.regions.getD r.index default).length.toNat = data.size := by
    rw [Array.getD_eq_getD_getElem?, hs, Option.getD_some, hsize]
  obtain ⟨r', hr', hindex, hoffset⟩ := hl.resolve_add hr hlow (by omega)
  refine ⟨⟨r', hr', hindex, hoffset⟩, readWord_eq_ok_iff.mpr ⟨r', data, hr', ?_, ?_, ?_⟩⟩
  · rw [hindex, hdata]
  · omega
  · rw [hoffset]

/-! ## Cutting blocks out of memory -/

namespace Instruction

theorem hasDelaySlot_of_isSyscall {i : Instruction} (h : i.isSyscall = true) :
    i.hasDelaySlot = false := by
  rw [isSyscall_eq] at h
  rw [hasDelaySlot_eq]
  unfold Operation.isSyscall at h
  split at h <;> simp_all [Operation.hasDelaySlot]

theorem hasDelaySlot_of_isUnconditionalJump {i : Instruction} (h : i.isUnconditionalJump = true) :
    i.hasDelaySlot = true := by
  rw [isUnconditionalJump_eq] at h
  rw [hasDelaySlot_eq]
  unfold Operation.isUnconditionalJump at h
  split at h <;> simp_all [Operation.hasDelaySlot]

end Instruction

namespace Block

theorem prefix_push (ops : Array Op) (o : Op) : ops.toList <+: (ops.push o).toList := by
  rw [Array.toList_push]
  exact List.prefix_append _ _

variable (data : ByteArray)

/-- The next word becomes the next instruction. -/
theorem push_le_collect (start limit left index : Nat) (ops : Array Op) :
    (ops.push (Op.ofWord (Bytes.wordAt data (start + 4 * index)))).toList <+:
      (collect data start limit (left + 1) index ops).toList := by
  induction left generalizing index ops with
  | zero =>
    unfold collect
    dsimp only
    split
    · exact List.prefix_refl _
    · split
      · exact List.prefix_refl _
      · split
        · exact List.prefix_refl _
        · exact List.prefix_refl _
  | succ left ih =>
    unfold collect
    dsimp only
    split
    · exact List.prefix_refl _
    · split
      · rw [if_neg (Nat.succ_ne_zero left)]
        exact prefix_push _ _
      · split
        · exact List.prefix_refl _
        · exact (prefix_push _ _).trans (ih (index + 1) _)

theorem size_lt_collect (start limit left index : Nat) (ops : Array Op) :
    ops.size < (collect data start limit (left + 1) index ops).size := by
  have h := (push_le_collect data start limit left index ops).length_le
  rw [Array.length_toList, Array.length_toList, Array.size_push] at h
  exact h

/-- A block depends on no other words than its own. -/
theorem collect_congr {data data' : ByteArray} {start limit left index : Nat} {ops : Array Op}
    (hsize : ops.size = index)
    (hword : ∀ i, i < (collect data start limit left index ops).size →
      Bytes.wordAt data' (start + 4 * i) = Bytes.wordAt data (start + 4 * i)) :
    collect data' start limit left index ops = collect data start limit left index ops := by
  -- by the words that are left; which of them are looked at depends on those before only
  induction left generalizing index ops with
  | zero => rfl
  | succ left ih =>
    have hlt := size_lt_collect data start limit left index ops
    have hfirst := hword index (Nat.lt_of_le_of_lt (Nat.le_of_eq hsize.symm) hlt)
    unfold collect at hword ⊢
    dsimp only at hword ⊢
    rw [hfirst]
    generalize Op.ofWord (Bytes.wordAt data (start + 4 * index)) = op at hword ⊢
    have hpush : (ops.push op).size = index + 1 := by rw [Array.size_push, hsize]
    split
    · rfl
    · rename_i hsyscall
      rw [if_neg hsyscall] at hword
      split
      · rename_i hslot
        rw [if_pos hslot] at hword
        split
        · rfl
        · rename_i hleft
          rw [if_neg hleft, Array.size_push, hpush] at hword
          rw [hword (index + 1) (Nat.lt_succ_self _)]
      · rename_i hslot
        rw [if_neg hslot] at hword
        split
        · rfl
        · rename_i hlast
          rw [if_neg hlast] at hword
          exact ih hpush hword

/-- A block that is decoded again with its own length as the limit starts with itself. -/
theorem collect_prefix (start limit limit' left index : Nat) (ops : Array Op)
    (hsize : ops.size = index) (hlimit : (collect data start limit left index ops).size ≤ limit') :
    (collect data start limit left index ops).toList <+:
      (collect data start limit' left index ops).toList := by
  induction left generalizing index ops with
  | zero => exact List.prefix_refl _
  | succ left ih =>
    have hfirst := push_le_collect data start limit' left index ops
    unfold collect at hlimit hfirst ⊢
    dsimp only at hlimit hfirst ⊢
    generalize Op.ofWord (Bytes.wordAt data (start + 4 * index)) = op at hlimit hfirst ⊢
    have hpush : (ops.push op).size = index + 1 := by rw [Array.size_push, hsize]
    -- Both go on with the same words, so the limit is the only thing that can part them.
    by_cases hsyscall : op.instr.isSyscall = true
    · simp only [if_pos hsyscall]
      exact List.prefix_refl _
    rw [if_neg hsyscall] at hlimit hfirst
    rw [if_neg hsyscall, if_neg hsyscall]
    by_cases hjump : op.instr.isUnconditionalJump = true
    · simp only [hjump, Bool.true_or, if_pos]
      exact List.prefix_refl _
    simp only [Bool.eq_false_iff.mpr hjump, Bool.false_or] at hlimit hfirst ⊢
    by_cases hlast : limit ≤ index + 1
    · by_cases hdelay : op.instr.hasDelaySlot = true
      · rw [if_pos (by simp [hlast, hdelay])] at hlimit ⊢
        by_cases hleft : left = 0
        · simp only [if_pos hleft] at hfirst ⊢
          exact hfirst
        · -- the delay slot is within the new limit
          rw [if_neg hleft, Array.size_push, hpush] at hlimit
          rw [if_neg hleft, if_neg (by simp; omega), if_neg (by simp; omega)]
          obtain ⟨rest, rfl⟩ := Nat.exists_eq_succ_of_ne_zero hleft
          exact push_le_collect data start limit' rest (index + 1) (ops.push op)
      · rw [if_neg (by simp [hdelay]), if_pos (by simp [hlast])]
        exact hfirst
    · rw [if_neg (by simp; omega), if_neg (by simp; omega)] at hlimit ⊢
      cases left with
      | zero => exact hfirst
      | succ left =>
        -- another word is in the block, so the new limit is not reached
        have hmore := size_lt_collect data start limit left (index + 1) (ops.push op)
        rw [if_neg (by simp; omega), if_neg (by simp; omega)]
        exact ih (index + 1) (ops.push op) hpush hlimit

/-- A branch that is the last instruction of a block is the last word there is, or itself in the delay
slot of a branch. -/
theorem collect_slot {data : ByteArray} {start limit left index : Nat} {ops : Array Op}
    (hsize : ops.size = index) {i : Nat} {o : Op} (hi : index ≤ i)
    (ho : (collect data start limit left index ops)[i]? = some o)
    (hslot : o.instr.hasDelaySlot = true) :
    i + 1 < (collect data start limit left index ops).size ∨ i + 1 = index + left ∨
      ∃ j o', i = j + 1 ∧ (collect data start limit left index ops)[j]? = some o' ∧
        o'.instr.hasDelaySlot = true := by
  induction left generalizing index ops with
  | zero =>
    rw [collect, Array.getElem?_eq_none (hsize ▸ hi)] at ho
    cases ho
  | succ left ih =>
    have hmore := size_lt_collect data start limit (left - 1) (index + 1)
      (ops.push (Op.ofWord (Bytes.wordAt data (start + 4 * index))))
    unfold collect at ho ⊢
    dsimp only at ho ⊢
    generalize Op.ofWord (Bytes.wordAt data (start + 4 * index)) = op at ho hmore ⊢
    have hpush : (ops.push op).size = index + 1 := by rw [Array.size_push, hsize]
    have hlast : (ops.push op)[index]? = some op := by
      rw [Array.getElem?_push, hsize, if_pos rfl]
    -- the block ends with `op`
    have hends : (ops.push op)[i]? = some o → i = index ∧ o = op := by
      intro hat
      have hlt := (Array.getElem?_eq_some_iff.mp hat).1
      have heq : i = index := by omega
      rw [heq, hlast] at hat
      exact ⟨heq, (Option.some.inj hat).symm⟩
    by_cases hsyscall : op.instr.isSyscall = true
    · rw [if_pos hsyscall] at ho
      obtain ⟨-, rfl⟩ := hends ho
      rw [Instruction.hasDelaySlot_of_isSyscall hsyscall] at hslot
      cases hslot
    rw [if_neg hsyscall] at ho ⊢
    split at ho
    · rename_i hjump
      split at ho
      · -- no word is left for the slot
        obtain ⟨rfl, -⟩ := hends ho
        right
        left
        omega
      · rename_i hleft
        rw [if_pos hjump, if_neg hleft, Array.size_push, hpush]
        rcases Nat.lt_or_eq_of_le hi with hlt | rfl
        · -- the delay slot is itself a branch
          have heq : i = index + 1 := by
            have hlt' := (Array.getElem?_eq_some_iff.mp ho).1
            rw [Array.size_push, hpush] at hlt'
            omega
          refine .inr (.inr ⟨index, op, heq, ?_, ?_⟩)
          · rw [Array.getElem?_push, hpush, if_neg (by omega), hlast]
          · rcases Bool.or_eq_true_iff.mp hjump with hjump | hdelay
            · exact Instruction.hasDelaySlot_of_isUnconditionalJump hjump
            · exact (Bool.and_eq_true_iff.mp hdelay).2
        · left
          omega
    · rename_i hjump
      rw [if_neg hjump]
      split at ho
      · -- the limit does not cut a branch from its slot
        rename_i hcut
        obtain ⟨-, rfl⟩ := hends ho
        rw [hcut, hslot, Bool.and_true, Bool.or_true] at hjump
        exact absurd rfl hjump
      · rename_i hcut
        rw [if_neg hcut]
        rcases Nat.lt_or_eq_of_le hi with hlt | rfl
        · -- the branch is further on
          rcases ih hpush hlt ho with h | h | h
          · exact .inl h
          · exact .inr (.inl (by omega))
          · exact .inr (.inr h)
        · cases left with
          | zero => exact .inr (.inl rfl)
          | succ left =>
            left
            rw [hpush] at hmore
            exact hmore

/-- What is decoded, and from which bytes. -/
theorem decode_eq_ok_iff {m : Memory δ} {pc : UInt32} {maxOps : Nat} {ops : Array Op} :
    decode m pc maxOps = .ok ops ↔ ∃ r data, m.layout.resolve pc = .ok r ∧ r.kind ≠ .device ∧
      m.bytes? r.index = some data ∧ r.offset.toNat / 4 * 4 + 4 ≤ data.size ∧
      collect data (r.offset.toNat / 4 * 4)
        (min ((data.size - r.offset.toNat / 4 * 4) / 4) (max maxOps 2))
        ((data.size - r.offset.toNat / 4 * 4) / 4) 0 #[] = ops := by
  constructor
  · intro h
    unfold decode at h
    split at h
    · cases h
    · rename_i r hr
      split at h
      · cases h
      · rename_i hkind
        split at h
        · cases h
        · rename_i data hdata
          dsimp only at h
          split at h
          · cases h
          · cases h
            exact ⟨r, data, hr, hkind, hdata, by omega, rfl⟩
  · rintro ⟨r, data, hr, hkind, hdata, hfits, rfl⟩
    unfold decode
    rw [hr]
    dsimp only
    rw [if_neg hkind, hdata]
    dsimp only
    rw [if_neg (by omega)]

end Block

/-! ## Programs -/

/-- Guest code: the memory it is in, and the addresses it is fetched from. -/
structure Program (δ : Type) where
  memory : Memory δ
  fetched : UInt32 → Prop

namespace Program

/-- The program is in memory that is no alias of other memory, every word of it has one address, and
no branch is in the delay slot of another. -/
structure WellFormed (p : Program δ) : Prop where
  plain : p.memory.layout.Plain
  sized : p.memory.Sized
  single : ∀ {a b : UInt32}, p.fetched a → p.fetched b → physical a = physical b → a = b
  parted : ∀ {a v w : UInt32}, p.fetched a → p.fetched (a + 4) → p.memory.readWord a = .ok v →
    p.memory.readWord (a + 4) = .ok w → Instruction.hasDelaySlot { word := v } = true →
      Instruction.hasDelaySlot { word := w } = false

/-- Memory still holds the program. -/
structure In (p : Program δ) (m : Memory δ) : Prop where
  same : p.memory.SameExcept Memory.everywhere m
  word : ∀ {a : UInt32}, p.fetched a → m.readWord a = p.memory.readWord a

/-- A block decoded at `pc` with at most `maxOps` instructions lies in the program. -/
structure Covers (p : Program δ) (maxOps : Nat) (pc : UInt32) : Prop where
  aligned : pc.toNat % 4 = 0
  low : ∀ {ops : Array Op}, Block.decode p.memory pc maxOps = .ok ops →
    (physical pc).toNat + 4 * ops.size ≤ 0x20000000
  fetched : ∀ {ops : Array Op}, Block.decode p.memory pc maxOps = .ok ops → ∀ {i : Nat},
    i < ops.size → p.fetched (pc + i.toUInt32 * 4)

variable {p : Program δ} {m : Memory δ} {pc : UInt32} {maxOps : Nat} {ops : Array Op}

/-- The words of a block, one by one. -/
theorem Covers.word (hp : p.WellFormed) (hc : p.Covers maxOps pc) (hmost : maxOps ≤ 65534)
    (h : Block.decode p.memory pc maxOps = .ok ops) {i : Nat} (hi : i < ops.size) :
    p.memory.readWord (pc + i.toUInt32 * 4) = .ok (ops.getD i default).instr.word := by
  obtain ⟨⟨r, data, hsupplies⟩, -, hsize, -⟩ := Block.supplies_of_decode h
  have hlow := hc.low h
  have halign := hp.plain.offset_mod_four hsupplies.resolves
  have hfits := hsupplies.fits
  have hword := hsupplies.word (i := i) (by rw [length_opWords]; exact hi)
  have haligned := hc.aligned
  rw [length_opWords] at hfits
  have hstart : r.offset.toNat / 4 * 4 = r.offset.toNat := by omega
  rw [hstart] at hfits hword
  have hfour := @Interpreter.toNat_mul_four i (by omega)
  have hread := (Memory.readWord_add hp.plain hp.sized hsupplies.resolves hsupplies.bytes
    (n := i.toUInt32 * 4) (by omega) (by omega)).2
  rw [hread, hfour, Nat.mul_comm]
  rw [opWords, List.getElem?_map, Array.getElem?_toList, Array.getElem?_eq_getElem hi] at hword
  rw [Array.getD_eq_getD_getElem?, Array.getElem?_eq_getElem hi]
  exact congrArg Except.ok (Option.some.inj hword).symm

theorem In.sized (hm : p.In m) (hp : p.WellFormed) : m.Sized := hm.same.sized hp.sized

theorem In.plain (hm : p.In m) (hp : p.WellFormed) : m.layout.Plain := hm.same.layout ▸ hp.plain

/-- Memory that holds the program has the words of a block in the same bytes of its own. -/
theorem Covers.wordAt (hp : p.WellFormed) (hm : p.In m) (hc : p.Covers maxOps pc)
    (hmost : maxOps ≤ 65534) (h : Block.decode p.memory pc maxOps = .ok ops) {r : Resolved}
    {data data' : ByteArray} (hr : p.memory.layout.resolve pc = .ok r)
    (hdata : p.memory.bytes? r.index = some data) (hdata' : m.bytes? r.index = some data')
    (hsize : data.size = data'.size) {i : Nat} (hi : i < ops.size) :
    Bytes.wordAt data' (r.offset.toNat / 4 * 4 + 4 * i) =
      Bytes.wordAt data (r.offset.toNat / 4 * 4 + 4 * i) := by
  obtain ⟨⟨r', data'', hsupplies⟩, -, hbound, -⟩ := Block.supplies_of_decode h
  cases hr.symm.trans hsupplies.resolves
  cases hdata.symm.trans hsupplies.bytes
  have hlow := hc.low h
  have halign := hp.plain.offset_mod_four hr
  have hfits := hsupplies.fits
  have haligned := hc.aligned
  rw [length_opWords] at hfits
  have hstart : r.offset.toNat / 4 * 4 = r.offset.toNat := by omega
  have hfour := @Interpreter.toNat_mul_four i (by omega)
  -- both words are what is read at their address
  have hread := (Memory.readWord_add hp.plain hp.sized hr hdata (n := i.toUInt32 * 4) (by omega)
    (by omega)).2
  have hread' := (Memory.readWord_add (hm.plain hp) (hm.sized hp) (hm.same.layout ▸ hr) hdata'
    (n := i.toUInt32 * 4) (by omega) (by omega)).2
  have hsame := (hm.word (hc.fetched h hi)).symm.trans hread'
  rw [hread, hfour, Nat.mul_comm] at hsame
  rw [hstart]
  exact (Except.ok.inj hsame).symm

/-- A block of the program is the same block whenever it is decoded. -/
theorem Covers.decode (hp : p.WellFormed) (hm : p.In m) (hc : p.Covers maxOps pc)
    (hmost : maxOps ≤ 65534) (h : Block.decode p.memory pc maxOps = .ok ops) :
    Block.decode m pc maxOps = .ok ops := by
  obtain ⟨r, data, hr, hkind, hdata, hfits, hcollect⟩ := Block.decode_eq_ok_iff.mp h
  have hsome := hm.same.size r.index
  rw [Memory.size?_eq_map, Memory.size?_eq_map, hdata] at hsome
  obtain ⟨data', hdata', hsize⟩ := Option.map_eq_some_iff.mp hsome
  refine Block.decode_eq_ok_iff.mpr ⟨r, data', hm.same.layout ▸ hr, hkind, hdata', ?_, ?_⟩
  · rw [hsize]
    exact hfits
  · rw [hsize, ← hcollect]
    refine Block.collect_congr rfl ?_
    rw [hcollect]
    exact fun i hi => hc.wordAt hp hm hmost h hr hdata hdata' hsize.symm hi

theorem Covers.decode_of_in (hp : p.WellFormed) (hm : p.In m) (hc : p.Covers maxOps pc)
    (hmost : maxOps ≤ 65534) (h : Block.decode m pc maxOps = .ok ops) :
    Block.decode p.memory pc maxOps = .ok ops := by
  obtain ⟨r, data', hr, hkind, hdata', hfits, -⟩ := Block.decode_eq_ok_iff.mp h
  obtain ⟨data, hdata, hsize⟩ := hm.same.bytes?_isSome hdata'
  -- something is decoded there, and it is the same
  obtain ⟨ops', hsome⟩ : ∃ ops', Block.decode p.memory pc maxOps = .ok ops' :=
    ⟨_, Block.decode_eq_ok_iff.mpr
      ⟨r, data, hm.same.layout ▸ hr, hkind, hdata, hsize ▸ hfits, rfl⟩⟩
  cases (hc.decode hp hm hmost hsome).symm.trans h
  exact hsome

/-- Where a word can be fetched a block can be decoded. -/
theorem exists_decode_of_readWord (hp : p.WellFormed) (hm : p.In m) {word : UInt32}
    (haligned : pc.toNat % 4 = 0) (h : m.readWord pc = .ok word) (maxOps : Nat) :
    ∃ ops, Block.decode m pc maxOps = .ok ops := by
  obtain ⟨r, data, hr, hdata, hfits, -⟩ := Memory.readWord_eq_ok_iff.mp h
  obtain ⟨s, hs, hdirect, -⟩ := hm.sized hp hdata
  have hoffset := (hm.plain hp).offset_mod_four hr
  refine ⟨_, Block.decode_eq_ok_iff.mpr ⟨r, data, hr, ?_, hdata, by omega, rfl⟩⟩
  -- memory behind an address is no device
  obtain ⟨i, t, ht, rfl⟩ := Layout.holds_of_resolve hr
  intro hdevice
  have hbehind : m.layout.behind i = s := by
    rw [Layout.behind, Array.getD_eq_getD_getElem?]
    exact (congrArg (·.getD default) hs)
  change (m.layout.behind i).backing.kind = .device at hdevice
  rw [hbehind] at hdevice
  unfold Region.isDirect at hdirect
  cases hbacking : s.backing with
  | ram | rom | aliasOf =>
    rw [hbacking] at hdevice
    cases hdevice
  | device =>
    rw [hbacking] at hdirect
    cases hdirect

/-! ## Blocks of a program -/

/-- The words of a block at `pc` that lies in the program. -/
def Reads (p : Program δ) (maxOps : Nat) (pc : UInt32) (words : List UInt32) : Prop :=
  maxOps ≤ 65534 ∧ p.Covers maxOps pc ∧
    ∃ ops, Block.decode p.memory pc maxOps = .ok ops ∧ opWords ops = words

namespace Reads

variable {words : List UInt32}

theorem aligned (h : p.Reads maxOps pc words) : pc.toNat % 4 = 0 := h.2.1.aligned

theorem low (h : p.Reads maxOps pc words) : (physical pc).toNat + 4 * words.length ≤ 0x20000000 := by
  obtain ⟨-, hc, ops, hdecode, rfl⟩ := h
  rw [length_opWords]
  exact hc.low hdecode

/-- Every word of a block is the word that is fetched at its address. -/
theorem word (hp : p.WellFormed) (h : p.Reads maxOps pc words) {i : Nat} {w : UInt32}
    (hw : words[i]? = some w) :
    p.fetched (pc + i.toUInt32 * 4) ∧ p.memory.readWord (pc + i.toUInt32 * 4) = .ok w := by
  obtain ⟨hmost, hc, ops, hdecode, rfl⟩ := h
  have hi : i < ops.size := by
    rw [← length_opWords]
    exact (List.getElem?_eq_some_iff.mp hw).1
  refine ⟨hc.fetched hdecode hi, (hc.word hp hmost hdecode hi).trans ?_⟩
  rw [opWords, List.getElem?_map, Array.getElem?_toList, Array.getElem?_eq_getElem hi] at hw
  rw [Array.getD_eq_getD_getElem?, Array.getElem?_eq_getElem hi]
  exact congrArg Except.ok (Option.some.inj hw)

/-- A branch with another word behind it has its delay slot in the block. -/
theorem slot (hp : p.WellFormed) (h : p.Reads maxOps pc words) {i : Nat} {w : UInt32}
    (hw : words[i]? = some w) (hslot : Instruction.hasDelaySlot { word := w } = true)
    (hbehind : p.memory.layout.GoesOn (pc + i.toUInt32 * 4)) : i + 1 < words.length := by
  have hword : ∀ {j v}, words[j]? = some v → _ := h.word hp
  obtain ⟨hmost, hc, ops, hdecode, rfl⟩ := h
  obtain ⟨⟨r, data, hsupplies⟩, -, hbound, -⟩ := Block.supplies_of_decode hdecode
  have hlow := hc.low hdecode
  have hoffset := hp.plain.offset_mod_four hsupplies.resolves
  have haligned := hc.aligned
  have hfits := hsupplies.fits
  have hi : i < ops.size := by
    rw [← length_opWords]
    exact (List.getElem?_eq_some_iff.mp hw).1
  have hop : ∃ o, ops[i]? = some o ∧ o.instr = { word := w } := by
    rw [opWords, List.getElem?_map, Array.getElem?_toList] at hw
    obtain ⟨o, ho, rfl⟩ := Option.map_eq_some_iff.mp hw
    exact ⟨o, ho, rfl⟩
  obtain ⟨o, ho, hinstr⟩ := hop
  rw [length_opWords] at hfits ⊢
  obtain ⟨r', data', hr', -, hdata', -, hcollect⟩ := Block.decode_eq_ok_iff.mp hdecode
  cases hsupplies.resolves.symm.trans hr'
  cases hsupplies.bytes.symm.trans hdata'
  have hfour := @Interpreter.toNat_mul_four i (by omega)
  have hcases := Block.collect_slot Array.size_empty (Nat.zero_le i) (hcollect.symm ▸ ho)
    (hinstr ▸ hslot)
  rw [hcollect] at hcases
  rcases hcases with hlt | hlast | ⟨j, o', rfl, ho', hslot'⟩
  · exact hlt
  · -- the region would end behind the branch
    obtain ⟨⟨r1, hr1, hindex, hoffset1⟩, -⟩ := Memory.readWord_add hp.plain hp.sized
      hsupplies.resolves hsupplies.bytes (n := i.toUInt32 * 4) (by omega) (by omega)
    obtain ⟨s, hs, -, hsize⟩ := hp.sized hsupplies.bytes
    have hmore := hbehind r1 hr1
    rw [hindex, Array.getD_eq_getD_getElem?, hs, Option.getD_some] at hmore
    omega
  · -- the block would have one branch behind the other
    have hv : (opWords ops)[j]? = some o'.instr.word := by
      rw [opWords, List.getElem?_map, Array.getElem?_toList, ho', Option.map_some]
    obtain ⟨hj, hreadj⟩ := hword hv
    obtain ⟨hi', hreadi⟩ := hword hw
    rw [← Interpreter.address_succ] at hi' hreadi
    rw [hp.parted hj hi' hreadj hreadi hslot'] at hslot
    cases hslot

/-- A block of the program is found again where it was, as long as memory holds the program. -/
theorem decode_again (hp : p.WellFormed) (hm : p.In m) (h : p.Reads maxOps pc words) :
    ∃ ops, Block.decode m pc words.length = .ok ops ∧
      opWords (ops.extract 0 words.length) = words := by
  obtain ⟨hmost, hc, ops, hdecode, rfl⟩ := h
  obtain ⟨r, data, hr, hkind, hdata, hfits, hcollect⟩ :=
    Block.decode_eq_ok_iff.mp (hc.decode hp hm hmost hdecode)
  rw [length_opWords]
  generalize hstart : r.offset.toNat / 4 * 4 = start at hfits hcollect
  generalize hcount : (data.size - start) / 4 = count at hcollect
  have hcount' : ops.size ≤ count := by
    obtain ⟨n, hlist, hleft, -⟩ := Block.toList_collect data start (min count (max maxOps 2)) count 0
      #[] (by omega)
    rw [hcollect, Array.toList_empty, List.nil_append] at hlist
    rw [← Array.length_toList, hlist, Dynarec.fetched, List.length_map, List.length_range']
    exact hleft
  have hprefix := Block.collect_prefix data start (min count (max maxOps 2))
    (min count (max ops.size 2)) count 0 #[] rfl (by rw [hcollect]; omega)
  rw [hcollect] at hprefix
  refine ⟨_, Block.decode_eq_ok_iff.mpr ⟨r, data, hr, hkind, hdata, hstart ▸ hfits, rfl⟩, ?_⟩
  rw [hstart, hcount]
  generalize Block.collect data start (min count (max ops.size 2)) count 0 #[] = again at hprefix ⊢
  have htake := List.prefix_iff_eq_take.mp hprefix
  rw [Array.length_toList] at htake
  rw [opWords, opWords, Array.toList_extract, List.extract_eq_take_drop, List.drop_zero, Nat.sub_zero,
    ← htake]

end Reads

end Program

end Dynarec
