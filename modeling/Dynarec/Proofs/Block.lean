/-
  Dynarec.Proofs.Block

  Blocks, from the words they are decoded from to what running does to them.

  A decoded block is a row of words of memory, never empty and of bounded
  length. Annotating it and running it, by interpretation or as code, may add
  marks and ask for new code, but keeps the block: its address, its words, and
  marks that are true.
-/
import Dynarec.Proofs.Annotate

namespace Dynarec

open Interpreter (Cursor Outcome)

/-- The words of instructions. -/
def opWords (ops : Array Op) : List UInt32 := ops.toList.map (·.instr.word)

theorem length_opWords (ops : Array Op) : (opWords ops).length = ops.size := by
  rw [opWords, List.length_map, Array.length_toList]

theorem Annotates.opWords_eq {pc : UInt32} {ops ops' : Array Op} (h : Annotates pc ops ops') :
    opWords ops' = opWords ops := by
  apply List.ext_getElem?
  intro i
  rw [opWords, opWords, List.getElem?_map, List.getElem?_map, Array.getElem?_toList,
    Array.getElem?_toList]
  cases ho' : ops'[i]? with
  | some o' =>
    obtain ⟨o, ho, hi, -⟩ := h.op ho'
    rw [ho, Option.map_some, Option.map_some, hi]
  | none =>
    have hsize : ops.size ≤ i := h.size ▸ Array.getElem?_eq_none_iff.mp ho'
    rw [Array.getElem?_eq_none hsize]

/-! ## Decoding -/

/-- The instructions of `n` words of memory from word `index` behind `start` on. -/
def fetched (data : ByteArray) (start index n : Nat) : List Op :=
  (List.range' index n).map fun i => Op.ofWord (Bytes.wordAt data (start + 4 * i))

theorem fetched_succ (data : ByteArray) (start index n : Nat) : fetched data start index (n + 1) =
      Op.ofWord (Bytes.wordAt data (start + 4 * index)) :: fetched data start (index + 1) n := by
  rw [fetched, List.range'_succ, List.map_cons]
  rfl

theorem Block.toList_collect (data : ByteArray) (start limit left index : Nat) (ops : Array Op)
    (hindex : index < limit) :
    ∃ n, (collect data start limit left index ops).toList =
        ops.toList ++ fetched data start index n ∧
      n ≤ left ∧ index + n ≤ limit + 1 ∧ (0 < left → 0 < n) := by
  induction left generalizing index ops with
  | zero => exact ⟨0, by simp [collect, fetched], by omega, by omega, by omega⟩
  | succ left ih =>
    have hone : (ops.push (Op.ofWord (Bytes.wordAt data (start + 4 * index)))).toList =
        ops.toList ++ fetched data start index 1 := by
      simp [fetched]
    unfold collect
    dsimp only
    split
    · exact ⟨1, hone, by omega, by omega, by omega⟩
    · split
      · split
        · exact ⟨1, hone, by omega, by omega, by omega⟩
        · refine ⟨2, ?_, by omega, by omega, by omega⟩
          rw [Array.toList_push, hone, List.append_assoc]
          simp [fetched, List.range'_succ]
      · split
        · exact ⟨1, hone, by omega, by omega, by omega⟩
        · -- the block goes on with the next word
          rename_i hlast
          have hnext : index + 1 < limit := by
            simp only [decide_eq_true_eq] at hlast
            omega
          obtain ⟨n, hops, hleft, hlimit, -⟩ :=
            ih (index + 1) (ops.push (Op.ofWord (Bytes.wordAt data (start + 4 * index)))) hnext
          refine ⟨n + 1, ?_, by omega, by omega, by omega⟩
          rw [hops, hone, List.append_assoc, fetched_succ]
          rfl

/-- The words stand in memory from `pc` on, in the bytes `data` of the region that `r` names. -/
structure Memory.Supplies {δ : Type} (m : Memory δ) (pc : UInt32) (words : List UInt32)
    (r : Resolved) (data : ByteArray) : Prop where
  resolves : m.layout.resolve pc = .ok r
  direct : r.kind = .direct
  bytes : m.bytes? r.index = some data
  fits : r.offset.toNat / 4 * 4 + 4 * words.length ≤ data.size
  word : ∀ {i : Nat}, i < words.length →
    words[i]? = some (Bytes.wordAt data (r.offset.toNat / 4 * 4 + 4 * i))

/-- What is decoded are words of memory. -/
theorem Block.supplies_of_decode {δ : Type} {m : Memory δ} {pc : UInt32} {maxOps : Nat}
    {ops : Array Op} (h : decode m pc maxOps = .ok ops) :
    (∃ r data, m.Supplies pc (opWords ops) r data) ∧ 0 < ops.size ∧ ops.size ≤ max maxOps 2 + 1 ∧
      ∀ o ∈ ops, o.flags = {} := by
  unfold decode at h
  split at h
  · cases h
  · rename_i r hr
    split at h
    · cases h
    · rename_i hkind
      split at h
      · cases h
      · rename_i data hdata
        dsimp only at h
        split at h
        · cases h
        · rename_i hwords
          cases h
          generalize hstart : r.offset.toNat / 4 * 4 = start at hwords ⊢
          generalize hcount : (data.size - start) / 4 = count at hwords ⊢
          -- at least one word is there, so that the loop takes one
          have hlimit : 0 < min count (max maxOps 2) := by omega
          obtain ⟨n, hops, hleft, hmost, hsome⟩ :=
            toList_collect data start (min count (max maxOps 2)) count 0 #[] hlimit
          rw [Array.toList_empty, List.nil_append] at hops
          have hsize : (collect data start (min count (max maxOps 2)) count 0 #[]).size = n := by
            rw [← Array.length_toList, hops, fetched, List.length_map, List.length_range']
          refine ⟨⟨r, data, hr, ?_, hdata, ?_, ?_⟩, ?_, ?_, ?_⟩
          · cases hk : r.kind with
            | direct => rfl
            | device => exact absurd hk hkind
          · rw [length_opWords, hsize, hstart]
            omega
          · intro i hi
            rw [length_opWords, hsize] at hi
            rw [opWords, hops, fetched, List.map_map, List.getElem?_map, List.getElem?_range' hi,
              hstart]
            simp [Op.ofWord]
          · omega
          · omega
          · intro o ho
            have ho' := Array.mem_toList_iff.mpr ho
            rw [hops, fetched] at ho'
            obtain ⟨i, -, rfl⟩ := List.mem_map.mp ho'
            rfl

/-! ## The same block -/

namespace Block

/-- The instructions are those of the block, and their marks are true. -/
structure IsSource (b : Block) (source : BlockSource) : Prop where
  pc : source.pc = b.pc
  words : opWords source.ops = b.words
  faithful : source.Faithful False
  impossible : LeavesImpossible source.ops

/-- An instruction of the block that is left to the interpreter is a branch with another one in its
delay slot. -/
theorem IsSource.branchInSlot {b : Block} {source : BlockSource} (h : b.IsSource source) {index : Nat}
    (halone : source.LeavesAlone index) : BranchInSlot source.ops index := by
  obtain ⟨o, ho, hflag | ⟨hbranch, d, hd, hslot⟩⟩ := halone
  · exact h.impossible ho hflag
  · exact ⟨o, d, ho, hbranch, hd, hslot⟩

/-- The same block with the same code. Its instructions have the marks they had, and perhaps
more, unless they were freed. -/
structure Keeps (b b' : Block) : Prop where
  pc : b'.pc = b.pc
  opCount : b'.opCount = b.opCount
  words : b'.words = b.words
  code : b'.code = b.code
  isDead : b'.flags.isDead = b.flags.isDead
  ops : ∀ {ops' : Array Op}, b'.ops = some ops' →
    ∃ ops, b.ops = some ops ∧ Annotates b.pc ops ops'

variable (b : Block)

theorem Keeps.refl : b.Keeps b :=
  ⟨rfl, rfl, rfl, rfl, rfl, fun h => ⟨_, h, Annotates.refl _ _⟩⟩

theorem Keeps.trans {b b' b'' : Block} (h1 : b.Keeps b') (h2 : b'.Keeps b'') : b.Keeps b'' where
  pc := h2.pc.trans h1.pc
  opCount := h2.opCount.trans h1.opCount
  words := h2.words.trans h1.words
  code := h2.code.trans h1.code
  isDead := h2.isDead.trans h1.isDead
  ops := by
    intro ops'' hops''
    obtain ⟨ops', hops', h'⟩ := h2.ops hops''
    obtain ⟨ops, hops, h⟩ := h1.ops hops'
    rw [h1.pc] at h'
    exact ⟨ops, hops, h.trans h'⟩

variable {flags : BlockFlags}

theorem keeps_withFlags (h : flags.isDead = b.flags.isDead) : b.Keeps { b with flags } :=
  ⟨rfl, rfl, rfl, rfl, h, fun h => ⟨_, h, Annotates.refl _ _⟩⟩

theorem keeps_setFlags (h : flags.isDead = false) : b.Keeps (b.setFlags flags) :=
  b.keeps_withFlags (by simp [BlockFlags.union, h])

theorem keeps_clearFlags (h : flags.isDead = false) : b.Keeps (b.clearFlags flags) :=
  b.keeps_withFlags (by simp [BlockFlags.without, h])

theorem keeps_freeOps : b.Keeps b.freeOps.2 :=
  ⟨rfl, rfl, rfl, rfl, rfl, fun h => by cases h⟩

theorem keeps_withOps {b : Block} {ops ops' : Array Op} (hops : b.ops = some ops)
    (h : Annotates b.pc ops ops') : b.Keeps { b with ops := some ops' } where
  pc := rfl
  opCount := rfl
  words := rfl
  code := rfl
  isDead := rfl
  ops := by
    intro ops'' hops''
    cases hops''
    exact ⟨ops, hops, h⟩

theorem keeps_flagRecompile (t : EntryTable) : b.Keeps (b.flagRecompile t).1 := by
  unfold flagRecompile
  cases b.code with
  | none => exact Keeps.refl b
  | some code => exact b.keeps_setFlags rfl

/-- Marking an access is no mark that could be wrong. -/
theorem keeps_tagOp (index : Nat) (kind : RegionKind) :
    b.Keeps (b.tagOp index (.ofKind kind)).2 := by
  unfold tagOp
  cases hops : b.ops with
  | none => exact Keeps.refl b
  | some ops =>
    dsimp only
    cases ho : ops[index]? with
    | none => exact Keeps.refl b
    | some o =>
      dsimp only
      split
      · exact Keeps.refl b
      · refine keeps_withOps hops (Annotates.set ho ?_ ?_ ?_)
        · cases kind <;> exact Bool.or_false _
        · cases kind <;> exact Bool.or_false _
        · cases kind <;> exact Bool.or_false _

end Block

variable {δ κ : Type}

theorem Interpreter.annotates_tagAccess (pc : UInt32) (ops : Array Op) (tagged : Bool) (index : Nat)
    (access : Option RegionKind) :
    Annotates pc ops (tagAccess ops tagged index (ops.getD index default) access).1 := by
  unfold tagAccess
  cases access with
  | none => exact Annotates.refl pc ops
  | some kind =>
    dsimp only
    split
    · exact Annotates.refl pc ops
    · by_cases hlt : index < ops.size
      · have ho : ops[index]? = some (ops.getD index default) := by
          simp [Array.getD_eq_getD_getElem?, hlt]
        have hsame := Annotate.sameMarks_tagged (ops.getD index default) kind
        exact Annotates.set ho hsame.localBranch hsame.noDelaySlot hsame.emulateBranch
      · rw [Array.setIfInBounds_eq_of_size_le (Nat.le_of_not_lt hlt)]
        exact Annotates.refl pc ops

variable [Device δ] [Coprocessor κ]

namespace Interpreter

/-- The instructions of a loop state or of its result. -/
def opsOf : Progress (Cursor δ κ) (Outcome δ κ) → Array Op
  | .running c => c.ops
  | .finished o => o.ops

theorem annotates_step (pc base : UInt32) (c : Cursor δ κ) :
    Annotates pc c.ops (opsOf (step base c)) := by
  unfold step
  split
  · split
    · exact Annotates.refl pc c.ops
    · exact Annotates.refl pc c.ops
  · rename_i index _
    dsimp only
    generalize execute (c.machine.tick cyclesPerOp) (c.ops.getD index default).instr c.pc = e
    have h := annotates_tagAccess pc c.ops c.tagged index e.access
    generalize tagAccess c.ops c.tagged index (c.ops.getD index default) e.access = tags at h ⊢
    obtain ⟨m, control, access⟩ := e
    cases control with
    | exit next => exact h
    | branch target => exact h
    | next =>
      dsimp only
      split
      · exact h
      · split
        · exact h
        · exact h

theorem annotates_iterate (pc base : UInt32) (fuel : Nat) (c : Cursor δ κ) :
    Annotates pc c.ops (opsOf (iterate (step base) fuel c)) := by
  induction fuel generalizing c with
  | zero => exact Annotates.refl pc c.ops
  | succ fuel ih =>
    have h := annotates_step pc base c
    rw [iterate_succ]
    cases hs : step base c with
    | running c' =>
      rw [hs] at h
      exact h.trans (ih c')
    | finished o =>
      rw [hs] at h
      exact h

/-- Interpreting a block keeps it. -/
theorem keeps_emulate {fuel : Nat} {m : Machine δ κ} {b : Block} {pc : UInt32} {r : Emulated δ κ}
    (h : emulate fuel m b pc = .finished r) : b.Keeps r.block := by
  unfold emulate at h
  dsimp only at h
  cases hops : b.ops with
  | some ops =>
    rw [hops] at h
    dsimp only at h
    -- a run only adds tags
    have hrun := annotates_iterate b.pc b.pc fuel
      { machine := m, ops, pc := b.pc + ((pc - b.pc) >>> (2 : UInt32)).toNat.toUInt32 * 4 }
    unfold run at h
    split at h
    · cases h
    · rename_i o ho
      rw [ho] at hrun
      split at h
      · cases h
        exact (Block.keeps_withOps hops hrun).trans (Block.keeps_flagRecompile _ _)
      · cases h
        exact Block.Keeps.refl b
  | none =>
    rw [hops] at h
    dsimp only at h
    split at h
    · cases h
      exact Block.Keeps.refl b
    · split at h
      · cases h
      · cases h
        exact Block.Keeps.refl b

end Interpreter

namespace HostProgram

/-- The block of a running program or of one that has been left. -/
def blockOf : Progress (Frame δ κ) (Returned δ κ) → Block
  | .running f => f.block
  | .finished r => r.block

omit [Device δ] [Coprocessor κ] in
theorem keeps_tag (f : Frame δ κ) (index : Nat) (o : Op) (kind : Option RegionKind) :
    f.block.Keeps (f.tag index o kind).block := by
  unfold Frame.tag
  cases kind with
  | none => exact Block.Keeps.refl _
  | some kind =>
    dsimp only
    split
    · exact Block.Keeps.refl _
    · have h := f.block.keeps_tagOp index kind
      split
      · exact Block.Keeps.refl _
      · rename_i block htag
        rw [htag] at h
        exact h.trans (Block.keeps_flagRecompile block _)

theorem keeps_memory (f : Frame δ κ) (pc : UInt32) (index : Nat) (o : Op) (base : HostReg)
    (data dst : Option HostReg) : f.block.Keeps (blockOf (f.memory pc index o base data dst)) := by
  rw [Frame.memory_eq]
  have h := keeps_tag { f with
      machine := (f.machine.transfer o.instr f.host[base] (f.dataOf data)).machine } index o
    (f.machine.transfer o.instr f.host[base] (f.dataOf data)).kind
  dsimp only
  split
  · exact h
  · cases dst with
    | none => exact h
    | some d => exact h

theorem keeps_perform (pc : UInt32) (f : Frame δ κ) (op : HostOp) :
    f.block.Keeps (blockOf (perform pc f op)) := by
  have hjump : ∀ label next, f.block.Keeps (blockOf (f.jump label next)) := by
    intro label next
    unfold Frame.jump
    split <;> exact Block.Keeps.refl _
  cases op with
  | memory index o base data dst => exact keeps_memory f pc index o base data dst
  | exitIf next =>
    simp only [perform]
    split <;> exact Block.Keeps.refl _
  | jump label next => exact hjump label next
  | jumpIf label next =>
    simp only [perform]
    split
    · exact hjump label next
    · exact Block.Keeps.refl _
  | _ => exact Block.Keeps.refl _

theorem keeps_iterate (p : HostProgram) (fuel : Nat) (f : Frame δ κ) :
    f.block.Keeps (blockOf (iterate p.step fuel f)) := by
  induction fuel generalizing f with
  | zero => exact Block.Keeps.refl _
  | succ fuel ih =>
    have h : f.block.Keeps (blockOf (p.step f)) := by
      unfold step
      split
      · exact Block.Keeps.refl _
      · exact keeps_perform p.pc f _
    rw [iterate_succ]
    cases hs : p.step f with
    | running f' =>
      rw [hs] at h
      exact h.trans (ih f')
    | finished r =>
      rw [hs] at h
      exact h

/-- Running code of a block keeps it. -/
theorem keeps_call {fuel : Nat} {p : HostProgram} {entry : Nat} {m : Machine δ κ} {b : Block}
    {r : Returned δ κ} (h : p.call fuel entry m b = .finished r) : b.Keeps r.block := by
  unfold call at h
  split at h
  · cases h
    exact Block.Keeps.refl b
  · rename_i place _
    have hrun := keeps_iterate p fuel { machine := m, block := b, place }
    rw [h] at hrun
    exact hrun

end HostProgram

end Dynarec
