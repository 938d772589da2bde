/-
  Dynarec.Proofs.ZeroRegister

  What register zero reads after any use of a register file.

  Numbers above HI share the cells of the general registers, and a write
  changes what is read under the numbers of its cell only. Writes to number 0
  are dropped, but the cell of register zero has other numbers: what is written
  to one of them is read as register zero, until the file is made anew from its
  words or bytes.
-/
import Dynarec.Proofs.Registers
import Dynarec.Proofs.Unaligned
import Mathlib.Data.List.DropRight

namespace Dynarec

/-! ## Words one after another -/

namespace Bytes

theorem byteAt_append (a b : ByteArray) (i : Nat) :
    byteAt (a ++ b) i = if i < a.size then byteAt a i else byteAt b (i - a.size) := by
  unfold byteAt
  by_cases hleft : i < a.size
  · rw [dif_pos (by rw [ByteArray.size_append]; omega), if_pos hleft, dif_pos hleft]
    exact ByteArray.getElem_append_left hleft
  · rw [if_neg hleft]
    by_cases hright : i - a.size < b.size
    · rw [dif_pos (by rw [ByteArray.size_append]; omega), dif_pos hright]
      exact ByteArray.getElem_append_right (by omega)
    · rw [dif_neg (by rw [ByteArray.size_append]; omega), dif_neg hright]

theorem wordAt_append_left {a : ByteArray} {i : Nat} (hi : i + 4 ≤ a.size) (b : ByteArray) :
    wordAt (a ++ b) i = wordAt a i := by
  refine word_ext fun k hk => ?_
  rw [byteOf_wordAt _ _ hk, byteOf_wordAt _ _ hk, byteAt_append, if_pos (by omega)]

theorem wordAt_append_ofWord (a : ByteArray) (w : UInt32) : wordAt (a ++ ofWord w) a.size = w := by
  refine word_ext fun k hk => ?_
  rw [byteOf_wordAt _ _ hk, byteAt_append, if_neg (by omega), Nat.add_sub_cancel_left]
  obtain rfl | rfl | rfl | rfl : k = 0 ∨ k = 1 ∨ k = 2 ∨ k = 3 := by omega
  all_goals rfl

theorem size_foldl_ofWord (words : List UInt32) :
    (words.foldl (fun bytes w => bytes ++ ofWord w) ByteArray.empty).size = 4 * words.length := by
  induction words using List.reverseRecOn with
  | nil => rfl
  | append_singleton words w ih =>
    rw [List.foldl_concat, ByteArray.size_append, ih, List.length_append]
    show 4 * words.length + 4 = 4 * (words.length + 1)
    omega

/-- Words are read back where they were put. -/
theorem wordAt_foldl_ofWord {words : List UInt32} {i : Nat} {w : UInt32} (h : words[i]? = some w) :
    wordAt (words.foldl (fun bytes w => bytes ++ ofWord w) ByteArray.empty) (4 * i) = w := by
  induction words using List.reverseRecOn with
  | nil => cases h
  | append_singleton words x ih =>
    have hsize := size_foldl_ofWord words
    rw [List.foldl_concat]
    rw [List.getElem?_append] at h
    split at h
    · rw [wordAt_append_left (by omega), ih h]
    · rw [List.getElem?_singleton] at h
      split at h
      · rename_i hle hlast
        cases h
        rw [show 4 * i = 4 * words.length by omega, ← hsize, wordAt_append_ofWord]
      · cases h

end Bytes

/-- What a codec writes it can read. -/
def Codec.RoundTrips {α : Type} (codec : Codec α) : Prop :=
  ∀ a, ∃ bytes, codec.encode a = some bytes ∧ codec.decode bytes = some a

/-! ## Numbers of registers -/

/-- The register that a number names. LO and HI have one number each, and every other number names
the general register of its low five bits. -/
def Reg.named (r : Reg) : Nat := if r = .lo then 32 else if r = .hi then 33 else r.toNat % 32

namespace Registers

theorem cell_val_eq_named (r : Reg) : (cell r).val = r.named := by
  unfold cell Reg.named
  split
  · rfl
  · split
    · rfl
    · show (r &&& 31).toNat = _
      rw [UInt8.toNat_and]
      exact Nat.and_two_pow_sub_one_eq_mod r.toNat 5

theorem cell_eq_iff {q r : Reg} : cell q = cell r ↔ q.named = r.named := by
  rw [Fin.ext_iff, cell_val_eq_named, cell_val_eq_named]

variable (regs : Registers)

/-- What is read after a write. -/
theorem get_set (r q : Reg) (v : UInt32) :
    (regs.set r v).get q = if r ≠ 0 ∧ q.named = r.named then v else regs.get q := by
  unfold set
  split
  · rename_i hr
    rw [if_neg fun h => h.1 hr]
  · rename_i hr
    split
    · rename_i h
      rw [get, cell_eq_iff.mpr h.2, Cells.getElem_set_self]
    · rename_i h
      exact regs.cells.getElem_set_of_ne (fun hcell => h ⟨hr, cell_eq_iff.mp hcell⟩) v

/-! ## Made anew from words or bytes -/

theorem getElem_ofWords (words : Array UInt32) (i : Fin 34) :
    (ofWords words).cells[i] = if i.val = 0 then 0 else words.getD i.val 0 :=
  Vector.getElem_ofFn i.isLt

theorem get_zero_ofWords (words : Array UInt32) : (ofWords words).get 0 = 0 :=
  getElem_ofWords words 0

theorem get_zero_cleared : ({ cells := regs.cells.set 0 0 } : Registers).get 0 = 0 :=
  Cells.getElem_set_self ..

/-- What is written as bytes is read back with register zero cleared. -/
theorem ofBytes?_toBytes? {codec : Codec Registers} (hcodec : codec.RoundTrips) (regs : Registers) :
    (regs.toBytes? codec).bind (ofBytes? codec) = some { cells := regs.cells.set 0 0 } := by
  obtain ⟨bytes, hencode, hdecode⟩ := hcodec regs
  rw [toBytes?, hencode, Option.bind_some, ofBytes?, hdecode]
  rfl

theorem length_toWords : regs.toWords.toList.length = 34 :=
  regs.cells.values.size_toArray

theorem getElem?_toWords (i : Fin 34) : regs.toWords.toList[i.val]? = some regs.cells[i] := by
  have hi : i.val < regs.toWords.toList.length := by
    rw [length_toWords]
    exact i.isLt
  exact List.getElem?_eq_getElem hi

theorem littleEndian_roundTrips : littleEndian.RoundTrips := by
  intro regs
  refine ⟨_, rfl, ?_⟩
  dsimp only [littleEndian]
  rw [← Array.foldl_toList, Bytes.size_foldl_ofWord, length_toWords, if_neg (by decide)]
  refine congrArg some (congrArg Registers.mk (Cells.ext_getElem fun i => ?_))
  refine (Vector.getElem_ofFn i.isLt).trans ?_
  exact Bytes.wordAt_foldl_ofWord (regs.getElem?_toWords i)

/-! ## Histories -/

/-- A use of a register file. -/
inductive Change where
  | set (r : Reg) (v : UInt32)
  /-- The file is made anew from its words. -/
  | throughWords
  /-- The file is made anew from its bytes. -/
  | throughBytes

def Change.isSet : Change → Bool
  | .set _ _ => true
  | .throughWords | .throughBytes => false

/-- What is written to register zero under another of its numbers. -/
def Change.slip? : Change → Option UInt32
  | .set r v => if r ≠ 0 ∧ Reg.named 0 = r.named then some v else none
  | .throughWords | .throughBytes => none

variable (codec : Codec Registers)

def perform (regs : Registers) : Change → Option Registers
  | .set r v => some (regs.set r v)
  | .throughWords => some (ofWords regs.toWords)
  | .throughBytes => (regs.toBytes? codec).bind (ofBytes? codec)

/-- A register file with a history. -/
def after (history : List Change) : Option Registers := history.foldlM (perform codec) {}

variable {codec}

/-- What was last written to register zero under another of its numbers, since the file was last made
anew. -/
def slipped? (history : List Change) : Option UInt32 :=
  ((history.rtakeWhile Change.isSet).filterMap Change.slip?).getLast?

theorem after_concat {history : List Change} {regs : Registers} (h : after codec history = some regs)
    (c : Change) : after codec (history ++ [c]) = regs.perform codec c := by
  unfold after at h ⊢
  rw [List.foldlM_append, h]
  exact bind_pure (regs.perform codec c)

theorem slipped?_concat_set (history : List Change) (r : Reg) (v : UInt32) :
    slipped? (history ++ [.set r v]) =
      if r ≠ 0 ∧ Reg.named 0 = r.named then some v else slipped? history := by
  rw [slipped?, List.rtakeWhile_concat_pos _ _ _ rfl, List.filterMap_append]
  split
  · rename_i h
    have hslip : (Change.set r v).slip? = some v := if_pos h
    rw [List.filterMap_cons_some hslip, List.filterMap_nil, List.getLast?_concat]
  · rename_i h
    have hslip : (Change.set r v).slip? = none := if_neg h
    rw [List.filterMap_cons_none hslip, List.filterMap_nil, List.append_nil]
    rfl

/-- Making the file anew drops what was written. -/
theorem slipped?_concat_rebuilt (history : List Change) {c : Change} (hc : c.isSet = false) :
    slipped? (history ++ [c]) = none := by
  rw [slipped?, List.rtakeWhile_concat_neg _ _ _ (by rw [hc]; decide)]
  rfl

theorem get_zero_after (hcodec : codec.RoundTrips) (history : List Change) :
    ∃ regs, after codec history = some regs ∧ regs.get 0 = (slipped? history).getD 0 := by
  induction history using List.reverseRecOn with
  | nil => exact ⟨{}, rfl, rfl⟩
  | append_singleton history c ih =>
    obtain ⟨regs, hafter, hzero⟩ := ih
    rw [after_concat hafter]
    cases c with
    | set r v =>
      refine ⟨regs.set r v, rfl, ?_⟩
      rw [get_set, slipped?_concat_set]
      split
      · rfl
      · exact hzero
    | throughWords =>
      refine ⟨ofWords regs.toWords, rfl, ?_⟩
      rw [get_zero_ofWords, slipped?_concat_rebuilt _ rfl]
      rfl
    | throughBytes =>
      refine ⟨_, ofBytes?_toBytes? hcodec regs, ?_⟩
      rw [get_zero_cleared, slipped?_concat_rebuilt _ rfl]
      rfl

/-- After every history there is a register file, given a codec that reads what it writes. Register
zero reads zero in it unless another number of it was written to since the file was last made anew,
and then the value last written so. Otherwise a write changes what is read under the numbers of its
register only. -/
theorem zero_reads_zero_unless_slipped (hcodec : codec.RoundTrips) (history : List Change) :
    ∃ regs, after codec history = some regs ∧ regs.get 0 = (slipped? history).getD 0 ∧
      ∀ (r q : Reg) (v : UInt32), (regs.set r v).get q ≠ regs.get q → q.named = r.named := by
  obtain ⟨regs, hafter, hzero⟩ := get_zero_after hcodec history
  refine ⟨regs, hafter, hzero, fun r q v hchanged => ?_⟩
  rw [get_set] at hchanged
  split at hchanged
  · rename_i h
    exact h.2
  · exact absurd rfl hchanged

/-- Number 64 names register zero too. -/
theorem zero_reads_zero_unless_slipped_sixtyFour :
    littleEndian.RoundTrips ∧ (after littleEndian [.set 64 5]).map (·.get 0) = some 5 ∧
      (after littleEndian [.set 64 5, .throughBytes]).map (·.get 0) = some 0 := by
  obtain ⟨regs, hafter, hzero, -⟩ :=
    zero_reads_zero_unless_slipped littleEndian_roundTrips [.set 64 5]
  obtain ⟨regs', hafter', hzero', -⟩ :=
    zero_reads_zero_unless_slipped littleEndian_roundTrips [.set 64 5, .throughBytes]
  rw [hafter, hafter', Option.map_some, Option.map_some, hzero, hzero']
  exact ⟨littleEndian_roundTrips, by decide⟩

end Registers

end Dynarec
