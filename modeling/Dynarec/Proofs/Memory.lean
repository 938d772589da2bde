/-
  Dynarec.Proofs.Memory

  What writes to memory leave alone.

  `SameExcept W a b` says that `b` is `a` but for bytes at the places `W`; the
  map and the sizes of all regions stay. Every write of guest or host has a
  lemma that says which places it may change.
-/
import Dynarec.Machine.Access

namespace Dynarec

/-! ## Bytes -/

namespace Bytes

theorem byteAt_setByte_of_ne (b : ByteArray) {i k : Nat} (h : k ≠ i) (v : UInt8) :
    byteAt (setByte b i v) k = byteAt b k := by
  unfold setByte
  split
  · rename_i hi
    have hsize : (b.set i v hi).size = b.size := by
      cases b
      simp [ByteArray.set, ByteArray.size]
    unfold byteAt
    by_cases hk : k < b.size
    · rw [dif_pos hk, dif_pos (hsize ▸ hk)]
      simp [ByteArray.set, ByteArray.getElem_eq_getElem_data, Array.getElem_set, Ne.symm h]
    · rw [dif_neg hk, dif_neg (hsize ▸ hk)]
  · rfl

theorem byteAt_setByte (b : ByteArray) {i : Nat} (hi : i < b.size) (v : UInt8) (j : Nat) :
    byteAt (setByte b i v) j = if j = i then v else byteAt b j := by
  split
  · rename_i hj
    subst hj
    unfold byteAt
    rw [dif_pos (by rw [size_setByte]; exact hi)]
    unfold setByte
    simp [hi, ByteArray.set, ByteArray.getElem_eq_getElem_data]
  · rename_i hj
    exact byteAt_setByte_of_ne b hj v

theorem byteAt_extract (data : ByteArray) {start stop i : Nat} (hi : start + i < stop)
    (hstop : stop ≤ data.size) : byteAt (data.extract start stop) i = byteAt data (start + i) := by
  unfold byteAt
  have hsize : (data.extract start stop).size = min stop data.size - start :=
    ByteArray.size_extract
  rw [dif_pos (by omega), dif_pos (by omega)]
  exact ByteArray.getElem_extract (by omega)

/-- `f` changes no size and no byte outside of the `n` bytes from `i` on. -/
structure Local (f : ByteArray → ByteArray) (i n : Nat) : Prop where
  size : ∀ b, (f b).size = b.size
  byte : ∀ b {k}, k < i ∨ i + n ≤ k → byteAt (f b) k = byteAt b k

theorem local_setByte (i : Nat) (v : UInt8) : Local (fun b => setByte b i v) i 1 where
  size b := size_setByte b i v
  byte b k hk := byteAt_setByte_of_ne b (by omega) v

theorem Local.comp {f g : ByteArray → ByteArray} {i j m n : Nat} (hf : Local f i m)
    (hg : Local g j n) (first count : Nat) (hfirst : first ≤ i ∧ first ≤ j)
    (hlast : i + m ≤ first + count ∧ j + n ≤ first + count) :
    Local (fun b => g (f b)) first count where
  size b := by rw [hg.size, hf.size]
  byte b k hk := by rw [hg.byte _ (by omega), hf.byte _ (by omega)]

theorem local_setHalf (i : Nat) (v : UInt32) : Local (fun b => setHalf b i v) i 2 :=
  (local_setByte i _).comp (local_setByte (i + 1) _) i 2 (by omega) (by omega)

theorem local_setWord (i : Nat) (v : UInt32) : Local (fun b => setWord b i v) i 4 := by
  have h2 := (local_setByte i v.toUInt8).comp (local_setByte (i + 1) (v >>> 8).toUInt8) i 2
    (by omega) (by omega)
  have h3 := h2.comp (local_setByte (i + 2) (v >>> 16).toUInt8) i 3 (by omega) (by omega)
  exact h3.comp (local_setByte (i + 3) (v >>> 24).toUInt8) i 4 (by omega) (by omega)

theorem local_fill (v : UInt8) (n i : Nat) : Local (fill v n i) i n where
  size b := size_fill v n i b
  byte b k hk := by
    induction n generalizing i b with
    | zero => rfl
    | succ n ih => rw [fill, ih _ _ (by omega), byteAt_setByte_of_ne _ (by omega)]

theorem local_copy (src : ByteArray) (n j i : Nat) : Local (copy src n j i) i n where
  size b := size_copy src n j i b
  byte b k hk := by
    induction n generalizing j i b with
    | zero => rfl
    | succ n ih => rw [copy, ih _ _ _ (by omega), byteAt_setByte_of_ne _ (by omega)]

/-- A word depends on its four bytes. -/
theorem wordAt_congr {a b : ByteArray} {i : Nat}
    (h : ∀ k, i ≤ k → k < i + 4 → byteAt a k = byteAt b k) : wordAt a i = wordAt b i := by
  unfold wordAt
  rw [h i (by omega) (by omega), h (i + 1) (by omega) (by omega), h (i + 2) (by omega) (by omega),
    h (i + 3) (by omega) (by omega)]

end Bytes

/-! ## Memory -/

namespace Memory

variable {δ : Type} {W : Nat → Nat → Prop} {a b c : Memory δ} (m : Memory δ)

theorem size?_eq_map (i : Nat) : m.size? i = (m.bytes? i).map (·.size) := by
  unfold size? bytes?
  cases m.contents[i]? with
  | none => rfl
  | some content => cases content <;> rfl

theorem exists_bytes?_of_size? {i : Nat} {data' : ByteArray} (hsize : b.size? i = a.size? i)
    (hb : b.bytes? i = some data') : ∃ data, a.bytes? i = some data ∧ data.size = data'.size := by
  rw [size?_eq_map, size?_eq_map, hb] at hsize
  exact Option.map_eq_some_iff.mp hsize.symm

/-- Where bytes at an address lie that resolves to memory. -/
theorem locate_of_resolve {m : Memory δ} {addr : UInt32} {r : Resolved} {data : ByteArray}
    (hr : m.layout.resolve addr = .ok r) (hdata : m.bytes? r.index = some data) (n : Nat) :
    m.locate addr n = if r.offset.toNat + n ≤ data.size then .ok (r.index, r.offset.toNat)
      else .error (.outOfBounds addr) := by
  have hsize : m.size? r.index = some data.size := by rw [size?_eq_map, hdata, Option.map_some]
  unfold locate
  rw [hr]
  dsimp only
  rw [hsize]

theorem locate_ok {m : Memory δ} {addr : UInt32} {n index offset : Nat}
    (h : m.locate addr n = .ok (index, offset)) :
    ∃ r data, m.layout.resolve addr = .ok r ∧ m.bytes? index = some data ∧ index = r.index ∧
      offset = r.offset.toNat ∧ offset + n ≤ data.size := by
  cases hr : m.layout.resolve addr with
  | error f =>
    rw [locate, hr] at h
    cases h
  | ok r =>
    cases hdata : m.bytes? r.index with
    | none =>
      unfold locate at h
      rw [hr] at h
      dsimp only at h
      rw [size?_eq_map, hdata] at h
      cases h
    | some data =>
      rw [locate_of_resolve hr hdata] at h
      split at h
      · rename_i hfits
        cases h
        exact ⟨r, data, rfl, hdata, rfl, rfl, hfits⟩
      · cases h

/-- The same memory, but for bytes at the places `W`. -/
structure SameExcept (W : Nat → Nat → Prop) (a b : Memory δ) : Prop where
  layout : b.layout = a.layout
  size : ∀ i, b.size? i = a.size? i
  byte : ∀ {i k : Nat} {data data' : ByteArray}, a.bytes? i = some data →
    b.bytes? i = some data' → ¬ W i k → Bytes.byteAt data' k = Bytes.byteAt data k

/-- No place at all. -/
def nowhere (_ _ : Nat) : Prop := False

/-- Every place. -/
def everywhere (_ _ : Nat) : Prop := True

/-- The `n` bytes of region `index` from `offset` on. -/
def range (index offset n : Nat) (i k : Nat) : Prop := i = index ∧ offset ≤ k ∧ k < offset + n

namespace SameExcept

theorem refl (W : Nat → Nat → Prop) (m : Memory δ) : SameExcept W m m where
  layout := rfl
  size _ := rfl
  byte h h' _ := by
    rw [h] at h'
    cases h'
    rfl

theorem bytes?_isSome (h : SameExcept W a b) {i : Nat} {data' : ByteArray}
    (hb : b.bytes? i = some data') : ∃ data, a.bytes? i = some data ∧ data.size = data'.size :=
  exists_bytes?_of_size? (h.size i) hb

theorem trans (h1 : SameExcept W a b) (h2 : SameExcept W b c) : SameExcept W a c where
  layout := h2.layout.trans h1.layout
  size i := (h2.size i).trans (h1.size i)
  byte ha hc hW := by
    obtain ⟨data, hb, -⟩ := h2.bytes?_isSome hc
    exact (h2.byte hb hc hW).trans (h1.byte ha hb hW)

theorem mono {V : Nat → Nat → Prop} (h : SameExcept W a b) (hWV : ∀ {i k}, W i k → V i k) :
    SameExcept V a b :=
  ⟨h.layout, h.size, fun ha hb hV => h.byte ha hb fun hW => hV (hWV hW)⟩

end SameExcept

theorem bytes?_modifyBytes (index i : Nat) (f : ByteArray → ByteArray) :
    (m.modifyBytes index f).bytes? i = if i = index then (m.bytes? i).map f else m.bytes? i := by
  unfold bytes? modifyBytes
  dsimp only
  rw [Array.getElem?_modify]
  by_cases hi : index = i
  · rw [if_pos hi, if_pos hi.symm]
    cases m.contents[i]? with
    | none => rfl
    | some content => cases content <;> rfl
  · rw [if_neg hi, if_neg (Ne.symm hi)]

/-- A write to some bytes of one region. -/
theorem sameExcept_modifyBytes (index : Nat) {f : ByteArray → ByteArray} {offset n : Nat}
    (hf : Bytes.Local f offset n) :
    SameExcept (range index offset n) m (m.modifyBytes index f) where
  layout := rfl
  size i := by
    rw [size?_eq_map, size?_eq_map, bytes?_modifyBytes]
    split
    · cases m.bytes? i with
      | none => rfl
      | some data => exact congrArg some (hf.size data)
    · rfl
  byte {i k data data'} h h' hnot := by
    rw [bytes?_modifyBytes, h] at h'
    split at h'
    · rename_i hi
      cases h'
      refine hf.byte data ?_
      have : ¬(offset ≤ k ∧ k < offset + n) := fun hk => hnot ⟨hi, hk.1, hk.2⟩
      omega
    · cases h'
      rfl

/-- A write to no particular place. -/
theorem sameExcept_everywhere (index : Nat) {f : ByteArray → ByteArray} {offset n : Nat}
    (hf : Bytes.Local f offset n) :
    SameExcept everywhere m (m.modifyBytes index f) :=
  (m.sameExcept_modifyBytes index hf).mono fun _ => trivial

/-- A device changes no memory. -/
theorem sameExcept_callDevice {α : Type} (index : Nat) (f : δ → α × δ) :
    SameExcept nowhere m (m.callDevice index f).2 := by
  unfold callDevice
  split
  · rename_i d hd
    -- the region held a device before and holds one now
    have hsame : ∀ i, Memory.bytes? { m with
        contents := (m.contents.setIfInBounds index .none).setIfInBounds index (.device (f d).2) } i =
        m.bytes? i := by
      intro i
      unfold bytes?
      dsimp only
      rw [Array.getElem?_setIfInBounds, Array.getElem?_setIfInBounds]
      by_cases hi : index = i
      · subst hi
        have hlt := (Array.getElem?_eq_some_iff.mp hd).1
        rw [if_pos rfl, if_pos (by simpa using hlt), hd]
      · rw [if_neg hi, if_neg hi]
    refine ⟨rfl, fun i => ?_, fun h h' _ => ?_⟩
    · rw [size?_eq_map, size?_eq_map]
      exact congrArg _ (hsame i)
    · have h' := (hsame _).symm.trans h'
      rw [h] at h'
      cases h'
      rfl
  · exact SameExcept.refl _ m

end Memory

/-! ## Writes of the host -/

/-- A write that the host can ask for. -/
inductive HostWrite where
  | bytes (addr : UInt32) (src : ByteArray)
  | word (addr value : UInt32)
  | words (addr : UInt32) (values : List UInt32)
  | fill (addr : UInt32) (length : Nat) (value : UInt8)

namespace HostWrite

variable {δ : Type}

/-- Where it begins. -/
def addr : HostWrite → UInt32
  | bytes addr _ | word addr _ | words addr _ | fill addr _ _ => addr

/-- Number of bytes. -/
def length : HostWrite → Nat
  | bytes _ src => src.size
  | word _ _ => 4
  | words _ values => 4 * values.length
  | fill _ length _ => length

def apply (w : HostWrite) (m : Memory δ) : Option Fault × Memory δ :=
  match w with
  | bytes addr src => m.writeBytes addr src
  | word addr value => m.writeWord addr value
  | words addr values => m.writeWords addr values
  | fill addr length value => m.fillBytes addr length value

theorem sameExcept_writeWord (m : Memory δ) (addr value : UInt32) :
    Memory.SameExcept Memory.everywhere m (m.writeWord addr value).2 := by
  unfold Memory.writeWord
  cases m.locate addr 4 with
  | error f => exact .refl _ m
  | ok place => exact m.sameExcept_everywhere place.1 (Bytes.local_setWord place.2 value)

/-- The map and the sizes of regions stay. -/
theorem sameExcept_apply (w : HostWrite) (m : Memory δ) :
    Memory.SameExcept Memory.everywhere m (w.apply m).2 := by
  cases w with
  | bytes addr src =>
    show Memory.SameExcept Memory.everywhere m (m.writeBytes addr src).2
    unfold Memory.writeBytes
    cases m.locate addr src.size with
    | error f => exact .refl _ m
    | ok place => exact m.sameExcept_everywhere place.1 (Bytes.local_copy src src.size 0 place.2)
  | word addr value => exact sameExcept_writeWord m addr value
  | words addr values =>
    show Memory.SameExcept Memory.everywhere m (m.writeWords addr values).2
    induction values generalizing m addr with
    | nil => exact .refl _ m
    | cons value values ih =>
      have h := sameExcept_writeWord m addr value
      unfold Memory.writeWords
      generalize m.writeWord addr value = answer at h ⊢
      obtain ⟨fault, m'⟩ := answer
      cases fault with
      | some f => exact h
      | none => exact h.trans (ih m' (addr + 4))
  | fill addr length value =>
    show Memory.SameExcept Memory.everywhere m (m.fillBytes addr length value).2
    unfold Memory.fillBytes
    cases m.locate addr length with
    | error f => exact .refl _ m
    | ok place => exact m.sameExcept_everywhere place.1 (Bytes.local_fill value length place.2)

end HostWrite

end Dynarec
