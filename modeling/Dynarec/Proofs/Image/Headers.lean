/-
  Dynarec.Proofs.Image.Headers

  Where the headers of an executable stand in its bytes.

  A little-endian file with addresses of 4 bytes says at fixed places of its
  header which machine it is for, where it is entered and where its program
  headers are, each of them eight words long. A parser is faithful if it reports
  what stands there. The parser of this library is: it reads one field behind
  the other, so that each is the number at the place where those before it end.
-/
import Dynarec.Image.Elf
import Dynarec.Proofs.Memory
import Mathlib.Algebra.GroupWithZero.Nat

namespace Dynarec

/-! ## Headers -/

namespace Elf

/-- The machine in the header of a file. -/
def machineIn (bytes : ByteArray) : UInt16 := (Bytes.halfAt bytes 18).toUInt16

/-- The entry in the header of a file. -/
def entryIn (bytes : ByteArray) : UInt64 := (Bytes.wordAt bytes 24).toUInt64

/-- The program header at a place. -/
def segmentAt (bytes : ByteArray) (place : Nat) : Segment where
  kind := Bytes.wordAt bytes place
  offset := (Bytes.wordAt bytes (place + 4)).toUInt64
  virtualAddr := (Bytes.wordAt bytes (place + 8)).toUInt64
  physicalAddr := (Bytes.wordAt bytes (place + 12)).toUInt64
  fileSize := (Bytes.wordAt bytes (place + 16)).toUInt64
  memorySize := (Bytes.wordAt bytes (place + 20)).toUInt64

/-- The program headers of a file, as many as its header says at the place that it names. -/
def segmentsIn (bytes : ByteArray) : List Segment :=
  (List.range (Bytes.halfAt bytes 44).toNat).map fun k =>
    segmentAt bytes ((Bytes.wordAt bytes 28).toNat + 32 * k)

/-- What the parser reports of a file for the guest is what the bytes say. -/
structure Parser.Faithful (parse : Parser) : Prop where
  machine : ∀ {bytes file}, parse bytes = .ok file → file.wide = false →
    file.littleEndian = true → file.machine = machineIn bytes
  entry : ∀ {bytes file}, parse bytes = .ok file → file.wide = false →
    file.littleEndian = true → file.entry = entryIn bytes
  segments : ∀ {bytes file}, parse bytes = .ok file → file.wide = false →
    file.littleEndian = true → file.segments = segmentsIn bytes

end Elf

/-! ## Numbers -/

namespace Bytes

/-- A byte is put above the bits that are there. -/
theorem toNat_or_shiftLeft {x k : UInt32} {p : Nat} (hp : k.toNat = p) (hle : p ≤ 24)
    (hx : x.toNat < 2 ^ p) (b : UInt8) :
    (x ||| (b.toUInt32 <<< k)).toNat = x.toNat + 2 ^ p * b.toNat := by
  have hb := b.toNat_lt
  have hpow : 2 ^ p ≤ 2 ^ 24 := Nat.pow_le_pow_right (by decide) hle
  have hlt : b.toNat <<< p < 2 ^ 32 :=
    calc b.toNat <<< p = b.toNat * 2 ^ p := Nat.shiftLeft_eq ..
      _ ≤ 255 * 2 ^ 24 := Nat.mul_le_mul (by omega) hpow
      _ < 2 ^ 32 := by decide
  have hshift : (b.toUInt32 <<< k).toNat = b.toNat <<< p := by
    rw [UInt32.toNat_shiftLeft, UInt8.toNat_toUInt32, hp, Nat.mod_eq_of_lt (by omega : p < 32),
      Nat.mod_eq_of_lt hlt]
  rw [UInt32.toNat_or, hshift, Nat.or_comm, ← Nat.shiftLeft_add_eq_or_of_lt hx, Nat.shiftLeft_eq,
    Nat.add_comm, Nat.mul_comm]

/-- The number that bytes are, the least significant first. -/
def number (b : ByteArray) (i : Nat) : Nat → Nat
  | 0 => 0
  | size + 1 => (byteAt b i).toNat + 256 * number b (i + 1) size

theorem toNat_halfAt (b : ByteArray) (i : Nat) : (halfAt b i).toNat = number b i 2 := by
  have h0 := (byteAt b i).toNat_lt
  have hlow : (byteAt b i).toUInt32.toNat = (byteAt b i).toNat := UInt8.toNat_toUInt32 _
  rw [halfAt, toNat_or_shiftLeft (p := 8) rfl (by decide) (by omega), hlow]
  rfl

theorem toNat_wordAt (b : ByteArray) (i : Nat) : (wordAt b i).toNat = number b i 4 := by
  have h0 := (byteAt b i).toNat_lt
  have h1 := (byteAt b (i + 1)).toNat_lt
  have h2 := (byteAt b (i + 2)).toNat_lt
  have hlow : (byteAt b i).toUInt32.toNat = (byteAt b i).toNat := UInt8.toNat_toUInt32 _
  have htwo := toNat_or_shiftLeft (x := (byteAt b i).toUInt32) (k := 8) (p := 8) rfl (by decide)
    (by omega) (byteAt b (i + 1))
  have hthree := toNat_or_shiftLeft
    (x := (byteAt b i).toUInt32 ||| ((byteAt b (i + 1)).toUInt32 <<< 8)) (k := 16) (p := 16) rfl
    (by decide) (by omega) (byteAt b (i + 2))
  rw [wordAt, toNat_or_shiftLeft (p := 24) rfl (by decide) (by omega), hthree, htwo, hlow]
  show _ = (byteAt b i).toNat + 256 * ((byteAt b (i + 1)).toNat +
    256 * ((byteAt b (i + 2)).toNat + 256 * ((byteAt b (i + 3)).toNat + 256 * 0)))
  omega

/-- Digits are summed up from the most significant one on. -/
theorem foldl_digits (b : ByteArray) (i size : Nat) :
    ((List.range' i size).map (byteAt b)).reverse.foldl (fun n d => n * 256 + d.toNat) 0 =
      number b i size := by
  rw [List.foldl_reverse]
  induction size generalizing i with
  | zero => rfl
  | succ size ih =>
    rw [List.range'_succ, List.map_cons, List.foldr_cons, ih]
    exact (Nat.add_comm ..).trans (congrArg _ (Nat.mul_comm ..))

theorem number_extract {b : ByteArray} {start stop i size : Nat} (hi : start + i + size ≤ stop)
    (hstop : stop ≤ b.size) : number (b.extract start stop) i size = number b (start + i) size := by
  induction size generalizing i with
  | zero => rfl
  | succ size ih =>
    rw [number, number, byteAt_extract b (by omega) hstop, ih (by omega), Nat.add_assoc]

end Bytes

namespace Elf

theorem exists_of_bind_ok {ε α β : Type} {x : Except ε α} {k : α → Except ε β} {v : β}
    (h : (x >>= k) = .ok v) : ∃ u, x = .ok u ∧ k u = .ok v := by
  cases x with
  | error e => cases h
  | ok u => exact ⟨u, rfl, h⟩

namespace Source

/-- At `offset` there are `size` bytes, and they are the number `n`. -/
structure Reads (s : Source) (offset size n : Nat) : Prop where
  fits : offset + size ≤ s.bytes.size
  value : n = Bytes.number s.bytes offset size

variable {s : Source} {offset size n : Nat}

theorem reads_of_number (hle : s.littleEndian = true) (h : s.number offset size = .ok n) :
    s.Reads offset size n := by
  obtain ⟨part, hpart, h⟩ := exists_of_bind_ok h
  unfold slice at hpart
  split at hpart
  · cases hpart
  · split at hpart
    · cases hpart
    · rename_i hin hfits
      cases hpart
      cases h
      unfold Source.size at hin hfits
      refine ⟨by omega, ?_⟩
      rw [if_pos hle, List.range_eq_range', Bytes.foldl_digits,
        Bytes.number_extract (by omega) (by omega), Nat.add_zero]

/-- A source that begins later reads the same numbers. -/
theorem Reads.of_tail {start : Nat} {t : Source} (ht : s.tail start = .ok t)
    (h : t.Reads offset size n) : s.Reads (start + offset) size n := by
  unfold tail at ht
  split at ht
  · cases ht
  · rename_i hin
    cases ht
    have hfits : offset + size ≤ (s.bytes.extract start s.bytes.size).size := h.fits
    rw [ByteArray.size_extract] at hfits
    have hall : start + offset + size ≤ s.bytes.size := by
      unfold Source.size at hin
      omega
    exact ⟨hall, h.value.trans (Bytes.number_extract hall (Nat.le_refl _))⟩

/-- Each field is the number behind the fields before it. -/
theorem reads_of_fields (hle : s.littleEndian = true) {sizes vs : List Nat}
    (h : s.fields sizes offset = .ok vs) {k : Nat} (hk : sizes[k]? = some size) :
    s.Reads (offset + (sizes.take k).sum) size (vs.getD k 0) := by
  induction sizes generalizing offset vs k with
  | nil => cases hk
  | cons first sizes ih =>
    obtain ⟨v, hv, h⟩ := exists_of_bind_ok h
    obtain ⟨rest, hrest, h⟩ := exists_of_bind_ok h
    cases h
    cases k with
    | zero =>
      cases hk
      exact reads_of_number hle hv
    | succ k =>
      have hread := ih hrest (k := k) hk
      rw [List.take_succ_cons, List.sum_cons, ← Nat.add_assoc]
      exact hread

theorem reads_of_record (hle : s.littleEndian = true) {sizes vs : List Nat}
    (h : s.record offset sizes = .ok vs) {k : Nat} (hk : sizes[k]? = some size) :
    s.Reads (offset + (sizes.take k).sum) size (vs.getD k 0) := by
  obtain ⟨t, ht, h⟩ := exists_of_bind_ok h
  have htle : t.littleEndian = true := by
    unfold tail at ht
    split at ht
    · cases ht
    · cases ht
      exact hle
  have hread := (reads_of_fields htle h hk).of_tail ht
  rwa [Nat.zero_add] at hread

/-- There are as many records as asked for, each behind the others before it. -/
theorem records_ok {sizes : List Nat} {count : Nat} {rs : List (List Nat)}
    (h : s.records sizes count offset = .ok rs) :
    rs.length = count ∧
      ∀ k r, rs[k]? = some r → s.record (offset + recordSize sizes * k) sizes = .ok r := by
  induction count generalizing offset rs with
  | zero =>
    cases h
    exact ⟨rfl, fun k r hr => by cases hr⟩
  | succ count ih =>
    obtain ⟨first, hfirst, h⟩ := exists_of_bind_ok h
    obtain ⟨rest, hrest, h⟩ := exists_of_bind_ok h
    cases h
    obtain ⟨hlength, hat⟩ := ih hrest
    refine ⟨congrArg Nat.succ hlength, fun k r hr => ?_⟩
    cases k with
    | zero =>
      cases hr
      exact hfirst
    | succ k =>
      rw [Nat.mul_succ, Nat.add_comm (recordSize sizes * k), ← Nat.add_assoc]
      exact hat k r hr

theorem half_eq {n : Nat} (h : s.Reads offset 2 n) : n = (Bytes.halfAt s.bytes offset).toNat :=
  h.value.trans (Bytes.toNat_halfAt s.bytes offset).symm

theorem word_eq {n : Nat} (h : s.Reads offset 4 n) : n = (Bytes.wordAt s.bytes offset).toNat :=
  h.value.trans (Bytes.toNat_wordAt s.bytes offset).symm

end Source

/-! ## The parser -/

variable {s : Source}

/-- A program header of eight words. -/
theorem segmentAt_of_record (hle : s.littleEndian = true) {place : Nat} {vs : List Nat}
    (h : s.record place FileClass.narrow.segmentHeader = .ok vs) :
    Segment.ofFields false vs = segmentAt s.bytes place := by
  have hword (k : Nat) (hk : k < 8) : vs.getD k 0 = (Bytes.wordAt s.bytes (place + 4 * k)).toNat := by
    have hsize : (List.replicate 8 4)[k]? = some 4 := by rw [List.getElem?_replicate, if_pos hk]
    have hplace : ((List.replicate 8 4).take k).sum = 4 * k := by
      rw [List.take_replicate, List.sum_replicate_nat, Nat.min_eq_left (Nat.le_of_lt hk), Nat.mul_comm]
    have hread := Source.word_eq (Source.reads_of_record hle h hsize)
    rwa [show (FileClass.narrow.segmentHeader.take k).sum = 4 * k from hplace] at hread
  unfold Segment.ofFields segmentAt
  dsimp only
  rw [if_neg Bool.false_ne_true, hword 0 (by decide), hword 1 (by decide), hword (1 + 1) (by decide),
    hword (1 + 2) (by decide), hword (1 + 3) (by decide), hword (1 + 4) (by decide)]
  simp only [UInt32.ofNat_toNat, UInt64.ofNat_uInt32ToNat]
  rfl

/-- The header says where its fields are. -/
theorem header_of_readHeader (hle : s.littleEndian = true) {h : Header}
    (hread : readHeader .narrow s = .ok h) :
    h.machine = (Bytes.halfAt s.bytes 18).toNat ∧ h.entry = (Bytes.wordAt s.bytes 24).toNat ∧
      h.segmentsAt = (Bytes.wordAt s.bytes 28).toNat ∧
      h.segmentCount = (Bytes.halfAt s.bytes 44).toNat := by
  obtain ⟨fields, hfields, hread⟩ := exists_of_bind_ok hread
  cases hread
  have hat {k size : Nat} (hk : (FileClass.header .narrow)[k]? = some size) :=
    Source.reads_of_fields hle hfields hk
  exact ⟨Source.half_eq (hat (k := 1) rfl), Source.word_eq (hat (k := 3) rfl),
    Source.word_eq (hat (k := 4) rfl), Source.half_eq (hat (k := 9) rfl)⟩

theorem segments_of_readSegments (hle : s.littleEndian = true) {h : Header} {segments : List Segment}
    (hat : h.segmentsAt = (Bytes.wordAt s.bytes 28).toNat)
    (hcount : h.segmentCount = (Bytes.halfAt s.bytes 44).toNat)
    (hread : readSegments .narrow s h = .ok segments) : segments = segmentsIn s.bytes := by
  unfold readSegments at hread
  split at hread
  · cases hread
  · obtain ⟨rs, hrs, hread⟩ := exists_of_bind_ok hread
    cases hread
    obtain ⟨hlength, hrecord⟩ := Source.records_ok hrs
    rw [hcount] at hlength
    refine List.ext_getElem (by simp [segmentsIn, hlength]) fun k hk _ => ?_
    rw [List.length_map] at hk
    have hseg := segmentAt_of_record hle (hrecord k _ (List.getElem?_eq_getElem hk))
    refine (List.getElem_map _).trans (hseg.trans ?_)
    rw [hat]
    simp [segmentsIn, Source.recordSize, FileClass.narrow]

theorem identify_ok {bytes : ByteArray} {c : FileClass} {s : Source}
    (h : identify bytes = .ok (c, s)) : s.bytes = bytes ∧ (c.wide = false → c = .narrow) := by
  unfold identify at h
  dsimp only at h
  split at h
  · cases h
  · cases hmark : FileClass.ofMark? ((bytes.data[4]?).getD 0).toNat with
    | none =>
      rw [hmark] at h
      cases h
    | some c' =>
      have hclass : c'.wide = false → c' = .narrow := by
        unfold FileClass.ofMark? at hmark
        split at hmark
        · exact fun _ => (Option.some.inj hmark).symm
        · split at hmark
          · cases hmark
            exact fun hwide => by cases hwide
          · cases hmark
      rw [hmark] at h
      dsimp only at h
      split at h
      · cases h
        exact ⟨rfl, hclass⟩
      · split at h
        · cases h
          exact ⟨rfl, hclass⟩
        · cases h

theorem headers_of_parse {bytes : ByteArray} {file : File} (h : parse bytes = .ok file)
    (hwide : file.wide = false) (hle : file.littleEndian = true) :
    file.machine = machineIn bytes ∧ file.entry = entryIn bytes ∧
      file.segments = segmentsIn bytes := by
  obtain ⟨⟨c, s⟩, hident, h⟩ := exists_of_bind_ok h
  obtain ⟨header, hheader, h⟩ := exists_of_bind_ok h
  obtain ⟨segments, hsegments, h⟩ := exists_of_bind_ok h
  obtain ⟨sections, -, h⟩ := exists_of_bind_ok h
  obtain ⟨_, -, h⟩ := exists_of_bind_ok h
  cases h
  obtain ⟨rfl, hnarrow⟩ := identify_ok hident
  obtain rfl := hnarrow hwide
  obtain ⟨hmachine, hentry, hat, hcount⟩ := header_of_readHeader hle hheader
  refine ⟨?_, ?_, segments_of_readSegments hle hat hcount hsegments⟩
  · show header.machine.toUInt16 = machineIn s.bytes
    rw [hmachine]
    rfl
  · show header.entry.toUInt64 = entryIn s.bytes
    rw [hentry]
    exact UInt64.ofNat_uInt32ToNat _

/-- The parser of this library reads headers where they are. -/
theorem parser_faithful : parser.Faithful := by
  have hparse {bytes : ByteArray} {file : File} (h : parser bytes = .ok file) :
      parse bytes = .ok file := by
    unfold parser at h
    split at h
    · rename_i hok
      cases h
      exact hok
    · cases h
  exact ⟨fun h hwide hle => (headers_of_parse (hparse h) hwide hle).1,
    fun h hwide hle => (headers_of_parse (hparse h) hwide hle).2.1,
    fun h hwide hle => (headers_of_parse (hparse h) hwide hle).2.2⟩

end Elf

end Dynarec
