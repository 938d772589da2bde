/-
  Dynarec.Proofs.Image.Loading

  Loading an image writes what it reports and nothing else.

  A segment puts up to two parts into memory, its bytes in the file and the
  zeros behind them. Each part goes where the map says its first address is and
  lies there in one piece. What a byte of memory is afterwards is told by the
  last part that covers it; where no part does it is what it was.
-/
import Dynarec.Image
import Dynarec.Proofs.Image.Headers
import Dynarec.Proofs.Stateful

namespace Dynarec

namespace Bytes

theorem byteAt_copy (src : ByteArray) {n i : Nat} {b : ByteArray} (hfits : i + n ≤ b.size)
    (j k : Nat) : byteAt (copy src n j i b) k =
      if i ≤ k ∧ k < i + n then byteAt src (j + (k - i)) else byteAt b k := by
  induction n generalizing j i b with
  | zero => rw [if_neg (by omega)]; rfl
  | succ n ih =>
    rw [copy, ih (by rw [size_setByte]; omega), byteAt_setByte b (by omega)]
    by_cases hfirst : k = i
    · subst hfirst
      rw [if_neg (by omega), if_pos rfl, if_pos (by omega), Nat.sub_self, Nat.add_zero]
    · rw [if_neg hfirst]
      by_cases hin : i + 1 ≤ k ∧ k < i + 1 + n
      · rw [if_pos hin, if_pos (by omega), show j + 1 + (k - (i + 1)) = j + (k - i) by omega]
      · rw [if_neg hin, if_neg (by omega)]

/-- Nothing but zeros stand behind the end of no bytes at all. -/
theorem fill_zero (n j i : Nat) (b : ByteArray) : fill 0 n i b = copy .empty n j i b := by
  induction n generalizing j i b with
  | zero => rfl
  | succ n ih =>
    rw [fill, copy, ih (j + 1)]
    rfl

end Bytes

/-! ## Parts -/

/-- Bytes that go to memory one behind the other. -/
structure Image.Part where
  addr : UInt32
  size : Nat
  byte : Nat → UInt8

/-- What the part puts to place `k` of region `i`, if anything. -/
def Image.Part.byte? (layout : Layout) (i k : Nat) (p : Part) : Option UInt8 :=
  match layout.resolve p.addr with
  | .error _ => none
  | .ok r =>
    if i = r.index ∧ r.offset.toNat ≤ k ∧ k < r.offset.toNat + p.size then
      some (p.byte (k - r.offset.toNat))
    else none

namespace Memory

open Image (Part)

variable {δ : Type}

/-- The parts were put into memory in order, each of them whole, and nothing else was changed: a
byte is what the last part that covers it says. -/
structure Receives (parts : List Part) (m m' : Memory δ) : Prop where
  layout : m'.layout = m.layout
  fits : ∀ p ∈ parts, ∃ place, m.locate p.addr p.size = .ok place
  other : ∀ i, m.bytes? i = none → m'.contents[i]? = m.contents[i]?
  size : ∀ i, m'.size? i = m.size? i
  byte : ∀ {i : Nat} {data data' : ByteArray}, m.bytes? i = some data → m'.bytes? i = some data' →
    ∀ k, Bytes.byteAt data' k =
      (parts.reverse.findSome? (Part.byte? m.layout i k)).getD (Bytes.byteAt data k)

variable {m m' m'' : Memory δ} {ps qs : List Part}

theorem locate_congr (hlayout : m'.layout = m.layout) (hsize : ∀ i, m'.size? i = m.size? i)
    (addr : UInt32) (n : Nat) : m'.locate addr n = m.locate addr n := by
  unfold locate
  rw [hlayout]
  cases m.layout.resolve addr with
  | error f => rfl
  | ok r =>
    dsimp only
    rw [hsize]

namespace Receives

theorem refl (m : Memory δ) : Receives [] m m where
  layout := rfl
  fits _ h := by cases h
  other _ _ := rfl
  size _ := rfl
  byte h h' _ := by
    rw [h] at h'
    cases h'
    rfl

theorem trans (h1 : Receives ps m m') (h2 : Receives qs m' m'') : Receives (ps ++ qs) m m'' where
  layout := h2.layout.trans h1.layout
  fits p hp := by
    rcases List.mem_append.mp hp with hp | hp
    · exact h1.fits p hp
    · rw [← locate_congr h1.layout h1.size]
      exact h2.fits p hp
  other i hi := by
    have hi' : m'.bytes? i = none := by
      unfold bytes? at hi ⊢
      rwa [h1.other i hi]
    rw [h2.other i hi', h1.other i hi]
  size i := (h2.size i).trans (h1.size i)
  byte h h'' k := by
    -- the later parts are looked through first
    obtain ⟨data', h', -⟩ := exists_bytes?_of_size? (h2.size _) h''
    rw [h2.byte h' h'' k, h1.byte h h' k, h1.layout, List.reverse_append, List.findSome?_append,
      Option.getD_or]

end Receives

theorem contents_modifyBytes_of_none {i : Nat} (h : m.bytes? i = none) (index : Nat)
    (f : ByteArray → ByteArray) : (m.modifyBytes index f).contents[i]? = m.contents[i]? := by
  unfold bytes? at h
  unfold modifyBytes
  dsimp only
  rw [Array.getElem?_modify]
  split
  · cases hc : m.contents[i]? with
    | none => rfl
    | some content =>
      cases content with
      | bytes data =>
        rw [hc] at h
        cases h
      | device | none => rfl
  · rfl

/-- Copying puts a part into memory. -/
theorem receives_copy {p : Part} {index offset : Nat}
    (h : m.locate p.addr p.size = .ok (index, offset)) (src : ByteArray) (j : Nat)
    (hbyte : ∀ k, k < p.size → Bytes.byteAt src (j + k) = p.byte k) :
    Receives [p] m (m.modifyBytes index (Bytes.copy src p.size j offset)) := by
  obtain ⟨r, data, hr, hdata, rfl, rfl, hfits⟩ := locate_ok h
  have hsame := m.sameExcept_modifyBytes r.index (Bytes.local_copy src p.size j r.offset.toNat)
  refine ⟨rfl, ?_, fun i hi => contents_modifyBytes_of_none hi _ _, hsame.size, ?_⟩
  · intro q hq
    rw [List.mem_singleton.mp hq]
    exact ⟨_, h⟩
  · intro i data0 data1 h0 h1 k
    rw [bytes?_modifyBytes, h0] at h1
    have hlast : [p].reverse.findSome? (Part.byte? m.layout i k) = p.byte? m.layout i k := by
      rw [List.reverse_singleton, List.findSome?_singleton]
    rw [hlast, Part.byte?, hr]
    dsimp only
    -- in the region of the part the window was copied, the other regions are as they were
    split at h1
    · rename_i hi
      subst hi
      cases hdata.symm.trans h0
      cases h1
      rw [Bytes.byteAt_copy src hfits]
      split
      · rename_i hin
        rw [if_pos ⟨rfl, hin⟩, hbyte _ (by omega), Option.getD_some]
      · rename_i hout
        rw [if_neg fun hin => hout hin.2, Option.getD_none]
    · rename_i hi
      cases h1
      rw [if_neg fun hin => hi hin.1, Option.getD_none]

theorem receives_writeBytes {p : Part} {src : ByteArray} (hsize : src.size = p.size)
    (hbyte : ∀ k, k < p.size → Bytes.byteAt src k = p.byte k)
    (h : m.writeBytes p.addr src = (none, m')) : Receives [p] m m' := by
  unfold writeBytes at h
  cases hl : m.locate p.addr src.size with
  | error f =>
    rw [hl] at h
    cases h
  | ok place =>
    obtain ⟨index, offset⟩ := place
    rw [hl, hsize] at h
    cases h
    rw [hsize] at hl
    refine receives_copy hl src 0 fun k hk => ?_
    rw [Nat.zero_add]
    exact hbyte k hk

theorem writeBytes_fault {addr : UInt32} {src : ByteArray} {fault : Fault}
    (h : m.writeBytes addr src = (some fault, m')) : m' = m := by
  unfold writeBytes at h
  cases hl : m.locate addr src.size with
  | error f =>
    rw [hl] at h
    cases h
    rfl
  | ok place =>
    rw [hl] at h
    cases h

theorem receives_fillBytes {p : Part} (hbyte : ∀ k, p.byte k = 0)
    (h : m.fillBytes p.addr p.size 0 = (none, m')) : Receives [p] m m' := by
  unfold fillBytes at h
  cases hl : m.locate p.addr p.size with
  | error f =>
    rw [hl] at h
    cases h
  | ok place =>
    obtain ⟨index, offset⟩ := place
    rw [hl] at h
    cases h
    -- zeros are copied as well, from behind the end of nothing
    have hcopy : Bytes.fill 0 p.size offset = Bytes.copy .empty p.size 0 offset := by
      funext b
      exact Bytes.fill_zero p.size 0 offset b
    rw [hcopy]
    exact receives_copy hl .empty 0 fun k _ => (hbyte k).symm

end Memory

/-! ## Loading -/

namespace Image

variable {δ : Type} {l l' : Loader δ}

/-- The bytes of a segment that are in the file. -/
def filePart (bytes : ByteArray) (s : Elf.Segment) : Part where
  addr := s.loadAddr.toUInt32
  size := s.fileSize.toNat
  byte k := Bytes.byteAt bytes (s.offset.toNat + k)

/-- The zeros of a segment behind them. -/
def zeroPart (s : Elf.Segment) : Part where
  addr := s.loadAddr.toUInt32 + s.fileSize.toUInt32
  size := (s.memorySize - s.fileSize).toNat
  byte _ := 0

/-- What a segment of a file puts into memory. -/
def segmentParts (bytes : ByteArray) (s : Elf.Segment) : List Part :=
  (if 0 < s.fileSize.toNat then [filePart bytes s] else []) ++
  if s.fileSize < s.memorySize then [zeroPart s] else []

/-- What is reported of a segment. -/
def report (s : Elf.Segment) : UInt32 × UInt32 :=
  (s.loadAddr.toUInt32, (max s.memorySize s.fileSize).toUInt32)

/-- The segments that are loaded. -/
def loadables (segments : List Elf.Segment) : List Elf.Segment :=
  segments.filter fun s => s.kind == Elf.Segment.loadable

variable {f : Memory δ → Option Fault × Memory δ}

theorem write_ok {u : Unit} (h : write f l = .ok u l') : f l.memory = (none, l'.memory) := by
  obtain ⟨fault, l1, h1, h2⟩ := bind_ok h
  have hrun := modifyGet_ok h1
  cases fault with
  | some fault => cases h2
  | none =>
    cases h2
    rcases hf : f l.memory with ⟨fault, memory⟩
    rw [hf] at hrun
    cases hrun
    rfl

theorem write_error {e : HostError}
    (h : write f l = .error e l') : ∃ fault, f l.memory = (some fault, l'.memory) := by
  rcases bind_error h with h | ⟨fault, l1, h1, h2⟩
  · cases h
  · have hrun := modifyGet_ok h1
    cases fault with
    | none => cases h2
    | some fault =>
      cases h2
      rcases hf : f l.memory with ⟨fault', memory⟩
      rw [hf] at hrun
      cases hrun
      exact ⟨fault, rfl⟩

variable {bytes : ByteArray}

/-- A segment that is loaded puts its parts into memory; its address and size are reported. -/
theorem loadSegment_ok {s : Elf.Segment} {v : UInt32 × UInt32}
    (h : loadSegment bytes s l = .ok v l') :
    v = report s ∧ Memory.Receives (segmentParts bytes s) l.memory l'.memory := by
  unfold loadSegment at h
  obtain ⟨hinside, h⟩ := check_bind_ok h
  obtain ⟨-, h⟩ := check_bind_ok h
  obtain ⟨l1, hfile, h⟩ := when_bind_ok h
  obtain ⟨l2, hzeros, h⟩ := when_bind_ok h
  cases h
  have hbytes : Memory.Receives (if 0 < s.fileSize.toNat then [filePart bytes s] else [])
      l.memory l1.memory := by
    rcases hfile with ⟨hp, hwrite⟩ | ⟨hp, rfl⟩
    · rw [if_pos (by omega)]
      have hsize : (bytes.extract s.offset.toNat (s.offset.toNat + s.fileSize.toNat)).size =
          s.fileSize.toNat := ByteArray.size_extract.trans (by omega)
      refine Memory.receives_writeBytes hsize (fun k hk => ?_) (write_ok hwrite)
      exact Bytes.byteAt_extract bytes (Nat.add_lt_add_left hk s.offset.toNat) (Nat.not_lt.mp hinside)
    · rw [if_neg (by omega)]
      exact .refl _
  refine ⟨rfl, hbytes.trans ?_⟩
  rcases hzeros with ⟨hp, hwrite⟩ | ⟨hp, rfl⟩
  · rw [if_pos hp]
    exact Memory.receives_fillBytes (fun _ => rfl) (write_ok hwrite)
  · rw [if_neg hp]
    exact .refl _

theorem loadSegments_ok {segments : List Elf.Segment} {vs : List (UInt32 × UInt32)}
    (h : segments.mapM (loadSegment bytes) l = .ok vs l') :
    vs = segments.map report ∧
      Memory.Receives (segments.flatMap (segmentParts bytes)) l.memory l'.memory := by
  induction segments generalizing l vs with
  | nil =>
    cases h
    exact ⟨rfl, .refl _⟩
  | cons s segments ih =>
    -- what the first segment left is where the others start
    rw [List.mapM_cons] at h
    obtain ⟨v, l1, h1, h⟩ := bind_ok h
    obtain ⟨vs', l2, h2, h⟩ := bind_ok h
    cases h
    obtain ⟨hv, hfirst⟩ := loadSegment_ok h1
    obtain ⟨hvs, hrest⟩ := ih h2
    rw [hv, hvs]
    exact ⟨rfl, hfirst.trans hrest⟩

theorem loadElf_ok {parse : Elf.Parser} {image : LoadedImage}
    (h : loadElf parse bytes l = .ok image l') :
    ∃ file, parse bytes = .ok file ∧ file.wide = false ∧ file.littleEndian = true ∧
      file.machine = guestMachine ∧ image.entry = file.entry.toUInt32 ∧
      image.segments = (loadables file.segments).map report ∧
      Memory.Receives ((loadables file.segments).flatMap (segmentParts bytes)) l.memory l'.memory := by
  unfold loadElf at h
  cases hfile : parse bytes with
  | error defect =>
    rw [hfile] at h
    cases h
  | ok file =>
    rw [hfile] at h
    obtain ⟨hclass, h⟩ := check_bind_ok h
    obtain ⟨hmachine, h⟩ := check_bind_ok h
    obtain ⟨vs, l1, hload, h⟩ := bind_ok h
    obtain ⟨-, h⟩ := check_bind_ok h
    cases h
    obtain ⟨hvs, hreceives⟩ := loadSegments_ok hload
    obtain ⟨hwide, hle⟩ := Bool.or_eq_false_iff.mp (Bool.eq_false_iff.mpr hclass)
    exact ⟨file, rfl, hwide, by simpa using hle, Decidable.not_not.mp hmachine, rfl, hvs, hreceives⟩

theorem loadRaw_ok {addr : UInt32} {image : LoadedImage} (h : loadRaw bytes addr l = .ok image l') :
    bytes.size < UInt32.size ∧ image.segments = [(addr, bytes.size.toUInt32)] ∧
      Memory.Receives [{ addr, size := bytes.size, byte := Bytes.byteAt bytes }]
        l.memory l'.memory := by
  unfold loadRaw at h
  obtain ⟨hsize, h⟩ := check_bind_ok h
  obtain ⟨_, l1, hwrite, h⟩ := bind_ok h
  cases h
  exact ⟨Nat.not_le.mp hsize, rfl,
    Memory.receives_writeBytes rfl (fun _ _ => rfl) (write_ok hwrite)⟩

/-- Bytes that fit into memory are loaded. -/
theorem exists_loadRaw {addr : UInt32} {place : Nat × Nat} (hsize : bytes.size < UInt32.size)
    (hplace : l.memory.locate addr bytes.size = .ok place) :
    ∃ image l', loadRaw bytes addr l = .ok image l' := by
  cases h : loadRaw bytes addr l with
  | ok image l' => exact ⟨image, l', rfl⟩
  | error e l' =>
    unfold loadRaw at h
    rw [if_neg (Nat.not_le.mpr hsize)] at h
    rcases bind_error h with h | ⟨_, _, -, h⟩
    · obtain ⟨fault, hwrite⟩ := write_error h
      rw [Memory.writeBytes, hplace] at hwrite
      cases hwrite
    · cases h

theorem loadRaw_error {addr : UInt32} {e : HostError}
    (h : loadRaw bytes addr l = .error e l') : l'.memory = l.memory := by
  unfold loadRaw at h
  split at h
  · cases h
    rfl
  · rcases bind_error h with h | ⟨_, _, -, h⟩
    · obtain ⟨fault, hwrite⟩ := write_error h
      exact Memory.writeBytes_fault hwrite
    · cases h

theorem toNat_toUInt32 {n : UInt64} (h : n.toNat < UInt32.size) : n.toUInt32.toNat = n.toNat :=
  (UInt64.toNat_toUInt32 n).trans (Nat.mod_eq_of_lt h)

theorem toNat_max_lt {a b : UInt64} {n : Nat} (ha : a.toNat < n) (hb : b.toNat < n) :
    (max a b).toNat < n := by
  change (if a ≤ b then b else a).toNat < n
  split
  · exact hb
  · exact ha

/-- The words reported for a segment are the numbers in its program header. -/
theorem toNat_report (bytes : ByteArray) (place : Nat) : let s := Elf.segmentAt bytes place
    ((report s).1.toNat, (report s).2.toNat) =
      (s.loadAddr.toNat, (max s.memorySize s.fileSize).toNat) := by
  have hword (w : UInt32) : w.toUInt64.toNat < UInt32.size := by
    rw [UInt32.toNat_toUInt64]
    exact w.toNat_lt
  have haddr : (Elf.segmentAt bytes place).loadAddr.toNat < UInt32.size := by
    unfold Elf.Segment.loadAddr
    split <;> exact hword _
  have hsize : (max (Elf.segmentAt bytes place).memorySize
      (Elf.segmentAt bytes place).fileSize).toNat < UInt32.size :=
    toNat_max_lt (hword _) (hword _)
  exact Prod.ext (toNat_toUInt32 haddr) (toNat_toUInt32 hsize)

/-- With a faithful parser, an executable that is loaded is one for the guest. It puts the loadable
segments of its bytes into memory in the order of the file, and reports its entry and for each of
those segments the address and the larger of the two sizes. Raw bytes go to memory whole where they
fit, or else memory stays as it was. -/
theorem load_writes_what_it_reports {parse : Elf.Parser} (hparse : parse.Faithful)
    (bytes : ByteArray) (rawAddr : UInt32) (l : Loader δ) :
    (Elf.isElf bytes = true → ∀ image l', load parse bytes rawAddr l = .ok image l' →
      Elf.machineIn bytes = guestMachine ∧ image.entry = (Elf.entryIn bytes).toUInt32 ∧
        Memory.Receives ((loadables (Elf.segmentsIn bytes)).flatMap (segmentParts bytes))
          l.memory l'.memory ∧
        (image.segments.map fun s => (s.1.toNat, s.2.toNat)) =
          (loadables (Elf.segmentsIn bytes)).map fun s =>
            (s.loadAddr.toNat, (max s.memorySize s.fileSize).toNat)) ∧
    (Elf.isElf bytes = false →
      (∀ place, bytes.size < UInt32.size → l.memory.locate rawAddr bytes.size = .ok place →
        ∃ image l', load parse bytes rawAddr l = .ok image l') ∧
      (∀ image l', load parse bytes rawAddr l = .ok image l' →
        Memory.Receives [{ addr := rawAddr, size := bytes.size, byte := Bytes.byteAt bytes }]
          l.memory l'.memory ∧
        (image.segments.map fun s => (s.1.toNat, s.2.toNat)) = [(rawAddr.toNat, bytes.size)]) ∧
      ∀ e l', load parse bytes rawAddr l = .error e l' → l'.memory = l.memory) := by
  refine ⟨fun helf image l' h => ?_, fun hraw => ?_⟩
  · rw [load, if_pos helf] at h
    obtain ⟨file, hfile, hwide, hle, hmachine, hentry, hsegments, hreceives⟩ := loadElf_ok h
    rw [hparse.machine hfile hwide hle] at hmachine
    rw [hparse.entry hfile hwide hle] at hentry
    rw [hparse.segments hfile hwide hle] at hsegments hreceives
    refine ⟨hmachine, hentry, hreceives, ?_⟩
    rw [hsegments, List.map_map]
    refine List.map_congr_left fun s hs => ?_
    obtain ⟨k, -, hk⟩ := List.mem_map.mp (List.mem_filter.mp hs).1
    rw [← hk]
    exact toNat_report bytes _
  · have hload : load parse bytes rawAddr = loadRaw (δ := δ) bytes rawAddr :=
      if_neg (by rw [hraw]; exact Bool.false_ne_true)
    rw [hload]
    refine ⟨fun place hsize hplace => exists_loadRaw hsize hplace, fun image l' h => ?_,
      fun e l' h => loadRaw_error h⟩
    obtain ⟨hsize, hsegments, hreceives⟩ := loadRaw_ok h
    refine ⟨hreceives, ?_⟩
    rw [hsegments, List.map_singleton, UInt32.toNat_ofNat_of_lt' hsize]

/-- An executable with two segments. The first goes to its virtual address, 4, with 4 bytes from
the file and 6 zeros; the second goes to its physical address, 6, with 4 bytes from the file. -/
def overlapping : ByteArray :=
  let header : List UInt32 :=
    [0x464c457f, 0x00010101, 0, 0, 0x00080002, 1, 4, 52, 0, 0, 0x00200034, 2, 0]
  let first : List UInt32 := [1, 116, 4, 0, 4, 10, 0, 0]
  let second : List UInt32 := [1, 118, 0x100, 6, 4, 2, 0, 0]
  let contents : List UInt32 := [0x44332211, 0x6655]
  (header ++ first ++ second ++ contents).foldl (fun bytes w => bytes ++ Bytes.ofWord w) .empty

/-- A memory of 16 bytes, all of them ones. -/
def blank : Loader RegisterBank where
  memory :=
    { layout :=
        { regions := #[{ base := 0, length := 16, backing := .ram, code := true }]
          valid := by decide }
      contents := #[.bytes ((List.replicate 4 0xffffffff).foldl
        (fun bytes w => bytes ++ Bytes.ofWord w) .empty)] }
  log := {}

/-- Where the two segments overlap the second one wins, over bytes of the first and over its
zeros. -/
theorem load_writes_what_it_reports_overlapping :
    ∃ image l' data, load Elf.parser overlapping 0 blank = .ok image l' ∧
      image.segments = [(4, 10), (6, 4)] ∧ l'.memory.bytes? 0 = some data ∧
      (List.range 16).map (Bytes.byteAt data) =
        [0xff, 0xff, 0xff, 0xff, 0x11, 0x22, 0x33, 0x44, 0x55, 0x66, 0, 0, 0, 0, 0xff, 0xff] := by
  have hrun : EStateM.run' (load Elf.parser overlapping 0) blank =
      some { format := .elf, entry := 4, segments := [(4, 10), (6, 4)] } := by decide +kernel
  obtain ⟨l', h⟩ := exists_of_run' hrun
  obtain ⟨-, -, hreceives, -⟩ :=
    (load_writes_what_it_reports Elf.parser_faithful overlapping 0 blank).1 (by decide +kernel) _ _ h
  obtain ⟨data, hdata, -⟩ : ∃ data, l'.memory.bytes? 0 = some data ∧ data.size = 16 := by
    have hsize := hreceives.size 0
    rw [Memory.size?_eq_map] at hsize
    exact Option.map_eq_some_iff.mp (hsize.trans (by decide +kernel))
  refine ⟨_, l', data, h, rfl, hdata, ?_⟩
  rw [funext fun k => hreceives.byte rfl hdata k]
  decide +kernel

end Image

end Dynarec
