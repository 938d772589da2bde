/-
  Dynarec.Bytes

  Little-endian words in byte arrays.
-/

namespace Dynarec.Bytes

/-- Byte `i`, zero beyond the end. -/
def byteAt (b : ByteArray) (i : Nat) : UInt8 :=
  if h : i < b.size then b[i] else 0

/-- Change byte `i`; nothing beyond the end. -/
def setByte (b : ByteArray) (i : Nat) (v : UInt8) : ByteArray :=
  if h : i < b.size then b.set i v h else b

/-- The two bytes from `i` on. -/
def halfAt (b : ByteArray) (i : Nat) : UInt32 :=
  (byteAt b i).toUInt32 ||| ((byteAt b (i + 1)).toUInt32 <<< 8)

/-- The four bytes from `i` on. -/
def wordAt (b : ByteArray) (i : Nat) : UInt32 :=
  (byteAt b i).toUInt32 ||| ((byteAt b (i + 1)).toUInt32 <<< 8) |||
  ((byteAt b (i + 2)).toUInt32 <<< 16) ||| ((byteAt b (i + 3)).toUInt32 <<< 24)

/-- Change the two bytes from `i` on. -/
def setHalf (b : ByteArray) (i : Nat) (v : UInt32) : ByteArray :=
  setByte (setByte b i v.toUInt8) (i + 1) (v >>> 8).toUInt8

/-- Change the four bytes from `i` on. -/
def setWord (b : ByteArray) (i : Nat) (v : UInt32) : ByteArray :=
  setByte (setByte (setByte (setByte b i v.toUInt8) (i + 1) (v >>> 8).toUInt8)
    (i + 2) (v >>> 16).toUInt8) (i + 3) (v >>> 24).toUInt8

/-- The four bytes of a word. -/
def ofWord (v : UInt32) : ByteArray :=
  ⟨#[v.toUInt8, (v >>> 8).toUInt8, (v >>> 16).toUInt8, (v >>> 24).toUInt8]⟩

/-- Change `n` bytes from `i` on to `v`. -/
def fill (v : UInt8) : Nat → Nat → ByteArray → ByteArray
  | 0, _, b => b
  | n + 1, i, b => fill v n (i + 1) (setByte b i v)

/-- Change `n` bytes from `i` on to those of `src` from `j` on. -/
def copy (src : ByteArray) : Nat → Nat → Nat → ByteArray → ByteArray
  | 0, _, _, b => b
  | n + 1, j, i, b => copy src n (j + 1) (i + 1) (setByte b i (byteAt src j))

/-- `n` bytes equal to zero. -/
def zeros (n : Nat) : ByteArray :=
  if _h : n = 0 then ByteArray.empty
  else
    let half := zeros (n / 2)
    if n % 2 = 0 then half ++ half else (half ++ half).push 0
termination_by n
decreasing_by omega

theorem size_setByte (b : ByteArray) (i : Nat) (v : UInt8) : (setByte b i v).size = b.size := by
  unfold setByte
  split
  · cases b
    simp [ByteArray.set, ByteArray.size]
  · rfl

theorem size_fill (v : UInt8) (n i : Nat) (b : ByteArray) : (fill v n i b).size = b.size := by
  induction n generalizing i b with
  | zero => rfl
  | succ n ih => rw [fill, ih, size_setByte]

theorem size_copy (src : ByteArray) (n j i : Nat) (b : ByteArray) :
    (copy src n j i b).size = b.size := by
  induction n generalizing j i b with
  | zero => rfl
  | succ n ih => rw [copy, ih, size_setByte]

end Dynarec.Bytes
