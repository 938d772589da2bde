/-
  Dynarec.Memory.Device

  Devices behind regions of the address map. A device answers loads and stores
  and may ask for things on the way: to restart the cycle counter, to leave
  guest code, to report something.
-/
import Dynarec.Bytes
import Dynarec.Notice

namespace Dynarec

/-- Width of one access. -/
inductive AccessSize where
  | byte | half | word
deriving DecidableEq, Inhabited

namespace AccessSize

def bytes : AccessSize → Nat
  | .byte => 1
  | .half => 2
  | .word => 4

/-- The part of a value that the access transfers. -/
def truncate : AccessSize → UInt32 → UInt32
  | .byte, v => v &&& 0xff
  | .half, v => v &&& 0xffff
  | .word, v => v

end AccessSize

/-- What a device or coprocessor asks of the engine while it is called. -/
inductive Request where
  /-- Restart the cycle counter. -/
  | resetCycle (cycles : UInt32)
  /-- Go back to the host after the current block. -/
  | exit (flags : ExitFlags)
  /-- Report something. -/
  | note (notice : Notice)

/-- One access as a device sees it. -/
structure BusAccess where
  /-- The instruction word that causes the access. -/
  word : UInt32
  /-- Physical address. -/
  addr : UInt32
  size : AccessSize
deriving DecidableEq, Inhabited

/-- Something that answers loads and stores. Both get the current cycle last. -/
class Device (δ : Type) where
  load : δ → BusAccess → UInt32 → UInt32 × δ × List Request
  store : δ → BusAccess → UInt32 → UInt32 → δ × List Request

/-- A device that stores what is written to it. -/
structure RegisterBank where
  name : String
  base : UInt32
  data : ByteArray

instance : Inhabited RegisterBank := ⟨{ name := "", base := 0, data := ByteArray.empty }⟩

namespace RegisterBank

/-- A bank of `length` zero bytes. -/
def empty (name : String) (base length : UInt32) : RegisterBank :=
  { name, base, data := Bytes.zeros length.toNat }

/-- Position of an access in the bank, if it fits. -/
def offset? (b : RegisterBank) (a : BusAccess) : Option Nat :=
  let offset := (a.addr - b.base).toNat
  if offset + a.size.bytes ≤ b.data.size then some offset else none

def loadMnemonic : AccessSize → String
  | .byte => "lb"
  | .half => "lh"
  | .word => "lw"

def storeMnemonic : AccessSize → String
  | .byte => "sb"
  | .half => "sh"
  | .word => "sw"

/-- Value read by an access; zero outside of the bank. -/
def load (b : RegisterBank) (a : BusAccess) : UInt32 × RegisterBank × List Request :=
  let seen := Request.note (.bankLoad b.name (loadMnemonic a.size) a.addr)
  match b.offset? a with
  | none => (0, b, [seen, .note (.outsideBank b.name "read" a.addr)])
  | some offset =>
    let value := match a.size with
      | .byte => (Bytes.byteAt b.data offset).toUInt32
      | .half => Bytes.halfAt b.data offset
      | .word => Bytes.wordAt b.data offset
    (value, b, [seen])

/-- The bank after a store; unchanged outside of it. -/
def store (b : RegisterBank) (a : BusAccess) (value : UInt32) : RegisterBank × List Request :=
  let seen := Request.note
    (.bankStore b.name (storeMnemonic a.size) a.addr (2 * a.size.bytes) (a.size.truncate value))
  match b.offset? a with
  | none => (b, [seen, .note (.outsideBank b.name "write" a.addr)])
  | some offset =>
    let data := match a.size with
      | .byte => Bytes.setByte b.data offset value.toUInt8
      | .half => Bytes.setHalf b.data offset value
      | .word => Bytes.setWord b.data offset value
    ({ b with data }, [seen])

instance : Device RegisterBank where
  load b a _ := b.load a
  store b a value _ := b.store a value

end RegisterBank

end Dynarec
