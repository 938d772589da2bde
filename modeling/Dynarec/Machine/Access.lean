/-
  Dynarec.Machine.Access

  Loads and stores of guest code: sized accesses to memory and devices, the
  merging accesses to unaligned words, the memory instructions built on them,
  and the clearing of memory on behalf of a guest loop.
-/
import Dynarec.Machine.Basic

namespace Dynarec

/-- The aligned address of the word around an address. -/
def aligned (addr : UInt32) : UInt32 := addr &&& 0xfffffffc

/-- Position of an address inside its word. -/
def lane (addr : UInt32) : UInt32 := addr &&& 3

namespace Memory

variable {δ : Type}

/-- Call the device of a region, if there is one. -/
@[inline]
def callDevice {α : Type} (m : Memory δ) (index : Nat) (f : δ → α × δ) : Option α × Memory δ :=
  match m.contents[index]? with
  | some (.device d) =>
    let parked := m.contents.setIfInBounds index .none
    let (a, d) := f d
    (some a, { m with contents := parked.setIfInBounds index (.device d) })
  | _ => (none, m)

/-- Value of a sized read of memory. -/
@[inline]
def readSized (data : ByteArray) (offset : Nat) : AccessSize → UInt32
  | .byte => (Bytes.byteAt data offset).toUInt32
  | .half => Bytes.halfAt data offset
  | .word => Bytes.wordAt data offset

/-- Memory after a sized write. -/
@[inline]
def writeSized (data : ByteArray) (offset : Nat) (value : UInt32) : AccessSize → ByteArray
  | .byte => Bytes.setByte data offset value.toUInt8
  | .half => Bytes.setHalf data offset value
  | .word => Bytes.setWord data offset value

end Memory

namespace Machine

variable {δ κ : Type} [Device δ]

/-- Load from a resolved address; `addr` is what a fault names. -/
@[inline]
def load (m : Machine δ κ) (r : Resolved) (word addr : UInt32) (size : AccessSize) :
    Except Fault UInt32 × Machine δ κ :=
  match r.kind with
  | .direct =>
    match m.memory.bytes? r.index with
    | none => (.error (.noMapping addr), m)
    | some data =>
      if r.offset.toNat + size.bytes ≤ data.size then
        (.ok (Memory.readSized data r.offset.toNat size), m)
      else (.error (.outOfBounds addr), m)
  | .device =>
    let now := m.clock.current
    let access : BusAccess := { word, addr := r.paddr, size }
    match m.memory.callDevice r.index fun d =>
      let (value, d, requests) := Device.load d access now
      ((value, requests), d) with
    | (none, memory) => (.error (.noMapping addr), { m with memory })
    | (some (value, requests), memory) =>
      (.ok (size.truncate value), { m with memory }.grantAll requests)

/-- Store to a resolved address; `addr` is what a fault names. Stores to ROM are ignored. -/
@[inline]
def store (m : Machine δ κ) (r : Resolved) (word addr : UInt32) (size : AccessSize)
    (value : UInt32) : Option Fault × Machine δ κ :=
  match r.kind with
  | .direct =>
    if m.memory.layout.isReadOnly r.index then (none, m.note (.readOnlyStore addr))
    else
      match m.memory.size? r.index with
      | none => (some (.noMapping addr), m)
      | some limit =>
        if r.offset.toNat + size.bytes ≤ limit then
          let memory := m.memory.modifyBytes r.index fun data =>
            Memory.writeSized data r.offset.toNat value size
          (none, { m with memory }.invalidateByGuest r.paddr size.bytes.toUInt32)
        else (some (.outOfBounds addr), m)
  | .device =>
    let now := m.clock.current
    let access : BusAccess := { word, addr := r.paddr, size }
    match m.memory.callDevice r.index fun d =>
      let (d, requests) := Device.store d access (size.truncate value) now
      (requests, d) with
    | (none, memory) => (some (.noMapping addr), { m with memory })
    | (some requests, memory) => (none, { m with memory }.grantAll requests)

/-- Load the aligned word around an address. -/
def loadAligned (m : Machine δ κ) (word addr : UInt32) :
    Except Fault (Resolved × UInt32) × Machine δ κ :=
  match m.memory.layout.resolve (aligned addr) with
  | .error f => (.error f, m)
  | .ok r =>
    match m.load r word (aligned addr) .word with
    | (.error f, m) => (.error f, m)
    | (.ok value, m) => (.ok (r, value), m)

/-- The sign of a loaded byte extended to a word. -/
def extendByte (v : UInt32) : UInt32 := v.toUInt8.toInt8.toInt32.toUInt32

/-- The sign of a loaded half word extended to a word. -/
def extendHalf (v : UInt32) : UInt32 := v.toUInt16.toInt16.toInt32.toUInt32

/-- A sized load whose value is extended to a word. -/
@[inline]
def extendedLoad (m : Machine δ κ) (r : Resolved) (word addr : UInt32) (size : AccessSize)
    (extend : UInt32 → UInt32) : Except Fault (UInt32 × RegionKind) × Machine δ κ :=
  match m.load r word addr size with
  | (.ok v, m) => (.ok (extend v, r.kind), m)
  | (.error f, m) => (.error f, m)

/-- A sized store. -/
@[inline]
def plainStore (m : Machine δ κ) (r : Resolved) (word addr : UInt32) (size : AccessSize)
    (value : UInt32) : Except Fault (UInt32 × RegionKind) × Machine δ κ :=
  match m.store r word addr size value with
  | (none, m) => (.ok (0, r.kind), m)
  | (some f, m) => (.error f, m)

/-- A load that merges the aligned word around the address into a register. -/
def mergedLoad (m : Machine δ κ) (kind : RegionKind) (word addr value : UInt32)
    (merge : UInt32 → UInt32 → UInt32 → UInt32) : Except Fault (UInt32 × RegionKind) × Machine δ κ :=
  match m.loadAligned word addr with
  | (.ok (_, mem), m) => (.ok (merge value mem (lane addr), kind), m)
  | (.error f, m) => (.error f, m)

/-- A store that merges a register into the aligned word around the address. -/
def mergedStore (m : Machine δ κ) (kind : RegionKind) (word addr value : UInt32)
    (merge : UInt32 → UInt32 → UInt32 → UInt32) : Except Fault (UInt32 × RegionKind) × Machine δ κ :=
  match m.loadAligned word addr with
  | (.error f, m) => (.error f, m)
  | (.ok (around, mem), m) =>
    match m.store around word (aligned addr) .word (merge value mem (lane addr)) with
    | (none, m) => (.ok (0, kind), m)
    | (some f, m) => (.error f, m)

/-- One access at its final address. For loads `value` is the present content of the
destination register, for stores the data. The result is the loaded value, zero for
stores, and the kind of memory behind the address. -/
@[inline]
def access (m : Machine δ κ) (kind : MemoryAccess) (word addr value : UInt32) :
    Except Fault (UInt32 × RegionKind) × Machine δ κ :=
  match m.memory.layout.resolve addr with
  | .error f => (.error f, m)
  | .ok r =>
    match kind with
    | .lb => m.extendedLoad r word addr .byte extendByte
    | .lbu => m.extendedLoad r word addr .byte id
    | .lh => m.extendedLoad r word addr .half extendHalf
    | .lhu => m.extendedLoad r word addr .half id
    | .lw | .lwc2 => m.extendedLoad r word addr .word id
    | .lwl => m.mergedLoad r.kind word addr value Unaligned.loadLeft
    | .lwr => m.mergedLoad r.kind word addr value Unaligned.loadRight
    | .sb => m.plainStore r word addr .byte value
    | .sh => m.plainStore r word addr .half value
    | .sw | .swc2 => m.plainStore r word addr .word value
    | .swl => m.mergedStore r.kind word addr value Unaligned.storeLeft
    | .swr => m.mergedStore r.kind word addr value Unaligned.storeRight

variable [Coprocessor κ]

/-- What a memory instruction did. -/
structure Transfer (δ κ : Type) where
  /-- Value for the destination register. -/
  value : UInt32
  /-- Kind of memory behind the address, when the access succeeded. -/
  kind : Option RegionKind
  machine : Machine δ κ

/-- Run a memory instruction with the given values of its base and data registers. A
fault records a reason to leave and yields zero. -/
def transfer (m : Machine δ κ) (i : Instruction) (base data : UInt32) : Transfer δ κ :=
  let addr := base + i.simm
  match i.memoryAccess? with
  | none =>
    { value := 0, kind := none
      machine := (m.note (.notMemoryInstruction i.word)).setExit { unknownOp := true } }
  | some kind =>
    let (value, m) := match kind with
      | .swc2 => m.copRead i i.rt false
      | _ => (data, m)
    match m.access kind i.word addr value with
    | (.ok (loaded, region), m) =>
      match kind with
      | .lwc2 => { value := 0, kind := some region, machine := m.copWrite i i.rt loaded false }
      | _ => { value := loaded, kind := some region, machine := m }
    | (.error fault, m) =>
      { value := 0, kind := none
        machine := (m.note (.segmentationFault kind.isStore fault)).setExit { segfault := true } }

omit [Device δ] [Coprocessor κ] in
/-- Clear `$a1` words at `$a0` at once and leave both registers as the guest loop
would. Declines, changing nothing, when the count is zero or the destination is not
writable memory. The result is the number of cycles to charge. -/
def memset (m : Machine δ κ) : Option UInt32 × Machine δ κ :=
  let addr := m.regs.get .a0
  let words := m.regs.get .a1
  let length := words.toNat * 4
  if words = 0 || 4294967296 ≤ length then (none, m)
  else
    match m.memory.layout.resolve addr with
    | .error _ => (none, m)
    | .ok r =>
      if r.kind = .device || m.memory.layout.isReadOnly r.index then (none, m)
      else
        match m.memory.size? r.index with
        | none => (none, m)
        | some limit =>
          if r.offset.toNat + length ≤ limit then
            let memory := m.memory.modifyBytes r.index (Bytes.fill 0 length r.offset.toNat)
            let m := { m with memory }.invalidateByGuest r.paddr length.toUInt32
            let m := m.note (.hostMemset length.toUInt32 addr)
            let m := (m.setReg .a0 (addr + length.toUInt32)).setReg .a1 0
            (some (8 + 5 * length.toUInt32), m)
          else (none, m)

end Machine

end Dynarec
