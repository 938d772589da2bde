/-
  Dynarec.Image

  Loading guest images into memory: ELF executables for the guest, or raw bytes
  that go to a given address.
-/
import Dynarec.Image.Elf.File
import Dynarec.Memory.Basic

namespace Dynarec

/-- Kind of an image. -/
inductive ImageFormat where
  | elf | raw
deriving DecidableEq, Inhabited

def ImageFormat.name : ImageFormat → String
  | .elf => "Elf"
  | .raw => "Raw"

/-- What an image put into memory. -/
structure LoadedImage where
  format : ImageFormat
  entry : UInt32
  /-- Address and length of what was loaded, in order. -/
  segments : List (UInt32 × UInt32)
deriving DecidableEq, Inhabited

/-- Bytes loaded in all. -/
def LoadedImage.totalBytes (image : LoadedImage) : Nat :=
  image.segments.foldl (fun total s => total + s.2.toNat) 0

namespace Image

variable {δ : Type}

/-- Memory being loaded, with the notices so far. -/
structure Loader (δ : Type) where
  memory : Memory δ
  log : Log

/-- Steps of loading. A failure keeps what was written before it. -/
abbrev LoadM (δ : Type) := EStateM HostError (Loader δ)

def note (n : Notice) : LoadM δ Unit := modify fun l => { l with log := l.log.note n }

/-- Write to memory; a fault ends the loading. -/
@[inline]
def write (f : Memory δ → Option Fault × Memory δ) : LoadM δ Unit := do
  match ← modifyGet fun l =>
    let (fault, memory) := f l.memory
    (fault, { l with memory }) with
  | some fault => throw (.ofFault fault)
  | none => pure ()

/-- The machine number of the guest. -/
def guestMachine : UInt16 := 8

/-- Load one segment: its bytes in the file, then zeros up to its size in memory. -/
def loadSegment (bytes : ByteArray) (s : Elf.Segment) : LoadM δ (UInt32 × UInt32) := do
  let start := s.offset.toNat
  let stop := start + s.fileSize.toNat
  if bytes.size < stop then throw (.image .segmentOutsideFile)
  if UInt32.size ≤ s.loadAddr.toNat then throw (.image (.addressOutOfRange s.loadAddr))
  let addr := s.loadAddr.toUInt32
  if start < stop then write (·.writeBytes addr (bytes.extract start stop))
  if s.fileSize < s.memorySize then
    write (·.fillBytes (addr + s.fileSize.toUInt32) (s.memorySize - s.fileSize).toNat 0)
  let length := (max s.memorySize s.fileSize).toUInt32
  note (.loadedSegment addr length)
  return (addr, length)

/-- Load the segments of an executable for the guest. -/
def loadElf (parse : Elf.Parser) (bytes : ByteArray) : LoadM δ LoadedImage := do
  match parse bytes with
  | .error defect => throw (.image (.malformed defect))
  | .ok file =>
    if file.wide || !file.littleEndian then throw (.image .wrongClass)
    if file.machine ≠ guestMachine then throw (.image (.wrongMachine file.machine))
    let loadables := file.segments.filter fun s => s.kind == Elf.Segment.loadable
    let segments ← loadables.mapM (loadSegment bytes)
    if segments.isEmpty then throw (.image .noSegment)
    let entry := file.entry.toUInt32
    note (.loadedContainer segments.length entry)
    return { format := .elf, entry, segments }

/-- Copy raw bytes to an address; they are entered at their start. -/
def loadRaw (bytes : ByteArray) (addr : UInt32) : LoadM δ LoadedImage := do
  if UInt32.size ≤ bytes.size then throw (.image (.rawTooLarge bytes.size))
  write (·.writeBytes addr bytes)
  note (.loadedRaw bytes.size addr)
  return { format := .raw, entry := addr, segments := [(addr, bytes.size.toUInt32)] }

/-- Load an image, an executable whose headers `parse` reads, or else raw bytes for `rawAddr`. -/
def load (parse : Elf.Parser) (bytes : ByteArray) (rawAddr : UInt32) : LoadM δ LoadedImage :=
  if Elf.isElf bytes then loadElf parse bytes else loadRaw bytes rawAddr

end Image

end Dynarec
