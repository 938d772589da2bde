/-
  Dynarec.Memory.PlayStation

  The address map of the PlayStation: 2 MiB of RAM seen four times, the BIOS
  ROM, the scratch pad, the expansion area, and banks for the hardware
  registers and the cache control word.
-/
import Dynarec.Memory.Basic

namespace Dynarec.PlayStation

def ramSize : UInt32 := 0x200000
def biosBase : UInt32 := 0x1fc00000
def biosSize : UInt32 := 0x80000
def scratchBase : UInt32 := 0x1f800000
def scratchSize : UInt32 := 0x400
def expansionBase : UInt32 := 0x1f000000
def expansionSize : UInt32 := 0x800000
def hardwareBase : UInt32 := 0x1f801000
def hardwareSize : UInt32 := 0x2000
def cacheControlBase : UInt32 := 0x5ffe0130
def cacheControlSize : UInt32 := 4

/-- Regions of the map, with the two devices given. -/
def regions {δ : Type} (bios : ByteArray) (hardware cacheControl : δ) : Array (RegionSpec δ) :=
  #[.ram 0 ramSize,
    .rom biosBase biosSize bios,
    .ram scratchBase scratchSize,
    (RegionSpec.ram expansionBase expansionSize).withoutCode,
    .ofDevice hardwareBase hardwareSize hardware,
    .ofDevice cacheControlBase cacheControlSize cacheControl,
    .aliasOf ramSize ramSize 0,
    .aliasOf (ramSize * 2) ramSize 0,
    .aliasOf (ramSize * 3) ramSize 0]

/-- The map with the two devices given; refuses a BIOS that does not fit. -/
def memory {δ : Type} (bios : ByteArray) (hardware cacheControl : δ) :
    Except HostError (Memory δ) :=
  if biosSize.toNat < bios.size then .error (.image (.romTooLarge bios.size biosSize.toNat))
  else
    match Memory.ofRegions (regions bios hardware cacheControl) with
    | .ok m => .ok m
    | .error e => .error (.layout e)

/-- Plain storage for the hardware registers. -/
def hardwareBank : RegisterBank := .empty "hw" hardwareBase hardwareSize

/-- Plain storage for the cache control word. -/
def cacheControlBank : RegisterBank := .empty "cache-ctl" cacheControlBase cacheControlSize

end Dynarec.PlayStation
