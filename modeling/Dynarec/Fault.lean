/-
  Dynarec.Fault

  Causes of failure and their wording.
-/
import Dynarec.Text.Hex

namespace Dynarec

/-- A memory access that cannot be carried out. -/
inductive Fault where
  /-- No region, or no directly backed region, holds the address. -/
  | noMapping (addr : UInt32)
  /-- The access reaches beyond the end of its region. -/
  | outOfBounds (addr : UInt32)
deriving DecidableEq, Inhabited

namespace Fault

def addr : Fault → UInt32
  | .noMapping a | .outOfBounds a => a

def message : Fault → String
  | .noMapping a => "No memory mapping for address: " ++ Text.hexWord a
  | .outOfBounds a => "Access outside of region bounds: " ++ Text.hexWord a

end Fault

/-- Why code for a block could not be generated. -/
inductive CodegenError where
  | outOfMemory
  | failure (reason : String)
deriving DecidableEq, Inhabited

namespace CodegenError

/-- A block without instructions has no code. -/
def emptyBlock (pc : UInt32) : CodegenError :=
  .failure ("empty block at " ++ Text.hexWord pc)

/-- A branch whose word gives no target. -/
def branchWithoutTarget (pc : UInt32) : CodegenError :=
  .failure ("branch without target at " ++ Text.hexWord pc)

def message : CodegenError → String
  | .outOfMemory => "Out of code memory"
  | .failure reason => "Code generation failure: " ++ reason

end CodegenError

/-- Why a list of regions is no address map. -/
inductive LayoutError where
  | emptyRegion (index : Nat) (base : UInt32)
  | wrapsAround (index : Nat) (base : UInt32)
  | missingTarget (index target : Nat)
  | cyclicAlias (index : Nat)
deriving DecidableEq, Inhabited

/-- The message of a refused list of regions. -/
def LayoutError.message : LayoutError → String
  | .emptyRegion i base => "region " ++ toString i ++ " at " ++ Text.hexWord base ++ " is empty"
  | .wrapsAround i base =>
    "region " ++ toString i ++ " at " ++ Text.hexWord base ++ " wraps the address space"
  | .missingTarget i target =>
    "region " ++ toString i ++ " mirrors missing region " ++ toString target
  | .cyclicAlias i => "region " ++ toString i ++ " has a cyclic mirror chain"

/-- Why an image was refused. -/
inductive ImageError where
  /-- The container cannot be read. -/
  | malformed (defect : String)
  | wrongClass
  | wrongMachine (machine : UInt16)
  | segmentOutsideFile
  | addressOutOfRange (addr : UInt64)
  | noSegment
  | rawTooLarge (size : Nat)
  | romTooLarge (size limit : Nat)
deriving DecidableEq, Inhabited

/-- The message of a refused image. -/
def ImageError.message : ImageError → String
  | .malformed defect => "bad ELF: " ++ defect
  | .wrongClass => "expected a 32-bit little-endian ELF"
  | .wrongMachine machine => "not a MIPS executable (machine " ++ toString machine.toNat ++ ")"
  | .segmentOutsideFile => "segment outside of file"
  | .addressOutOfRange addr => "segment address " ++ Text.hex 1 addr.toNat ++ " out of range"
  | .noSegment => "ELF has no loadable segment"
  | .rawTooLarge size => "raw image of " ++ toString size ++ " bytes"
  | .romTooLarge size limit =>
    "BIOS image is " ++ toString size ++ " bytes, expected at most " ++ toString limit

/-- Failure of an operation requested by the host. -/
inductive HostError where
  | outOfMemory
  | noMapping (addr : UInt32)
  | codegen (reason : String)
  | layout (error : LayoutError)
  | image (error : ImageError)
deriving DecidableEq, Inhabited

namespace HostError

def message : HostError → String
  | .outOfMemory => "Out of memory"
  | .noMapping addr => "No memory mapping for address: " ++ Text.hexWord addr
  | .codegen reason => "Code generation failed: " ++ reason
  | .layout error => "Invalid memory map: " ++ error.message
  | .image error => "Invalid image: " ++ error.message

/-- A fault seen from the host: only the address is kept. -/
def ofFault (f : Fault) : HostError := .noMapping f.addr

/-- A failed code generation seen from the host. -/
def ofCodegen : CodegenError → HostError
  | .outOfMemory => .outOfMemory
  | .failure reason => .codegen reason

end HostError

/-- Broken promises inside the engine. They end the operation. -/
inductive Abort where
  /-- Every host register is locked when one more is needed. -/
  | registersExhausted
  /-- A block leaves the cache that is not in it. -/
  | unregisteringUncached (pc : UInt32)
  /-- Code was generated for a block without an entry. -/
  | compiledUncached (pc : UInt32)
  /-- A loop did not end within the steps it was given. -/
  | outOfFuel
deriving DecidableEq, Inhabited

/-- The message of a broken promise. -/
def Abort.message : Abort → String
  | .registersExhausted => "register cache exhausted: all 8 host registers locked"
  | .unregisteringUncached pc => "unregistering uncached block " ++ Text.hexWord pc
  | .compiledUncached pc => "compiled uncached block " ++ Text.hexWord pc
  | .outOfFuel => "step limit reached"

end Dynarec
