/-
  Dynarec.Host.Generator

  Code generators as the engine sees them, and the built-in one.
-/
import Dynarec.Host.Lowering

namespace Dynarec

/-- A program together with what the engine publishes of it. -/
structure Emitted where
  program : HostProgram
  /-- Instruction offsets other than zero where the program can be entered. -/
  targets : List Nat
  /-- Size in bytes, for accounting. -/
  codeSize : Nat
deriving Inhabited

/-- What a generator answers. -/
structure Compilation (γ : Type) where
  result : Except LoweringError Emitted
  generator : γ
  cache : RegisterCache
  notices : List Notice

/-- The answer of a generator that is part of another one. -/
def Compilation.map {γ ζ : Type} (c : Compilation γ) (f : γ → ζ) : Compilation ζ where
  result := c.result
  generator := f c.generator
  cache := c.cache
  notices := c.notices

/-- Something that generates code for blocks. -/
class Generator (γ : Type) where
  name : γ → String
  /-- Whether a compilation of the block at this address can be finished now. While it
  cannot, a background compiler is busy with it. -/
  ready : γ → UInt32 → Bool
  /-- Generate code; the register cache given is empty. -/
  compile : γ → BlockSource → RegisterCache → Compilation γ
  /-- Take back code that nothing calls any more. -/
  release : γ → HostProgram → γ

/-- The built-in generator, with counts of what it made. -/
structure HostGenerator where
  blocks : Nat := 0
  hostOps : Nat := 0
deriving DecidableEq, Inhabited

namespace HostGenerator

/-- Mean number of operations of a program; zero before the first. -/
def averageProgramLength (g : HostGenerator) : Float :=
  if g.blocks = 0 then 0 else Float.ofNat g.hostOps / Float.ofNat g.blocks

/-- Generate code for a block. -/
def compile (g : HostGenerator) (source : BlockSource) (cache : RegisterCache) :
    Compilation HostGenerator :=
  let made := HostProgram.generate source cache
  match made.result with
  | .error e => { result := .error e, generator := g, cache := made.cache, notices := made.notices }
  | .ok program =>
    { result := .ok { program, targets := program.targets, codeSize := program.codeSize }
      generator := { blocks := g.blocks + 1, hostOps := g.hostOps + program.size }
      cache := made.cache
      notices := made.notices }

instance : Generator HostGenerator where
  name _ := "threaded"
  ready _ _ := true
  compile := compile
  release g _ := g

end HostGenerator

end Dynarec
