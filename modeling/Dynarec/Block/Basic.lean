/-
  Dynarec.Block.Basic

  Blocks: runs of guest instructions, the code generated for them, and the hash
  by which an unchanged block is recognised.
-/
import Dynarec.Block.Flags
import Dynarec.Host.Program
import Dynarec.Machine.Basic

namespace Dynarec

/-- Identity of a block. -/
abbrev BlockId := Nat

/-- Code published for a block. -/
structure CompiledCode where
  id : CodeId
  program : HostProgram
  /-- Size in bytes, for accounting. -/
  size : Nat
  /-- Slots of the entry table that lead into the code. -/
  slots : Array Nat
  /-- The block it belongs to, unless it never got published. -/
  block : Option BlockId
deriving DecidableEq, Inhabited

/-- One line about a piece of code. -/
def CompiledCode.describe (c : CompiledCode) : String :=
  "CompiledCode \x7b id: " ++ toString c.id.toNat ++ ", size: " ++ toString c.size ++ ", slots: " ++
    toString c.slots.size ++ " \x7d"

/-- Mix one word into a running hash. -/
def mixWord (hash word : UInt32) : UInt32 :=
  let h := hash + word
  let h := h + (h <<< (10 : UInt32))
  h ^^^ (h >>> (6 : UInt32))

/-- Last step of the hash. -/
def finishHash (hash : UInt32) : UInt32 :=
  let h := hash + (hash <<< (3 : UInt32))
  let h := h ^^^ (h >>> (11 : UInt32))
  h + (h <<< (15 : UInt32))

/-- One-at-a-time hash of instruction words. -/
def hashWords (words : List UInt32) : UInt32 := finishHash (words.foldl mixWord 0xffffffff)

/-- Whether every load and store carries an access tag. -/
def isFullyTagged (ops : Array Op) : Bool :=
  ops.all fun o => !o.instr.isMemory || o.isTagged

/-- A run of guest instructions. -/
structure Block where
  pc : UInt32
  /-- Number of instructions, in 16 bits. -/
  opCount : Nat
  /-- The words it was created from. -/
  words : List UInt32
  flags : BlockFlags
  /-- The instructions, until they are freed. -/
  ops : Option (Array Op)
  code : Option CompiledCode := none
deriving DecidableEq, Inhabited

namespace Block

/-- A new block without code. -/
def ofOps (pc : UInt32) (ops : Array Op) (flags : BlockFlags) : Block where
  pc
  opCount := ops.size % 65536
  words := ops.toList.map (·.instr.word)
  flags
  ops := some ops

/-- Physical start address. -/
def start (b : Block) : UInt32 := physical b.pc

/-- Hash of its words. -/
def hash (b : Block) : UInt32 := hashWords b.words

/-- Address after the last instruction. -/
def endPc (b : Block) : UInt32 := b.pc + b.opCount.toUInt32 * 4

/-- One line about a block. -/
def describe (b : Block) : String :=
  "Block \x7b pc: " ++ Text.hexWord b.pc ++ ", nb_ops: " ++ toString b.opCount ++ ", flags: " ++
    b.flags.describe ++ " \x7d"

def setFlags (b : Block) (flags : BlockFlags) : Block := { b with flags := b.flags.union flags }

def clearFlags (b : Block) (flags : BlockFlags) : Block := { b with flags := b.flags.without flags }

/-- Drop the instructions; says whether they were there. -/
def freeOps (b : Block) : Bool × Block := (b.ops.isSome, { b with ops := none })

/-- Add flags to the instruction at `index` unless its access is tagged; says whether it was
not. -/
def tagOp (b : Block) (index : Nat) (tag : OpFlags) : Bool × Block :=
  match b.ops with
  | none => (false, b)
  | some ops =>
    match ops[index]? with
    | none => (false, b)
    | some o =>
      if o.isTagged then (false, b)
      else (true, { b with
        ops := some (ops.setIfInBounds index { o with flags := o.flags.union tag }) })

/-- Ask for new code after an access got its first tag: the entry of the block is
sent back to the dispatcher. Blocks without code are left alone. -/
def flagRecompile (b : Block) (t : EntryTable) : Block × EntryTable × List Notice :=
  match b.code with
  | none => (b, t, [])
  | some code =>
    let t := match t.index? b.pc with
      | some slot => (t.compareExchange slot (.code code.id 0) .pending).2
      | none => t
    (b.setFlags { shouldRecompile := true }, t, [.newAccessTags b.pc])

/-- Install new code; the previous code comes back. -/
def replaceCode (b : Block) (code : CompiledCode) : Option CompiledCode × Block :=
  (b.code, { b with code := some code })

/-- Remove the code. -/
def takeCode (b : Block) : Option CompiledCode × Block := (b.code, { b with code := none })

end Block

namespace Machine

variable {δ κ : Type}

/-- Ask for new code for a block whose entry lies in this machine's table. -/
def flagRecompile (m : Machine δ κ) (b : Block) : Block × Machine δ κ :=
  let (b, entries, notices) := b.flagRecompile m.entries
  (b, { m with entries, log := m.log.noteAll notices })

end Machine

end Dynarec
