/-
  Dynarec.BlockCache

  Finding the block that starts at an address: a small table of the latest
  blocks in front of a larger table of buckets. Both go by the physical
  address, so code reached through different segments is found as one block.
-/
import Dynarec.Block.Basic

namespace Dynarec

/-- A cached block: where it starts and which it is. -/
structure CacheLine where
  /-- Physical start address. -/
  start : UInt32
  block : BlockId
deriving DecidableEq, Inhabited

/-- The two tables. -/
structure BlockCache where
  /-- Latest block per hot index. -/
  hot : Array (Option CacheLine)
  /-- Blocks per bucket, latest first. -/
  buckets : Array (List CacheLine)
  count : Nat

namespace BlockCache

def hotSize : Nat := 256
def bucketCount : Nat := 16384

def empty : BlockCache where
  hot := Array.replicate hotSize none
  buckets := Array.replicate bucketCount []
  count := 0

instance : Inhabited BlockCache := ⟨empty⟩

def hotIndex (start : UInt32) : Nat := start.toNat / 4 % hotSize

def bucketIndex (start : UInt32) : Nat := start.toNat / 4 % bucketCount

/-- The latest block in the bucket of a start address. -/
def findInBucket? (c : BlockCache) (start : UInt32) : Option BlockId :=
  match (c.buckets.getD (bucketIndex start) []).find? fun line => line.start == start with
  | some line => some line.block
  | none => none

/-- The block that starts at an address, if it is cached. -/
def find? (c : BlockCache) (pc : UInt32) : Option BlockId :=
  let start := physical pc
  match c.hot.getD (hotIndex start) none with
  | some line => if line.start = start then some line.block else c.findInBucket? start
  | none => c.findInBucket? start

/-- Add a block. -/
def insert (c : BlockCache) (line : CacheLine) : BlockCache where
  hot := c.hot.setIfInBounds (hotIndex line.start) (some line)
  buckets := c.buckets.modify (bucketIndex line.start) (line :: ·)
  count := c.count + 1

/-- Whether a block is in the bucket of its start address. -/
def contains (c : BlockCache) (line : CacheLine) : Bool :=
  (c.buckets.getD (bucketIndex line.start) []).any fun l => l.block == line.block

/-- Remove a block that is cached, once if it was added more than once. -/
def erase (c : BlockCache) (line : CacheLine) : BlockCache where
  hot := c.hot.modify (hotIndex line.start) fun
    | some l => if l.block = line.block then none else some l
    | none => none
  buckets := c.buckets.modify (bucketIndex line.start) fun b => b.eraseP fun l => l.block == line.block
  count := c.count - 1

/-- Cached blocks, bucket by bucket. -/
def toList (c : BlockCache) : List BlockId :=
  c.buckets.toList.flatMap fun bucket => bucket.map (·.block)

/-- Take all blocks out of the cache. -/
def drain (c : BlockCache) : List BlockId × BlockCache := (c.toList, empty)

def isEmpty (c : BlockCache) : Bool := c.count == 0

/-! ## Together with the table of entries -/

/-- Add a block and let its entry lead to the dispatcher. -/
def register (c : BlockCache) (t : EntryTable) (id : BlockId) (b : Block) : BlockCache × EntryTable :=
  let t := match t.index? b.start with
    | some slot => (t.noteSpan slot b.opCount true).store slot .pending
    | none => t
  (c.insert { start := b.start, block := id }, t)

/-- Whether a block is cached. -/
def isRegistered (c : BlockCache) (id : BlockId) (b : Block) : Bool :=
  c.contains { start := b.start, block := id }

/-- Remove a cached block, clear its entry and those of its code. -/
def unregister (c : BlockCache) (t : EntryTable) (id : BlockId) (b : Block) :
    BlockCache × EntryTable :=
  let t := match t.index? b.start with
    | some slot => t.store slot .null
    | none => t
  let t := match b.code with
    | some code => t.retire code.id code.slots
    | none => t
  (c.erase { start := b.start, block := id }, t)

/-- Whether invalidation cleared the entry of a cached block. -/
def isOutdated (t : EntryTable) (b : Block) : Bool :=
  match t.index? b.start with
  | some slot => (t.load slot).isNull
  | none => false

end BlockCache

end Dynarec
