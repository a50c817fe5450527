import Lchfs.Format.Objects
import Lchfs.Library.Table

/-!
# The state of the reclaim protocol

What writers, checkpoints and the coalescer share: the data segments of every online
device, the location cache, the persisted index, the dedup pins, the seal generations,
and the namespace as far as it names chunks. The meta stream is never swept and is left
out, so a root is the chunk lists of its inodes. The set of online devices does not
change, and no segment is erasure-coded.
-/

namespace Lchfs.Reclaim

open Lchfs.Format (Ino ShardId SegmentId)
open Lchfs.Library

structure Location where
  segmentId : SegmentId
  offset : Nat
  deriving DecidableEq

/-- One device's copy of a data segment. Records from `durable` on are lost in a crash. -/
structure Segment (Hash : Type) where
  records : List Hash
  isSealed : Bool
  durable : Nat

namespace Segment

variable {Hash : Type} (seg : Segment Hash)

def append (hash : Hash) : Segment Hash :=
  { seg with records := seg.records ++ [hash] }

def fsync : Segment Hash :=
  { seg with durable := seg.records.length }

def sealed : Segment Hash :=
  { seg.fsync with isSealed := true }

end Segment

/-- The chunk list of every inode of a root. -/
abbrev InoMap (Hash : Type) := List (Ino × List Hash)

def InoMap.hashes {Hash : Type} (inoMap : InoMap Hash) : List Hash :=
  inoMap.flatMap (·.2)

/-- Who holds a pin: a chunk on its way through `prepare_chunk`, the inode it was pinned
for, or the checkpoint that has captured that inode. -/
inductive PinOwner
  | prepare (ino : Ino)
  | file (ino : Ino)
  | captured (ino : Ino)
  deriving DecidableEq

/-- What an operation that holds an inode's lock commits chunks for. -/
inductive Goal
  | append
  | rewrite
  | fsync
  | capture
  deriving DecidableEq

/-- How far the next chunk of an operation is: not looked at, pinned, looked up without a
hit, or unpinned again and to be appended. -/
inductive Prepare
  | idle
  | pinned
  | missed
  | toAppend
  deriving DecidableEq

structure Op (Hash : Type) where
  goal : Goal
  todo : List Hash
  prepare : Prepare
  refs : List Hash

/-- The steps of a checkpoint, each named after what it does next. -/
inductive Phase
  | drain
  | work
  | capture
  | orphans
  | takeOrphans
  | snapshot
  | root
  | publish
  | publishGeneration
  | release
  | superblock
  deriving DecidableEq

structure Checkpoint (Hash : Type) where
  phase : Phase
  dirty : List Ino
  work : List Ino
  capturing : Option Ino
  orphaned : List Ino
  inoSnapshot : InoMap Hash
  generation : Nat

/-- The repack of one segment of one device. -/
structure Repack (Dev Hash : Type) where
  dev : Dev
  bitmap : List Location
  oldId : SegmentId
  kept : List Hash
  dead : List Hash

/-- The steps of a pass, each named after what it does next. `restore` undoes the cache
removals of a repack that backs off. -/
inductive Stage (Dev Hash : Type)
  | snapshots
  | marking (todo : List Hash)
  | markingPins (todo : List Hash)
  | idle
  | device (dev : Dev) (bitmap : List Location)
  | scan (r : Repack Dev Hash) (todo : List (Hash × Nat)) (dropped : List Hash)
  | recheck (r : Repack Dev Hash) (dropped : List Hash)
  | copy (r : Repack Dev Hash)
  | repointIndex (r : Repack Dev Hash) (newId : SegmentId)
  | repointCache (r : Repack Dev Hash) (newId : SegmentId)
  | removeCache (r : Repack Dev Hash) (todo : List Hash) (removed : List (Hash × Location × Dev))
  | loadGeneration (r : Repack Dev Hash) (removed : List (Hash × Location × Dev))
  | checkPins (r : Repack Dev Hash) (todo : List Hash) (removed : List (Hash × Location × Dev))
  | restore (r : Repack Dev Hash) (removed : List (Hash × Location × Dev))
  | forget (r : Repack Dev Hash)
  | delete (r : Repack Dev Hash)

/-- A mark-and-coalesce pass: the root and generation it started from and what it has
marked, by hash and, for the primary, by location. -/
structure Pass (Dev Hash : Type) where
  root : InoMap Hash
  generation : Nat
  live : List Hash
  bitmap : List Location
  stage : Stage Dev Hash

structure SuperblockSlot (Hash : Type) where
  generation : Nat
  root : InoMap Hash

/-- The primary device and the routing of inodes to shards. -/
structure Setup (Dev : Type) where
  primary : Dev
  shardOf : Ino → ShardId

/-- The shared state. `publishedRoot`, `slotHeld` and `mountGeneration` are ghosts: the
root of the published generation, who durably held what when the slot was written, and
the generation the mount recovered. -/
structure State (Dev Hash : Type) where
  segments : Dev → SegmentId → Option (Segment Hash)
  nextSegmentId : SegmentId
  writers : ShardId → Option SegmentId
  pendingIndex : ShardId → List (Hash × Location)
  cache : Hash → Option (Location × Dev)
  index : Hash → Dev → Option Location
  pins : List (PinOwner × Hash)
  sealGenerations : SegmentId → Option Nat
  publishedGeneration : Nat
  inodes : Table Ino (List Hash)
  nextIno : Ino
  dirtyInodes : List Ino
  generation : Nat
  root : InoMap Hash
  snapshotTable : List (InoMap Hash)
  sessions : Ino → Option (List Hash)
  fileState : Ino → Option (List Hash)
  ops : Ino → Option (Op Hash)
  checkpoint : Option (Checkpoint Hash)
  pass : Option (Pass Dev Hash)
  slot : Option (SuperblockSlot Hash)
  publishedRoot : InoMap Hash
  slotHeld : Dev → Hash → Bool
  mountGeneration : Nat

end Lchfs.Reclaim
