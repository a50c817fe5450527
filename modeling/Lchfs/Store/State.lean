import Lchfs.Store.DeltaLog
import Lchfs.Store.Namespace
import Lchfs.Store.RecordStore

/-!
# The state of a pool

An operation that holds an inode's lock is an `Op` in `State.ops`, and the one
checkpoint that holds the checkpoint lock is `State.checkpoint`; the steps of every
other thread may come between two of its own. `Disk` is what a mount starts from.

`Ghost` records when contents were written. The clock never goes back, not even over
a crash, so a larger stamp is a newer content. No step of the program reads it.
-/

namespace Lchfs.Store

open Lchfs.Format Lchfs.Library

/-- The parameters of a pool. `cut` is the chunker: it cuts the bytes since the last
boundary into finished chunks and a pending rest. -/
structure PoolParams where
  logicalShardCount : Nat
  logicalShardCount_pos : 0 < logicalShardCount
  inlineThreshold : Nat
  chunkMinSize : Nat
  maxFileSize : Nat
  cut : Bytes → List Bytes × Bytes

def PoolParams.shardOf (params : PoolParams) (ino : Ino) : ShardId :=
  shardForInode ino params.logicalShardCount

theorem PoolParams.shardOf_lt (params : PoolParams) (ino : Ino) :
    params.shardOf ino < params.logicalShardCount :=
  shardForInode_lt ino params.logicalShardCount_pos

structure FileWorkingState where
  contents : Bytes
  chunks : List ChunkRef

/-- An append session. `cutOffset` is where the chunker stands, relative to the base. -/
structure IncrementalWriteState where
  baseOffset : Nat
  cutOffset : Nat
  nextExpectedOffset : Nat
  chunks : List ChunkRef
  pendingBytes : Bytes

structure SuperblockSlot where
  generation : Nat
  root : RootObject
  rootLocation : ExtentLocation

/-- What an operation commits chunks for: the append path, the whole-file path, an
fsync, or a checkpoint that captures the file. -/
inductive CommitGoal
  | incremental (added : Nat)
  | rechunk
  | fsync
  | capture
  deriving DecidableEq

/-- The progress of an operation that holds an inode's lock. The last three are the
later steps of an fsync; their `stamp` is a ghost. -/
inductive Op
  | committing (goal : CommitGoal) (todo : List (Nat × Bytes)) (missed : Bool)
      (refs : List ChunkRef)
  | dataSynced (sessionChunks : Option (List ChunkRef))
  | contentSet (sessionChunks : Option (List ChunkRef)) (object : InodeObject) (stamp : Nat)
  | logged (sessionChunks : Option (List ChunkRef)) (stamp : Nat)

/-- The steps of a checkpoint, each named after what it does next. -/
inductive Phase
  | barrier (shard : ShardId)
  | watermark (shard : ShardId)
  | drain
  | work
  | capture
  | inodes
  | root
  | metaBarrier
  | flushIndex (shard : ShardId)
  | index
  | publish
  | superblock
  deriving DecidableEq

/-- The fsync has set the inode's content, so the operation carries a stamp. -/
def Op.isPublished : Op → Bool
  | .committing .. => false
  | .dataSynced _ => false
  | .contentSet .. => true
  | .logged .. => true

/-- The phases in the order a checkpoint goes through them. -/
@[simp]
def Phase.rank : Phase → Nat
  | .barrier _ => 0
  | .watermark _ => 1
  | .drain => 2
  | .work => 3
  | .capture => 4
  | .inodes => 5
  | .root => 6
  | .metaBarrier => 7
  | .flushIndex _ => 8
  | .index => 9
  | .publish => 10
  | .superblock => 11

structure DirtyWork where
  ino : Ino
  kind : InodeKind
  dir : Option DirectoryObject

/-- A running checkpoint. `capturing` is the file whose lock it holds. -/
structure Checkpoint where
  phase : Phase
  watermarks : List Nat
  dirty : List Ino
  work : List DirtyWork
  capturing : Option Ino
  inoSnapshot : InoMap
  generation : Nat
  root : RootObject
  rootLocation : ExtentLocation

/-- What the devices hold when no pool is mounted. -/
structure Disk where
  segments : SegmentStore
  stripes : StripeStore
  index : Option RedbIndex
  delta : ShardId → DeltaSegments
  shardSuperblock : ShardId → Nat
  slot : Option SuperblockSlot

/-- When contents were written: in memory, as the inode object's content, in the
checkpoint's snapshot, in the published root, and at the last acknowledged fsync; and
the entries the current mount replayed. -/
structure Ghost where
  clock : Nat
  memStamp : Ino → Nat
  nsStamp : Ino → Nat
  snapStamp : Ino → Nat
  slotStamp : Ino → Nat
  ackStamp : Ino → Nat
  replayed : List DeltaCommit

/-- A pool: its record store, its delta logs on disk (`delta`, `shardSuperblock`) and in
memory (`deltaLogs`), the newest superblock slot, and the mounted state. -/
structure State where
  store : RecordStore
  delta : ShardId → DeltaSegments
  shardSuperblock : ShardId → Nat
  slot : Option SuperblockSlot
  deltaLogs : ShardId → ShardDeltaLog
  ns : Namespace
  fileState : Ino → Option FileWorkingState
  openFiles : Ino → Option IncrementalWriteState
  ops : Ino → Option Op
  checkpoint : Option Checkpoint
  publishedWatermarks : List Nat × List Nat
  ghost : Ghost
  mounted : Bool

end Lchfs.Store
