import Lchfs.Library.Machine
import Lchfs.Store.Checkpoint
import Lchfs.Store.Mount

/-!
# The pool as a machine

One action per step of a thread: namespace calls, the steps of writes and fsyncs, the
background steps of the committers, of delta truncation and of the stripe conversion,
the steps of the checkpoint, the crash and the mount. A run interleaves them freely;
the locks of the source are the guards of the steps.

The coalescer's sweep is not an action of this machine; it is modelled with the
reclaim engine. Device faults and media corruption are not modelled.
-/

namespace Lchfs.Store

open Lchfs.Format Lchfs.Library

inductive Action
  | createEntry (parent : Ino) (name : String) (kind : InodeKind) (symlinkTarget : String)
  | unlink (parent : Ino) (name : String)
  | rmdir (parent : Ino) (name : String)
  | link (ino newParent : Ino) (newName : String)
  | rename (parent : Ino) (name : String) (newParent : Ino) (newName : String) (noReplace : Bool)
  | beginWrite (ino : Ino) (offset : Nat) (buf : Bytes)
  | beginSetSize (ino : Ino) (newSize : Nat)
  | prepareChunk (ino : Ino)
  | commitChunk (ino : Ino)
  | finishWrite (ino : Ino)
  | beginFsync (ino : Ino)
  | fsyncBarrier (ino : Ino)
  | fsyncPublish (ino : Ino)
  | deltaCommit (ino : Ino)
  | writeShardSuperblock (shard : ShardId)
  | finishFsync (ino : Ino)
  | closeSegment (shard : ShardId)
  | flushIndex (shard : ShardId)
  | closeMetaWriter
  | rollOver (shard : ShardId)
  | truncateDeltaLogs
  | restripe (id : SegmentId)
  | removeMirror (id : SegmentId)
  | beginCheckpoint
  | checkpointStep
  | beginCapture (ino : Ino)
  | finishCapture (ino : Ino)
  | crash
  | openPool

namespace State

variable (params : PoolParams) (s : State)

/-- A namespace call; one that fails is not a step. -/
def namespaceCall (result : Except PoolError Namespace) : Option State :=
  match result with
  | .ok ns => some { s with ns := ns }
  | .error _ => none

/-- Creates a file, directory or symlink. Its first content is as new as the call. -/
def createEntry (parent : Ino) (name : String) (kind : InodeKind) (symlinkTarget : String) :
    Option State :=
  match s.ns.createEntry parent name kind symlinkTarget with
  | .ok (ino, ns) =>
    some { s with
      ns := ns
      ghost.clock := s.ghost.clock + 1
      ghost.memStamp := Function.update s.ghost.memStamp ino (s.ghost.clock + 1)
      ghost.nsStamp := Function.update s.ghost.nsStamp ino (s.ghost.clock + 1) }
  | .error _ => none

/-- Deletes the delta segments that the older of the last two published roots covers. -/
def truncateDeltaLogs : State :=
  { s with delta := fun shard ↦
      match s.publishedWatermarks.1[shard]? with
      | some watermark => (s.delta shard).truncateThrough (s.deltaLogs shard).writer watermark
      | none => s.delta shard }

/-- The steps of a mounted pool. -/
def mountedStep : Action → Option State
  | .createEntry parent name kind target => s.createEntry parent name kind target
  | .unlink parent name => s.namespaceCall (s.ns.unlink parent name)
  | .rmdir parent name => s.namespaceCall (s.ns.rmdir parent name)
  | .link ino newParent newName => s.namespaceCall (s.ns.link ino newParent newName)
  | .rename parent name newParent newName noReplace =>
    s.namespaceCall (s.ns.rename parent name newParent newName noReplace)
  | .beginWrite ino offset buf => s.beginWrite params ino offset buf
  | .beginSetSize ino newSize => s.beginSetSize params ino newSize
  | .prepareChunk ino => s.prepareChunk ino
  | .commitChunk ino => s.commitChunk params ino
  | .finishWrite ino => s.finishWrite ino
  | .beginFsync ino => s.beginFsync ino
  | .fsyncBarrier ino => s.fsyncBarrier params ino
  | .fsyncPublish ino => s.fsyncPublish params ino
  | .deltaCommit ino => s.deltaCommit params ino
  | .writeShardSuperblock shard => s.writeShardSuperblock shard
  | .finishFsync ino => s.finishFsync params ino
  | .closeSegment shard => some (s.setStore (s.store.closeSegment shard))
  | .flushIndex shard => some (s.setStore (s.store.flushIndex shard))
  | .closeMetaWriter => some (s.setStore s.store.closeMetaWriter)
  | .rollOver shard => s.rollOver shard
  | .truncateDeltaLogs => some s.truncateDeltaLogs
  | .restripe id => (s.store.restripe id).map s.setStore
  | .removeMirror id => (s.store.removeMirror id).map s.setStore
  | .beginCheckpoint => s.beginCheckpoint
  | .checkpointStep => s.checkpointStep params
  | .beginCapture ino => s.beginCapture ino
  | .finishCapture ino => s.finishCapture params ino
  | .crash => some s.crash
  | .openPool => none

def step : Action → Option State
  | .openPool => s.openPool params
  | a => if s.mounted then s.mountedStep params a else none

/-- A pool that has just been created on blank devices, before its first checkpoint. -/
def create : State where
  store := .create
  delta := fun _ ↦ []
  shardSuperblock := fun _ ↦ 0
  slot := none
  deltaLogs := fun _ ↦ .openOn 0
  ns := .create
  fileState := fun _ ↦ none
  openFiles := fun _ ↦ none
  ops := fun _ ↦ none
  checkpoint := none
  publishedWatermarks := ([], [])
  ghost :=
    { clock := 0, memStamp := fun _ ↦ 0, nsStamp := fun _ ↦ 0, snapStamp := fun _ ↦ 0
      slotStamp := fun _ ↦ 0, ackStamp := fun _ ↦ 0, replayed := [] }
  mounted := true

end State

/-- The machine of a pool with the given parameters. -/
def pool (params : PoolParams) : Machine State Action where
  init s := s = .create
  step s a := s.step params a

/-- A pool of the given number of shards that keeps up to four bytes inline and cuts a
chunk only where a file or a session ends. -/
def smallPool (shards : Nat) [NeZero shards] : PoolParams where
  logicalShardCount := shards
  logicalShardCount_pos := Nat.pos_of_neZero shards
  inlineThreshold := 4
  chunkMinSize := 100
  maxFileSize := 1000
  cut bytes := ([], bytes)

-- Stated once, so that the definitions of all modules share it.
instance neZeroOne : NeZero 1 := inferInstance

/-- The actions of a checkpoint around those of its captures. -/
def checkpointRun (shards : Nat) (captures : List Action) : List Action :=
  .beginCheckpoint :: List.replicate (2 * shards + 4) .checkpointStep ++ captures ++
    List.replicate (shards + 8) .checkpointStep

/-- The actions of an fsync after its session's tail is committed. -/
def fsyncRun (params : PoolParams) (ino : Ino) : List Action :=
  [.fsyncBarrier ino, .fsyncPublish ino, .deltaCommit ino,
    .writeShardSuperblock (params.shardOf ino), .finishFsync ino]

end Lchfs.Store
