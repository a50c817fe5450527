import Lchfs.Store.Write

/-!
# The checkpoint

`checkpoint_locked`, one step per lock it takes or per write it issues, so that the
steps of other threads can come between any two of them. The files of the dirty set
are captured one at a time in any order, each under its inode's lock, and a capture
that finds an append session commits its tail through the same chunk steps as a
write.
-/

namespace Lchfs.Store

open Lchfs.Format Lchfs.Library

/-- One inode of the dirty set is done. -/
def Checkpoint.without (c : Checkpoint) (ino : Ino) : Checkpoint :=
  { c with work := c.work.filter (·.ino ≠ ino) }

namespace State

variable (params : PoolParams) (s : State)

def setCheckpoint (checkpoint : Option Checkpoint) : State :=
  { s with checkpoint := checkpoint }

/-- The state in which a checkpoint starts. -/
def beginCheckpoint : Option State :=
  match s.checkpoint with
  | some _ => none
  | none => some (s.setCheckpoint (some
      { phase := .barrier 0, watermarks := [], dirty := [], work := [], capturing := none,
        inoSnapshot := [], generation := 0, root := ⟨[], 0, []⟩, rootLocation := ⟨0, 0⟩ }))

/-- The drained inodes that still exist, with a copy of each directory. -/
def dirtyWork (dirty : List Ino) : List DirtyWork :=
  dirty.filterMap fun ino ↦
    (s.ns.inodes.lookup ino).map fun inode ↦
      { ino := ino, kind := inode.kind,
        dir := if inode.kind = .directory then s.ns.dirs ino else none }

/-- A snapshot of every inode, sorted by number. -/
def inoSnapshot : InoMap :=
  s.ns.inodes.toList.insertionSort fun a b ↦ a.1 ≤ b.1

/-- Barrier 1: one shard's open data segment is synced. -/
def checkpointBarrier (c : Checkpoint) (shard : ShardId) : State :=
  if shard < params.logicalShardCount then
    { s with store := s.store.fsyncData shard }.setCheckpoint (some { c with phase := .barrier (shard + 1) })
  else s.setCheckpoint (some { c with phase := .watermark 0 })

/-- Reads one shard's epoch counter under the lock of its log. -/
def checkpointWatermark (c : Checkpoint) (shard : ShardId) : Option State :=
  let log := s.deltaLogs shard
  if params.logicalShardCount ≤ shard then some (s.setCheckpoint (some { c with phase := .drain }))
  else if log.holder.isSome then none
  else some (s.setCheckpoint (some
    { c with phase := .watermark (shard + 1), watermarks := c.watermarks ++ [log.localEpoch] }))

/-- Takes the dirty set. -/
def checkpointDrain (c : Checkpoint) : State :=
  { s with ns.dirtyInodes := [] }.setCheckpoint
    (some { c with phase := .work, dirty := s.ns.dirtyInodes })

/-- After the last capture, every inode of the namespace is copied for the InoMap. -/
def checkpointSnapshot (c : Checkpoint) : Option State :=
  if c.work.isEmpty ∧ c.capturing.isNone then
    some ({ s with ghost.snapStamp := s.ghost.nsStamp }.setCheckpoint
      (some { c with phase := .inodes, inoSnapshot := s.inoSnapshot }))
  else none

/-- Writes every inode object and the InoMap. -/
def checkpointInodes (c : Checkpoint) : State :=
  let objects := c.inoSnapshot.map (fun entry ↦ .inode entry.2) ++ [.inoMap c.inoSnapshot]
  { s with store := s.store.putMetaObjects objects }.setCheckpoint (some { c with phase := .root })

/-- Reads the inode counter and the generation, and writes the root. -/
def checkpointRoot (c : Checkpoint) : State :=
  let root : RootObject := ⟨c.inoSnapshot, s.ns.nextIno, c.watermarks⟩
  let (store, loc) := s.store.putMetaEncoded (.root root)
  { s with store := store }.setCheckpoint (some { c with
    phase := .metaBarrier, root := root, rootLocation := loc, generation := s.ns.generation + 1 })

/-- Barrier 2: the meta segment is synced. -/
def checkpointMetaBarrier (c : Checkpoint) : State :=
  { s with store := s.store.syncMeta }.setCheckpoint (some { c with phase := .flushIndex 0 })

/-- Every shard's index batch lands before the index claims the new generation. -/
def checkpointFlushIndex (c : Checkpoint) (shard : ShardId) : State :=
  if shard < params.logicalShardCount then
    { s with store := s.store.flushIndex shard }.setCheckpoint (some { c with phase := .flushIndex (shard + 1) })
  else s.setCheckpoint (some { c with phase := .index })

/-- The index is committed durably with the new generation. -/
def checkpointIndex (c : Checkpoint) : State :=
  { s with store := s.store.checkpointIndex c.generation }.setCheckpoint
    (some { c with phase := .publish })

/-- The in-memory root and generation move on. -/
def checkpointPublish (c : Checkpoint) : State :=
  { s with ns.generation := c.generation, ns.rootHash := .root c.root }.setCheckpoint
    (some { c with phase := .superblock })

/-- The superblock slot is written to the first device; from here on a mount selects the
new root. -/
def checkpointSuperblock (c : Checkpoint) : State :=
  { s with
    slot := some ⟨c.generation, c.root, c.rootLocation⟩
    publishedWatermarks := (s.publishedWatermarks.2, c.watermarks)
    ghost.slotStamp := s.ghost.snapStamp }.setCheckpoint none

/-- The next step of the running checkpoint, captures apart. -/
def checkpointStep : Option State :=
  s.checkpoint.bind fun c ↦
    match c.phase with
    | .barrier shard => some (s.checkpointBarrier params c shard)
    | .watermark shard => s.checkpointWatermark params c shard
    | .drain => some (s.checkpointDrain c)
    | .work => some (s.setCheckpoint (some { c with phase := .capture, work := s.dirtyWork c.dirty }))
    | .capture => s.checkpointSnapshot c
    | .inodes => some (s.checkpointInodes c)
    | .root => some (s.checkpointRoot c)
    | .metaBarrier => some (s.checkpointMetaBarrier c)
    | .flushIndex shard => some (s.checkpointFlushIndex params c shard)
    | .index => some (s.checkpointIndex c)
    | .publish => some (s.checkpointPublish c)
    | .superblock => some (s.checkpointSuperblock c)

/-- Encodes a directory. -/
def captureDirectory (c : Checkpoint) (ino : Ino) (dir : DirectoryObject) : State :=
  { s with
    store := (s.store.putMetaEncoded (.directory dir)).1
    ns := s.ns.setContent ino (.dirEntries (some dir)) }.setCheckpoint (some c)

/-- Takes a file's lock; its session's tail is committed next. -/
def lockCaptured (c : Checkpoint) (ino : Ino) : State :=
  (s.setOp ino (some (.committing .capture (sessionTail (s.openFiles ino)) false []))).setCheckpoint
    (some { c with capturing := some ino })

/-- Starts on one inode of the dirty set. A directory is encoded at once. -/
def beginCapture (ino : Ino) : Option State :=
  s.checkpoint.bind fun c ↦
    if c.phase ≠ .capture ∨ c.capturing.isSome then none
    else
      match c.work.find? (·.ino = ino) with
      | none => none
      | some w =>
        match w.kind with
        | .directory => some (s.captureDirectory (c.without ino) ino (w.dir.getD []))
        | .symlink => some (s.setCheckpoint (some (c.without ino)))
        | .file => if (s.ops ino).isSome then none else some (s.lockCaptured (c.without ino) ino)

/-- Publishes a captured content: a chunk list goes to the meta stream first. -/
def captureContent (ino : Ino) (content : ContentRef) : State :=
  match content with
  | .chunkList chunks =>
    { s with store := (s.store.putMetaEncoded (.indirectHashList chunks)).1 }.publishContent ino content
  | _ => s.publishContent ino content

/-- The file's content goes into the namespace. A dirty mark with nothing behind it leaves
the content alone. -/
def captureFile (ino : Ino) (sessionChunks : Option (List ChunkRef)) : State :=
  if sessionChunks.isNone ∧ (s.fileState ino).isNone then s
  else s.captureContent ino (s.contentRefFor params ino sessionChunks)

/-- A captured session's content is findable without it from here on. -/
def dropSession (ino : Ino) (sessionChunks : Option (List ChunkRef)) : State :=
  if sessionChunks.isNone then s
  else { s with fileState := Function.update s.fileState ino none }.closeSession ino

/-- Captures a file whose tail is committed and releases its lock. -/
def finishCapture (ino : Ino) : Option State :=
  s.checkpoint.bind fun c ↦
    match s.ops ino with
    | some (.committing .capture [] false refs) =>
      let sessionChunks := finalizedChunks (s.openFiles ino) refs
      let t := ((s.captureFile params ino sessionChunks).dropSession ino sessionChunks).setOp ino none
      some (t.setCheckpoint (some { c with capturing := none }))
    | _ => none

end State

end Lchfs.Store
