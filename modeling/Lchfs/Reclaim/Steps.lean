import Lchfs.Reclaim.State

/-!
# Writers, committers and checkpoints

The steps that add references to chunks and the steps that publish them. A chunk is
pinned before it is looked up; a hit keeps the pin until a checkpoint that has captured
its inode is published, a miss gives it back and appends the chunk.
-/

namespace Lchfs.Reclaim

open Lchfs.Format (Ino ShardId SegmentId)
open Lchfs.Library Function

variable {Dev Hash : Type} [DecidableEq Dev] [DecidableEq Hash]

namespace State

variable (setup : Setup Dev) (s : State Dev Hash)

/-- How many generations must be published after a seal before the segment may go. -/
def checkpointGraceGenerations : Nat := 2

/-- Whether the coalescer may reclaim the segment yet. A segment with no entry sealed
before this mount. Entries past the gate may be forgotten, so none is ever removed here. -/
def mayReclaim (id : SegmentId) : Bool :=
  match s.sealGenerations id with
  | none => true
  | some generation => generation + checkpointGraceGenerations ≤ s.publishedGeneration

def isPinned (hash : Hash) : Bool :=
  s.pins.any (·.2 = hash)

def updateSegment (id : SegmentId) (f : Segment Hash → Segment Hash) : State Dev Hash :=
  { s with segments := fun dev ↦ update (s.segments dev) id ((s.segments dev id).map f) }

def setOp (ino : Ino) (op : Option (Op Hash)) : State Dev Hash :=
  { s with ops := update s.ops ino op }

def markDirty (ino : Ino) : State Dev Hash :=
  { s with dirtyInodes := s.dirtyInodes.insert ino }

/-- A committed chunk is the same location on every device it went to. -/
def putLocation (index : Hash → Dev → Option Location) (entry : Hash × Location) :
    Hash → Dev → Option Location :=
  update index entry.1 fun _ ↦ some entry.2

/-- Hands a shard's pending records to the index. -/
def flushIndex (shard : ShardId) : State Dev Hash :=
  { s with
    index := (s.pendingIndex shard).foldl putLocation s.index
    pendingIndex := update s.pendingIndex shard [] }

/-- Syncs the shard's open segment and flushes its index batch. -/
def fsyncData (shard : ShardId) : State Dev Hash :=
  match s.writers shard with
  | none => s.flushIndex shard
  | some id => (s.updateSegment id Segment.fsync).flushIndex shard

/-- Seals the shard's segment. It is stamped with the published generation first. -/
def closeSegment (shard : ShardId) : State Dev Hash :=
  match s.writers shard with
  | none => s.flushIndex shard
  | some id =>
    { (s.flushIndex shard).updateSegment id Segment.sealed with
      sealGenerations := update s.sealGenerations id (some s.publishedGeneration)
      writers := update s.writers shard none }

/-- The shard's open segment, created on every device if there is none. -/
def openSegment (shard : ShardId) : State Dev Hash × SegmentId :=
  match s.writers shard with
  | some id => (s, id)
  | none =>
    ({ s with
      segments := fun dev ↦ update (s.segments dev) s.nextSegmentId (some ⟨[], false, 0⟩)
      nextSegmentId := s.nextSegmentId + 1
      writers := update s.writers shard (some s.nextSegmentId) }, s.nextSegmentId)

/-- Appends a chunk to the shard's segment. The cache knows it at once, the index when
the batch is flushed. -/
def append (shard : ShardId) (hash : Hash) : State Dev Hash :=
  let (t, id) := s.openSegment shard
  let offset := ((t.segments setup.primary id).map (·.records.length)).getD 0
  { t.updateSegment id (·.append hash) with
    cache := update t.cache hash (some (⟨id, offset⟩, setup.primary))
    pendingIndex := update t.pendingIndex shard
      (t.pendingIndex shard ++ [(hash, ⟨id, offset⟩)]) }

/-- Creates an empty file. -/
def create : State Dev Hash :=
  { s with
    inodes := s.inodes.insert s.nextIno []
    nextIno := s.nextIno + 1
    dirtyInodes := s.dirtyInodes.insert s.nextIno }

/-- Removes an inode. What it has open in memory stays there, out of reach. -/
def unlink (ino : Ino) : Option (State Dev Hash) :=
  if (s.inodes.lookup ino).isSome then
    some { s with inodes := s.inodes.erase ino, dirtyInodes := s.dirtyInodes.erase ino }
  else none

/-- Loads a file's chunk list. -/
def hydrate (ino : Ino) : Option (State Dev Hash) :=
  match s.ops ino, s.fileState ino, s.inodes.lookup ino with
  | none, none, some chunks => some { s with fileState := update s.fileState ino (some chunks) }
  | _, _, _ => none

/-- Starts an append, a rewrite or an fsync with the chunks it has to commit. The inode is
dirty before any of them exists. -/
def begin (ino : Ino) (goal : Goal) (todo : List Hash) : Option (State Dev Hash) :=
  if (s.inodes.lookup ino).isSome ∧ (s.ops ino).isNone ∧ goal ≠ .capture ∧
      (goal = .fsync → (s.sessions ino).isNone → todo = []) then
    some ((s.markDirty ino).setOp ino (some ⟨goal, todo, .idle, []⟩))
  else none

/-- The first step of `prepare_chunk`. -/
def pin (ino : Ino) : Option (State Dev Hash) :=
  match s.ops ino with
  | some ⟨goal, hash :: todo, .idle, refs⟩ =>
    some ({ s with pins := (.prepare ino, hash) :: s.pins }.setOp ino
      (some ⟨goal, hash :: todo, .pinned, refs⟩))
  | _ => none

/-- The lookup of `prepare_chunk`: a hit is listed and its pin kept for the inode. -/
def lookup (ino : Ino) : Option (State Dev Hash) :=
  match s.ops ino with
  | some ⟨goal, hash :: todo, .pinned, refs⟩ =>
    if (s.cache hash).isSome then
      some ({ s with pins := (.file ino, hash) :: s.pins.erase (.prepare ino, hash) }.setOp ino
        (some ⟨goal, todo, .idle, refs ++ [hash]⟩))
    else some (s.setOp ino (some ⟨goal, hash :: todo, .missed, refs⟩))
  | _ => none

/-- After a miss the pin is given back. -/
def unpin (ino : Ino) : Option (State Dev Hash) :=
  match s.ops ino with
  | some ⟨goal, hash :: todo, .missed, refs⟩ =>
    some ({ s with pins := s.pins.erase (.prepare ino, hash) }.setOp ino
      (some ⟨goal, hash :: todo, .toAppend, refs⟩))
  | _ => none

/-- The committer appends the chunk, and it is listed. -/
def commit (ino : Ino) : Option (State Dev Hash) :=
  match s.ops ino with
  | some ⟨goal, hash :: todo, .toAppend, refs⟩ =>
    some ((s.append setup (setup.shardOf ino) hash).setOp ino
      (some ⟨goal, todo, .idle, refs ++ [hash]⟩))
  | _ => none

/-- Sets the chunk list of an inode that is still there. -/
def setContent (ino : Ino) (chunks : List Hash) : State Dev Hash :=
  { s with inodes := s.inodes.modify ino fun _ ↦ chunks }

/-- The chunk list a file has in memory: its session's, its working state's, or the one of
its content. -/
def currentChunks (ino : Ino) : List Hash :=
  ((s.sessions ino).or ((s.fileState ino).or (s.inodes.lookup ino))).getD []

/-- The end of an fsync: the committed chunk list is the file's working state and content,
and the session is closed. -/
def finishFsync (ino : Ino) (refs : List Hash) : State Dev Hash :=
  let chunks := s.currentChunks ino ++ refs
  { s.setContent ino chunks with
    fileState := update s.fileState ino (some chunks)
    sessions := update s.sessions ino none }

/-- Ends an operation whose chunks are all committed. -/
def finish (ino : Ino) : Option (State Dev Hash) :=
  match s.ops ino with
  | some ⟨.append, [], .idle, refs⟩ =>
    let chunks := s.currentChunks ino ++ refs
    some ({ s with sessions := update s.sessions ino (some chunks) }.setOp ino none)
  | some ⟨.rewrite, [], .idle, refs⟩ =>
    some ({ s with
      sessions := update s.sessions ino none
      fileState := update s.fileState ino (some refs) }.setOp ino none)
  | some ⟨.fsync, [], .idle, refs⟩ => some ((s.finishFsync ino refs).setOp ino none)
  | _ => none

/-- `create_snapshot` and `delete_snapshot` install a new table. -/
def setSnapshotTable (table : List (InoMap Hash)) : State Dev Hash :=
  { s with snapshotTable := table }

end State

end Lchfs.Reclaim
