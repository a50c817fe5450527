import Lchfs.Store.State

/-!
# Reads, writes and fsync

The write path and the fsync fast path, cut into the steps between which other
threads may run. A step returns `none` when it is not enabled. Operations that fail
give up the inode's lock and keep what they had already changed.
-/

namespace Lchfs.Store

open Lchfs.Format Lchfs.Library Function

/-- Copies bytes into a buffer, cut off at its end. -/
def copyInto (buf : Bytes) (start : Nat) (bytes : Bytes) : Bytes :=
  let stop := min (start + bytes.length) buf.length
  if start < stop then buf.take start ++ bytes.take (stop - start) ++ buf.drop stop else buf

/-- The offsets of consecutive pieces. -/
def offsets : Nat → List Bytes → List (Nat × Bytes)
  | _, [] => []
  | start, piece :: pieces => (start, piece) :: offsets (start + piece.length) pieces

namespace State

variable (params : PoolParams) (s : State)

def readChunkBytes (hash : Bytes) : Option Bytes :=
  match s.store.readVerified (.chunk hash) with
  | some (.chunk bytes) => some bytes
  | _ => none

def readIndirectHashList (hash : IndirectHashList) : Option (List ChunkRef) :=
  match s.store.readVerified (.indirectHashList hash) with
  | some (.indirectHashList chunks) => some chunks
  | _ => none

/-- Places each chunk at its own offset; what no chunk covers reads as zeros. -/
def placeChunks (chunks : List ChunkRef) (buf : Bytes) : Option Bytes :=
  chunks.foldlM (fun buf c ↦ (s.readChunkBytes c.contentHash).map (copyInto buf c.logicalOffset)) buf

def assembleSessionContents (ino : Ino) (chunks : List ChunkRef) (pending : Bytes) :
    Option Bytes :=
  match s.ns.inodes.lookup ino with
  | none => none
  | some inode =>
    let chunksEnd := (chunks.map fun c ↦ c.logicalOffset + c.len).foldr max 0
    let total := max inode.size (chunksEnd + pending.length)
    (s.placeChunks chunks (List.replicate total 0)).map fun buf ↦
      copyInto buf (buf.length - pending.length) pending

/-- The bytes of a file, as `read` over its whole length returns them. -/
def readFile (ino : Ino) : Option Bytes :=
  match s.ns.inodes.lookup ino with
  | none => none
  | some inode =>
    if inode.kind ≠ .file then none
    else
      match s.openFiles ino, s.fileState ino with
      | some session, _ => s.assembleSessionContents ino session.chunks session.pendingBytes
      | none, some state => some state.contents
      | none, none =>
        match inode.content with
        | .inline bytes => some bytes
        | .chunkList hash =>
          (s.readIndirectHashList hash).bind fun chunks ↦
            s.placeChunks chunks (List.replicate inode.size 0)
        | _ => some []

def setStore (store : RecordStore) : State :=
  { s with store := store }

def setFileState (ino : Ino) (state : FileWorkingState) : State :=
  { s with fileState := update s.fileState ino (some state) }

def closeSession (ino : Ino) : State :=
  { s with openFiles := update s.openFiles ino none }

def setOp (ino : Ino) (op : Option Op) : State :=
  { s with ops := update s.ops ino op }

def markDirty (ino : Ino) : State :=
  { s with ns := s.ns.markDirty ino }

/-- Loads a file's working state from its content, unless it is there already. -/
def hydrateFileState (ino : Ino) : Option State :=
  match s.fileState ino, s.ns.inodes.lookup ino with
  | some _, _ => some s
  | none, none => none
  | none, some inode =>
    match inode.content with
    | .inline bytes => some (s.setFileState ino ⟨bytes, []⟩)
    | .chunkList hash =>
      match s.readIndirectHashList hash with
      | none => none
      | some chunks =>
        (s.placeChunks chunks (List.replicate inode.size 0)).map fun buf ↦
          s.setFileState ino ⟨buf, chunks⟩
    | _ => some (s.setFileState ino ⟨[], []⟩)

/-- The chunk list a new append session starts from. -/
def currentChunksForNewSession (ino : Ino) : Option (List ChunkRef) :=
  match s.fileState ino, s.ns.inodes.lookup ino with
  | some state, _ => some state.chunks
  | none, none => none
  | none, some inode =>
    match inode.content with
    | .chunkList hash => s.readIndirectHashList hash
    | _ => some []

/-- Ends a session and keeps its bytes as the file's working state. -/
def materializeSessionIntoFileState (ino : Ino) : Option State :=
  match s.openFiles ino with
  | none => some s
  | some session =>
    (s.assembleSessionContents ino session.chunks session.pendingBytes).map fun contents ↦
      (s.setFileState ino ⟨contents, session.chunks⟩).closeSession ino

/-- The first half of `write_incremental`: the inode is dirty before any chunk of it is
committed, and the chunker says which chunks are finished. -/
def beginIncremental (ino : Ino) (buf : Bytes) (session : IncrementalWriteState) : State :=
  let pieces := params.cut (session.pendingBytes ++ buf)
  let session' := { session with
    cutOffset := session.cutOffset + (pieces.1.map List.length).sum
    pendingBytes := pieces.2 }
  let prepared := offsets (session.baseOffset + session.cutOffset) pieces.1
  { s.markDirty ino with
    openFiles := update s.openFiles ino (some session') }.setOp ino
      (some (.committing (.incremental buf.length) prepared false []))

/-- The chunks of a whole file. A chunk of zeros, at least as long as the smallest chunk,
is left out of the list as a hole. -/
def rechunkPieces (contents : Bytes) : List (Nat × Bytes) :=
  if contents.length ≤ params.inlineThreshold then []
  else
    let pieces := params.cut contents
    let last := if pieces.2 = [] then [] else [pieces.2]
    (offsets 0 (pieces.1 ++ last)).filter fun piece ↦
      ¬(params.chunkMinSize ≤ piece.2.length ∧ piece.2.all (· = 0))

/-- The first half of `rechunk_and_touch`, after the working state has its new bytes. -/
def beginRechunk (ino : Ino) (state : FileWorkingState) : State :=
  ((s.setFileState ino state).markDirty ino).setOp ino
    (some (.committing .rechunk (rechunkPieces params state.contents) false []))

/-- A write that continues no open session: a new session at the end of a chunked file,
or else the whole file is loaded, patched and chunked again. -/
def beginFallback (ino : Ino) (inode : InodeObject) (offset : Nat) (buf : Bytes) :
    Option State :=
  if offset = inode.size ∧ params.inlineThreshold < inode.size then
    (s.currentChunksForNewSession ino).map fun chunks ↦
      s.beginIncremental params ino buf
        { baseOffset := offset, cutOffset := 0, nextExpectedOffset := offset,
          chunks := chunks, pendingBytes := [] }
  else if params.maxFileSize < offset + buf.length then some s
  else
    (s.hydrateFileState ino).bind fun t ↦
      (t.fileState ino).map fun state ↦
        let stop := offset + buf.length
        let contents := state.contents ++ List.replicate (stop - state.contents.length) 0
        t.beginRechunk params ino { state with contents := copyInto contents offset buf }

/-- `write`, from taking the inode's lock to the first chunk to commit. -/
def beginWrite (ino : Ino) (offset : Nat) (buf : Bytes) : Option State :=
  match s.ns.inodes.lookup ino, s.ops ino with
  | some inode, none =>
    if inode.kind ≠ .file ∨ buf = [] then none
    else
      match s.openFiles ino with
      | some session =>
        if session.nextExpectedOffset = offset then some (s.beginIncremental params ino buf session)
        else
          (s.materializeSessionIntoFileState ino).bind fun t ↦
            t.beginFallback params ino inode offset buf
      | none => s.beginFallback params ino inode offset buf
  | _, _ => none

/-- `set_size`, from taking the inode's lock to the first chunk to commit. -/
def beginSetSize (ino : Ino) (newSize : Nat) : Option State :=
  match s.ns.inodes.lookup ino, s.ops ino with
  | some inode, none =>
    if inode.kind ≠ .file ∨ params.maxFileSize < newSize then none
    else
      (s.materializeSessionIntoFileState ino).bind fun t ↦
        (t.hydrateFileState ino).bind fun u ↦
          (u.fileState ino).map fun state ↦
            let contents := state.contents.take newSize ++
              List.replicate (newSize - state.contents.length) 0
            u.beginRechunk params ino { state with contents := contents }
  | _, _ => none

/-- `prepare_chunk`: a hit in the cache is listed at once, a miss is left to append. -/
def prepareChunk (ino : Ino) : Option State :=
  match s.ops ino with
  | some (.committing goal ((offset, bytes) :: todo) false refs) =>
    match s.store.dedupIndex (.chunk bytes) with
    | some _ =>
      some (s.setOp ino (some (.committing goal todo false (refs ++ [⟨bytes, offset, bytes.length⟩]))))
    | none => some (s.setOp ino (some (.committing goal ((offset, bytes) :: todo) true refs)))
  | _ => none

/-- `commit_chunk` after a miss: the shard's committer appends the chunk. -/
def commitChunk (ino : Ino) : Option State :=
  match s.ops ino with
  | some (.committing goal ((offset, bytes) :: todo) true refs) =>
    some ((s.setStore (s.store.appendData (params.shardOf ino) (.chunk bytes))).setOp ino
      (some (.committing goal todo false (refs ++ [⟨bytes, offset, bytes.length⟩]))))
  | _ => none

/-- The acknowledged end of a write: a new content of the file exists from now on. -/
def stampWrite (ino : Ino) : State :=
  { s with
    ghost.clock := s.ghost.clock + 1
    ghost.memStamp := update s.ghost.memStamp ino (s.ghost.clock + 1) }

/-- Updates the inode, if it is still there, and releases its lock. -/
def endWrite (ino : Ino) (size : Nat) : State :=
  if (s.ns.inodes.lookup ino).isSome then
    ({ s with ns := s.ns.touch ino size }.stampWrite ino).setOp ino none
  else s.setOp ino none

/-- The second half of `write_incremental` and of `rechunk_and_touch`: the committed
chunks are listed and the new size goes into the namespace. An inode that was removed
meanwhile makes the write fail after its chunks were listed. -/
def finishWrite (ino : Ino) : Option State :=
  match s.ops ino with
  | some (.committing (.incremental added) [] false refs) =>
    (s.openFiles ino).map fun session ↦
      let size := session.nextExpectedOffset + added
      let t := { s with openFiles := update s.openFiles ino (some
        { session with chunks := session.chunks ++ refs, nextExpectedOffset := size }) }
      t.endWrite ino size
  | some (.committing .rechunk [] false refs) =>
    (s.fileState ino).map fun state ↦
      (s.setFileState ino { state with chunks := refs }).endWrite ino state.contents.length
  | _ => none

/-- The tail of a session that is not cut into a chunk yet. -/
def sessionTail (session : Option IncrementalWriteState) : List (Nat × Bytes) :=
  match session with
  | none => []
  | some session =>
    if session.pendingBytes = [] then []
    else [(session.baseOffset + session.cutOffset, session.pendingBytes)]

/-- The chunk list `finalize_incremental_session` returns once the tail is committed. -/
def finalizedChunks (session : Option IncrementalWriteState) (refs : List ChunkRef) :
    Option (List ChunkRef) :=
  session.map (·.chunks ++ refs)

/-- `fsync`, from taking the inode's lock to the commit of the session's tail. -/
def beginFsync (ino : Ino) : Option State :=
  match s.ns.inodes.lookup ino, s.ops ino with
  | some inode, none =>
    if inode.kind ≠ .file then none
    else some ((s.markDirty ino).setOp ino
      (some (.committing .fsync (sessionTail (s.openFiles ino)) false [])))
  | _, _ => none

/-- The data barrier of an fsync. Only the segment of the inode's own shard is synced. -/
def fsyncBarrier (ino : Ino) : Option State :=
  match s.ops ino with
  | some (.committing .fsync [] false refs) =>
    some ((s.setStore (s.store.fsyncData (params.shardOf ino))).setOp ino
      (some (.dataSynced (finalizedChunks (s.openFiles ino) refs))))
  | _ => none

/-- The content reference of a file: its bytes if it is small and was never a session,
else its chunk list. -/
def contentRefFor (ino : Ino) (sessionChunks : Option (List ChunkRef)) : ContentRef :=
  let state := s.fileState ino
  let large := ((s.ns.inodes.lookup ino).map (·.size)).any (params.inlineThreshold < ·)
  if sessionChunks.isSome ∨ large then
    .chunkList ((sessionChunks.or (state.map (·.chunks))).getD [])
  else .inline ((state.map (·.contents)).getD [])

/-- Sets an inode's content, which from now on is as new as the content in memory. -/
def publishContent (ino : Ino) (content : ContentRef) : State :=
  { s with
    ns := s.ns.setContent ino content
    ghost.nsStamp := update s.ghost.nsStamp ino (s.ghost.memStamp ino) }

/-- Sets the content in the namespace and encodes the inode, if it is still there. -/
def finishPublish (ino : Ino) (sessionChunks : Option (List ChunkRef)) (content : ContentRef) :
    State :=
  match s.ns.inodes.lookup ino with
  | none => s.setOp ino none
  | some inode =>
    (s.publishContent ino content).setOp ino (some
      (.contentSet sessionChunks { inode with content := content } (s.ghost.memStamp ino)))

/-- The part of an fsync between the data barrier and the log: the working state is
brought up to date and the inode's content is set in the namespace, where a checkpoint
can see it before the log holds it. -/
def fsyncPublish (ino : Ino) : Option State :=
  match s.ops ino with
  | some (.dataSynced none) =>
    match s.hydrateFileState ino with
    | none => some (s.setOp ino none)
    | some t => some (t.finishPublish ino none (t.contentRefFor params ino none))
  | some (.dataSynced (some chunks)) =>
    match s.assembleSessionContents ino chunks [] with
    | none => some (s.setOp ino none)
    | some contents =>
      some ((s.setFileState ino ⟨contents, chunks⟩).finishPublish ino (some chunks)
        (s.contentRefFor params ino (some chunks)))
  | _ => none

/-- The commit of an fsync up to the sync of the delta segment. The log's lock is held
from here until the shard superblock is written. -/
def deltaCommit (ino : Ino) : Option State :=
  let shard := params.shardOf ino
  let log := s.deltaLogs shard
  match s.ops ino, log.holder with
  | some (.contentSet sessionChunks object stamp), none =>
    let entry : DeltaCommit := ⟨ino, object, log.localEpoch + 1, stamp⟩
    some ({ s with
      delta := update s.delta shard ((s.delta shard).append log.writer entry)
      deltaLogs := update s.deltaLogs shard
        { log with writer := true, holder := some ino } }.setOp ino
          (some (.logged sessionChunks stamp)))
  | _, _ => none

/-- The rest of the commit: the epoch counter and the shard superblock. -/
def writeShardSuperblock (shard : ShardId) : Option State :=
  let log := s.deltaLogs shard
  match log.holder with
  | none => none
  | some _ =>
    some { s with
      shardSuperblock := update s.shardSuperblock shard (log.localEpoch + 1)
      deltaLogs := update s.deltaLogs shard
        { log with localEpoch := log.localEpoch + 1, holder := none } }

/-- Starts a new delta segment, as a commit does when the current one is large. -/
def rollOver (shard : ShardId) : Option State :=
  let log := s.deltaLogs shard
  if log.holder.isNone ∧ log.writer then
    some { s with delta := update s.delta shard (s.delta shard ++ [[]]) }
  else none

/-- The end of an fsync: the session is closed and the call returns. -/
def finishFsync (ino : Ino) : Option State :=
  match s.ops ino with
  | some (.logged sessionChunks stamp) =>
    if (s.deltaLogs (params.shardOf ino)).holder = some ino then none
    else
      let t := if sessionChunks.isSome then s.closeSession ino else s
      some ({ t with ghost.ackStamp := update t.ghost.ackStamp ino stamp }.setOp ino none)
  | _ => none

end State

end Lchfs.Store
