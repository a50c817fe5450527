import Lchfs.File.State

/-!
# The file machine

Writes, resizes, `fallocate`, fsyncs and checkpoints of one file, cut where another thread can
see the file. Requests, fsyncs and captures hold the inode's lock from their first step to their
last; the drain and the inode snapshot of a checkpoint do not take it. A failed commit gives up
the lock and keeps what had been changed. The delta log of an fsync is left out.
-/

namespace Lchfs.File

open Lchfs.Format (Bytes ChunkRef)
open Lchfs.Library (Machine)
open Lchfs.Library.Layout
open Lchfs.Store (FileWorkingState IncrementalWriteState)

/-- The checks made before the lock is taken. -/
def Request.isInvalid (params : Params) : Request → Bool
  | .write _ _ => false
  | .setSize newSize => params.maxFileSize < newSize
  | .fallocate offset len _ => len = 0 ∨ params.maxFileSize < offset + len

namespace State

variable (params : Params) (s : State)

/-! ## Requests -/

/-- `write_incremental` up to its first commit: the finished chunks leave the pending bytes. -/
def beginAppend (session : IncrementalWriteState) (buf : Bytes) : State :=
  let pieces := params.chunker.push (session.pendingBytes ++ buf)
  { s with
    dirty := true
    session := some { session with
      cutOffset := session.cutOffset + pieces.1.flatten.length
      pendingBytes := pieces.2 }
    op := some (.appending buf.length
      (refsOf (offsets (session.baseOffset + session.cutOffset) pieces.1))) }

def materializeSessionIntoFileState : State :=
  match s.session with
  | none => s
  | some session =>
    { s with
      working := some ⟨assembleSessionContents session.chunks session.pendingBytes s.size, session.chunks⟩
      session := none }

/-- Loads the working state from the content, unless it is there already. -/
def hydrateFileState : Option State :=
  match s.working, s.content with
  | some _, _ => some s
  | none, .inline bytes => some { s with working := some ⟨bytes, []⟩ }
  | none, .chunkList hash =>
    if hash ∈ s.lists then some { s with working := some ⟨placeChunks hash (zeros s.size), hash⟩ } else none

/-- The chunk list a new append session starts from. -/
def currentChunksForNewSession : Option (List ChunkRef) :=
  match s.working, s.content with
  | some state, _ => some state.chunks
  | none, .chunkList hash => if hash ∈ s.lists then some hash else none
  | none, .inline _ => some []

/-- The whole-file path up to its first commit. -/
def beginRechunk (request : Request) : Option State :=
  s.hydrateFileState.bind fun t ↦ t.working.map fun state ↦
    let contents := request.patch state.contents
    { t with
      dirty := true
      working := some { state with contents := contents }
      op := some (.rechunking (refsOf (rechunkPieces params contents))) }

/-- Whether a write at the end of the file opens a new session. -/
def freshSessionEligible (offset : Nat) : Bool :=
  offset = s.size ∧ params.inlineThreshold < s.size

/-- A write that continues no session. -/
def beginFallback (offset : Nat) (buf : Bytes) : Option State :=
  if s.freshSessionEligible params offset then
    s.currentChunksForNewSession.map fun chunks ↦ s.beginAppend params ⟨offset, 0, offset, chunks, []⟩ buf
  else if params.maxFileSize < offset + buf.length then some s
  else s.beginRechunk params (.write offset buf)

/-- Whether a write continues the open session. -/
def continues (offset : Nat) : Bool :=
  s.session.any (·.nextExpectedOffset = offset)

def beginWrite (offset : Nat) (buf : Bytes) : Option State :=
  match s.session with
  | none => s.beginFallback params offset buf
  | some session =>
    if session.nextExpectedOffset = offset then some (s.beginAppend params session buf)
    else s.materializeSessionIntoFileState.beginFallback params offset buf

/-- A request from taking the lock to the first commit, or to the refusal of a write. -/
def begin (request : Request) : Option State :=
  match request with
  | .write offset buf => if buf = [] then some s else s.beginWrite params offset buf
  | .setSize _ | .fallocate _ _ _ => s.materializeSessionIntoFileState.beginRechunk params request

/-- `begin`, with the ghosts of an accepted request. -/
def beginRequest (request : Request) : Option State :=
  if request.isInvalid params then some s
  else if s.op.isSome then none
  else (s.begin params request).map fun t ↦
    if t.op.isSome then { t with request := some request, target := request.model s.acked } else t

/-- The requests that are turned down with an error. A write has ended the session by then. -/
def refuses : Request → Bool
  | .write offset buf => buf ≠ [] ∧ ¬s.continues offset ∧ ¬s.freshSessionEligible params offset ∧
      params.maxFileSize < offset + buf.length
  | request => request.isInvalid params

/-! ## Fsyncs and checkpoints -/

/-- The chunk list of `finalize_incremental_session`: the tail is one more chunk. -/
def finalizeIncrementalSession : Option (List ChunkRef) :=
  s.session.map fun session ↦
    session.chunks ++ refsOf (if session.pendingBytes = [] then []
      else [(session.baseOffset + session.cutOffset, session.pendingBytes)])

/-- A small file that has no session is kept inline. -/
def contentRef (sessionChunks : Option (List ChunkRef)) : Content :=
  if sessionChunks.isSome ∨ params.inlineThreshold < s.size then
    .chunkList ((sessionChunks.or (s.working.map (·.chunks))).getD [])
  else .inline ((s.working.map (·.contents)).getD [])

def beginFsync : Option State :=
  if s.op.isSome then none
  else some { s with dirty := true, op := some (.fsyncing s.finalizeIncrementalSession) }

/-- The start of a checkpoint: the dirty set is taken. -/
def drain : Option State :=
  if s.checkpoint.isSome then none
  else some { s with dirty := false, checkpoint := some ⟨s.dirty, false⟩, history := [s.acked] }

def beginCapture : Option State :=
  if s.op.isNone ∧ s.checkpoint = some ⟨true, false⟩ then
    some { s with op := some (.capturing s.finalizeIncrementalSession) }
  else none

def finishCapture : State :=
  { s with op := none, checkpoint := s.checkpoint.map fun c ↦ { c with captured := true } }

/-- Sets the content; a chunk list that is not in the meta stream yet is put there. -/
def putContent (content : Content) : State :=
  match content with
  | .inline _ => { s with content := content }
  | .chunkList hash =>
    { s with content := content, lists := if hash ∈ s.lists then s.lists else hash :: s.lists }

/-- The inode snapshot of a checkpoint that has captured what it drained. -/
def snapshot : Option State :=
  s.checkpoint.bind fun c ↦
    if c.work → c.captured then some { s with published := some (s.content, s.size), checkpoint := none }
    else none

/-- A checkpoint that fails puts its work set back into the dirty set. -/
def abortCheckpoint : Option State :=
  s.checkpoint.map fun c ↦ { s with dirty := s.dirty || c.work, checkpoint := none }

/-- One more step of the operation that holds the lock. -/
def advance : Option State :=
  s.op.bind fun
    | .appending added refs => s.session.map fun session ↦
      { s with
        session := some { session with
          chunks := session.chunks ++ refs
          nextExpectedOffset := session.nextExpectedOffset + added }
        op := some (.touching (session.nextExpectedOffset + added)) }
    | .rechunking refs => s.working.map fun state ↦
      { s with working := some { state with chunks := refs }, op := some (.touching state.contents.length) }
    | .touching size => some { s with
      size := size
      dirty := true
      op := none
      acked := s.target
      request := none
      failed := none
      history := s.target :: s.history }
    | .fsyncing (some chunks) => some { s with
      working := some ⟨assembleSessionContents chunks [] s.size, chunks⟩
      op := some (.publishing (some chunks) (s.contentRef params (some chunks))) }
    | .fsyncing none => s.hydrateFileState.map fun t ↦
      { t with op := some (.publishing none (t.contentRef params none)) }
    | .publishing sessionChunks content => some { s with
      content := content
      op := some (.fsynced sessionChunks.isSome) }
    | .fsynced hadSession => some { s with session := if hadSession then none else s.session, op := none }
    -- without a session or a working state there is nothing new to encode
    | .capturing sessionChunks => some
      { (if sessionChunks.isSome ∨ s.working.isSome then s.putContent (s.contentRef params sessionChunks)
          else s) with op := some (.dropping sessionChunks.isSome) }
    | .dropping hadSession => some { s with
      working := if hadSession then none else s.working
      op := some (.closing hadSession) }
    | .closing hadSession => some { s with session := if hadSession then none else s.session }.finishCapture

/-- One of the commits of a request, or the commit of a session's tail, fails. -/
def fail : Option State :=
  s.op.bind fun
    | .appending _ refs | .rechunking refs =>
      if refs = [] then none else some { s with op := none, failed := s.request, request := none }
    | .fsyncing (some _) =>
      if s.session.all (·.pendingBytes = []) then none else some { s with op := none }
    | .capturing (some _) =>
      if s.session.all (·.pendingBytes = []) then none
      else { s with op := none }.abortCheckpoint
    | _ => none

end State

inductive Action
  | request (request : Request)
  | advance
  | fail
  | beginFsync
  | setAttr
  | drain
  | beginCapture
  | snapshot
  | abortCheckpoint

namespace State

variable (params : Params) (s : State)

def step : Action → Option State
  | .request request => s.beginRequest params request
  | .advance => s.advance params
  | .fail => s.fail
  | .beginFsync => s.beginFsync
  | .setAttr => some { s with dirty := true }
  | .drain => s.drain
  | .beginCapture => s.beginCapture
  | .snapshot => s.snapshot
  | .abortCheckpoint => if s.op.any (·.isCapture) then none else s.abortCheckpoint

/-- A file as it is created or as a mount finds it. -/
def Loaded (s : State) : Prop :=
  s.session = none ∧ s.working = none ∧ s.op = none ∧ s.checkpoint = none ∧ s.failed = none ∧
    s.size = s.acked.length ∧
    match s.content with
    | .inline bytes => bytes = s.acked ∧ bytes.length ≤ params.inlineThreshold
    | .chunkList hash => hash ∈ s.lists ∧ Sorted hash ∧ chunksEnd hash ≤ s.size ∧
        placeChunks hash (zeros s.size) = s.acked

end State

/-- A file under any interleaving of requests, fsyncs and checkpoints. -/
def file (params : Params) : Machine State Action where
  init := State.Loaded params
  step s a := s.step params a

end Lchfs.File
