import Lchfs.File.Published

/-!
# Reads beside the writes of a file

A read takes no lock. It looks for an append session and copies its chunk list and pending bytes;
if there is none it looks for the working state; if there is none either it takes the content and
the size from the inode. Anything may happen to the file between two of these looks. The machine
here is the file of `Lchfs.File.Machine` with any number of reads under way.
-/

namespace Lchfs.File

open Lchfs.Format (Bytes ChunkRef)
open Lchfs.Library (Machine)
open Lchfs.Library.Layout
open Lchfs.Store (FileWorkingState IncrementalWriteState)

/-! ## A read -/

/-- What a read has found so far. -/
inductive ReadPhase
  | started
  | session (chunks : List ChunkRef) (pending : Bytes)
  | noSession
  | noState
  deriving DecidableEq

/-- The ghosts: `floors` has, for each append that the read overlaps, the bytes that were
acknowledged when the append began; `stale` says whether a request has been acknowledged since
the read looked for the session. -/
structure Reader where
  offset : Nat
  len : Nat
  phase : ReadPhase
  floors : List Bytes
  stale : Bool
  deriving DecidableEq

/-- The next look at the file: the read goes on, or it returns, `none` being an error. -/
def Reader.look (s : State) (r : Reader) : ReadPhase ⊕ Option Bytes :=
  match r.phase with
  | .started => .inl (s.session.elim .noSession fun session ↦ .session session.chunks session.pendingBytes)
  | .session chunks pending => .inr (some (sliceOf (assembleSessionContents chunks pending s.size) r.offset r.len))
  | .noSession => s.working.elim (.inl .noState) fun state ↦ .inr (some (sliceOf state.contents r.offset r.len))
  | .noState => .inr (s.readContent r.offset r.len)

/-- Whether a read will place pending bytes. -/
def Reader.holdsPending (r : Reader) : Bool :=
  match r.phase with
  | .session _ pending => pending ≠ []
  | _ => false

namespace State

variable (params : Params) (s : State)

/-- Whether an incremental append is under way. -/
def appends : Bool :=
  match s.op with
  | some (.appending _ _) => true
  | some (.touching _) => s.session.isSome
  | _ => false

/-- Whether a request on the whole-file path is under way. -/
def rewrites : Bool :=
  match s.op with
  | some (.rechunking _) => true
  | some (.touching _) => s.session.isNone
  | _ => false

/-- Whether a step acknowledges a request. -/
def acknowledges (t : State) : Bool :=
  s.op.any (·.isTouching) && t.op.isNone

/-- The session that a write at `offset` appends to. -/
def appendSession (offset : Nat) : Option IncrementalWriteState :=
  if s.continues offset then s.session
  else if s.freshSessionEligible params offset then
    s.materializeSessionIntoFileState.currentChunksForNewSession.map fun chunks ↦ ⟨offset, 0, offset, chunks, []⟩
  else none

instance (request : Request) : Decidable (s.TakesWholeFile params request) := by
  induction request using Request.casesOn <;> unfold TakesWholeFile <;> infer_instance

end State

/-- The ghosts of a read after a step of the file. -/
def Reader.notice (s t : State) (r : Reader) : Reader :=
  { r with
    floors := if t.appends && !s.appends then s.acked :: r.floors else r.floors
    stale := r.stale || (s.acknowledges t && r.phase ≠ .started) }

/-! ## The machine -/

/-- A file, the reads under way, and what the reads that are over returned. -/
structure Reads where
  file : State
  readers : List Reader
  returned : List (Reader × Option Bytes)

inductive ReadAction
  | file (a : Action)
  | start (offset len : Nat)
  | look (i : Nat)

namespace Reads

variable (params : Params) (s : Reads)

def step : ReadAction → Option Reads
  | .file a => (s.file.step params a).map fun t ↦
    { s with file := t, readers := s.readers.map (Reader.notice s.file t) }
  | .start offset len => some { s with
    readers := ⟨offset, len, .started, if s.file.appends then [s.file.acked] else [], false⟩ :: s.readers }
  | .look i => s.readers[i]?.map fun r ↦
    match r.look s.file with
    | .inl phase => { s with readers := s.readers.set i { r with phase := phase } }
    | .inr out => { s with readers := s.readers.eraseIdx i, returned := (r, out) :: s.returned }

/-! ## The condition -/

/-- What is asked of a write that appends. Either it finds no pending bytes or it completes no
chunk, the chunk list goes up to the pending bytes, and no read is under way that looked for the
session before the last acknowledgement. -/
def KeepsAppend (offset : Nat) (buf : Bytes) : Prop :=
  ∀ session ∈ s.file.appendSession params offset,
    (session.pendingBytes = [] ∨ (params.chunker.push (session.pendingBytes ++ buf)).1 = []) ∧
      chunksEnd session.chunks = session.baseOffset + session.cutOffset ∧ ∀ r ∈ s.readers, r.stale = false

/-- What is asked of a request: if it is on the whole-file path, that no read is under way that
has overlapped an append. -/
def KeepsRequest (request : Request) : Prop :=
  (s.file.TakesWholeFile params request → ∀ r ∈ s.readers, r.floors = []) ∧
    match request with
    | .write offset buf => s.KeepsAppend params offset buf
    | _ => True

/-- An append stores the size while no read holds pending bytes, and an fsync stores its content
while no read is about to load the content. -/
def KeepsAdvance : Prop :=
  match s.file.op with
  | some (.touching _) => s.file.session.isSome → ∀ r ∈ s.readers, r.holdsPending = false
  | some (.publishing _ _) => ∀ r ∈ s.readers, r.phase ≠ .noState
  | _ => True

def KeepsReads : ReadAction → Prop
  | .file a => s.file.KeepsClean params a ∧
    match a with
    | .request request => s.KeepsRequest params request
    | .advance => s.KeepsAdvance
    | _ => True
  | .start _ _ => True
  | .look _ => True

instance (offset : Nat) (buf : Bytes) : Decidable (s.KeepsAppend params offset buf) :=
  inferInstanceAs (Decidable (∀ _ ∈ _, _))

instance (request : Request) : Decidable (s.KeepsRequest params request) := by
  induction request using Request.casesOn <;> unfold KeepsRequest <;> infer_instance

instance : Decidable s.KeepsAdvance := by
  unfold KeepsAdvance
  split <;> infer_instance

instance (a : ReadAction) : Decidable (s.KeepsReads params a) := by
  cases a with
  | file a => induction a using Action.casesOn <;> unfold KeepsReads <;> infer_instance
  | start => exact instDecidableTrue
  | look => exact instDecidableTrue

end Reads

/-- A file with reads, from a file that has just been loaded. -/
def reading (params : Params) : Machine Reads ReadAction where
  init s := s.file.Loaded params ∧ s.readers = [] ∧ s.returned = []
  step s a := s.step params a

end Lchfs.File
