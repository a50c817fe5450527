import Lchfs.Library.Layout
import Lchfs.Library.Machine
import Lchfs.Store.State

/-!
# One file

What the engine keeps for a regular file: the size and the content in its inode, an append
session, and the working state of the whole-file path. Chunk payloads are read without fail, so
the hash of a chunk stands for its bytes; a chunk list can be read back only once it is in the
meta stream. Other fields of the inode (times, mode, owner, link count) are left out.
-/

namespace Lchfs.File

open Lchfs.Format (Bytes ChunkRef IndirectHashList)
open Lchfs.Library.Layout
open Lchfs.Store (FileWorkingState IncrementalWriteState)

/-! ## Chunks -/

/-- `FastCdcChunker`: `cutpoint` is where FastCDC cuts a buffer of at least the largest size. -/
structure Chunker where
  maxSize : Nat
  cutpoint : Bytes → Nat
  cutpoint_le : ∀ buf, cutpoint buf ≤ buf.length

/-- The loop of `push`. -/
def Chunker.cut (chunker : Chunker) : Nat → Bytes → List Bytes × Bytes
  | 0, buf => ([], buf)
  | fuel + 1, buf =>
    if chunker.maxSize ≤ buf.length ∧ chunker.cutpoint buf ≠ 0 then
      let rest := chunker.cut fuel (buf.drop (chunker.cutpoint buf))
      (buf.take (chunker.cutpoint buf) :: rest.1, rest.2)
    else ([], buf)

/-- Cuts a buffer into finished chunks and what stays in the buffer. Every cut takes a byte at
least, so the buffer's length bounds the loop. -/
def Chunker.push (chunker : Chunker) (buf : Bytes) : List Bytes × Bytes :=
  chunker.cut buf.length buf

structure Params where
  inlineThreshold : Nat
  chunkMinSize : Nat
  maxFileSize : Nat
  chunker : Chunker

def refsOf (pieces : List (Nat × Bytes)) : List ChunkRef :=
  pieces.map fun piece ↦ ⟨piece.2, piece.1, piece.2.length⟩

def piecesOf (chunks : List ChunkRef) : List (Nat × Bytes) :=
  chunks.map fun c ↦ (c.logicalOffset, c.contentHash)

/-- Places each chunk at its own offset. -/
def placeChunks (chunks : List ChunkRef) (buf : Bytes) : Bytes :=
  place (piecesOf chunks) buf

def chunksEnd (chunks : List ChunkRef) : Nat :=
  (chunks.map fun c ↦ c.logicalOffset + c.len).foldr max 0

/-- The chunks do not overlap and come in the order of their offsets. -/
def Sorted : List ChunkRef → Prop
  | [] => True
  | c :: chunks => c.len = c.contentHash.length ∧ (∀ d ∈ chunks, c.logicalOffset + c.len ≤ d.logicalOffset) ∧
      Sorted chunks

/-- The pieces of a whole file. A chunk of zeros, at least as long as the smallest chunk, is left
out of the list as a hole. -/
def rechunkPieces (params : Params) (contents : Bytes) : List (Nat × Bytes) :=
  if contents.length ≤ params.inlineThreshold then []
  else
    let pieces := params.chunker.push contents
    let last := if pieces.2 = [] then [] else [pieces.2]
    (offsets 0 (pieces.1 ++ last)).filter fun piece ↦
      ¬(params.chunkMinSize ≤ piece.2.length ∧ piece.2.all (· = 0))

/-! ## Reads -/

/-- A buffer of zeros. -/
def zeros (n : Nat) : Bytes :=
  List.replicate n 0

/-- The pending tail goes to the end of the buffer. -/
def assembleSessionContents (chunks : List ChunkRef) (pending : Bytes) (size : Nat) : Bytes :=
  let total := max size (chunksEnd chunks + pending.length)
  copyInto (placeChunks chunks (zeros total)) (total - pending.length) pending

def sliceOf (buf : Bytes) (offset len : Nat) : Bytes :=
  let start := min offset buf.length
  range start (min (start + len) buf.length) buf

/-- Copies what one chunk has of the range from `start` to `stop`. -/
def copyRange (start stop : Nat) (out : Bytes) (c : ChunkRef) : Bytes :=
  let chunkEnd := c.logicalOffset + c.len
  let copyFrom := max start c.logicalOffset
  let copyTo := min stop chunkEnd
  let srcLo := copyFrom - c.logicalOffset
  let srcHi := min (copyTo - c.logicalOffset) (min c.contentHash.length c.len)
  if chunkEnd ≤ start ∨ copyTo ≤ copyFrom ∨ srcHi ≤ srcLo then out
  else copyInto out (copyFrom - start) (range srcLo srcHi c.contentHash)

/-- Reads a range from the chunks that overlap it, the first of them found by its offset. -/
def readRangeFromChunks (chunks : List ChunkRef) (size offset len : Nat) : Bytes :=
  let start := min offset size
  let stop := min (start + len) size
  if stop ≤ start then []
  else
    let idx := (chunks.takeWhile (·.logicalOffset ≤ start)).length - 1
    ((chunks.drop idx).takeWhile (·.logicalOffset < stop)).foldl (copyRange start stop)
      (zeros (stop - start))

/-! ## Requests -/

inductive FallocateMode
  | allocate (keepSize : Bool)
  | punchHole
  | zeroRange (keepSize : Bool)
  deriving DecidableEq

inductive Request
  | write (offset : Nat) (buf : Bytes)
  | setSize (newSize : Nat)
  | fallocate (offset len : Nat) (mode : FallocateMode)
  deriving DecidableEq

/-- `Vec::resize` with zeros. -/
def resize (contents : Bytes) (newSize : Nat) : Bytes :=
  contents.take newSize ++ zeros (newSize - contents.length)

/-- `fill(0)` of a range, cut off at the end. -/
def fillZero (contents : Bytes) (offset stop : Nat) : Bytes :=
  let lo := min offset contents.length
  let hi := min stop contents.length
  copyInto contents lo (zeros (hi - lo))

/-- What the whole-file path does to the working contents. -/
def Request.patch : Request → Bytes → Bytes
  | .write offset buf, contents =>
    let stop := offset + buf.length
    copyInto (if contents.length < stop then resize contents stop else contents) offset buf
  | .setSize newSize, contents => resize contents newSize
  | .fallocate offset len (.allocate keepSize), contents =>
    if contents.length < offset + len ∧ keepSize = false then resize contents (offset + len) else contents
  | .fallocate offset len .punchHole, contents => fillZero contents offset (offset + len)
  | .fallocate offset len (.zeroRange keepSize), contents =>
    fillZero (if contents.length < offset + len ∧ keepSize = false then resize contents (offset + len)
      else contents) offset (offset + len)

/-! ## The byte array -/

/-- The size of a plain byte array after a request. -/
def Request.modelSize : Request → Nat → Nat
  | .write offset buf, size => max size (offset + buf.length)
  | .setSize newSize, _ => newSize
  | .fallocate _ _ .punchHole, size => size
  | .fallocate offset len (.allocate keepSize), size | .fallocate offset len (.zeroRange keepSize), size =>
    if keepSize then size else max size (offset + len)

/-- A byte of the array after a request, given the bytes before it. -/
def Request.modelByte (bytes : Nat → UInt8) (i : Nat) : Request → UInt8
  | .write offset buf => if offset ≤ i ∧ i < offset + buf.length then buf.getD (i - offset) 0 else bytes i
  | .setSize _ | .fallocate _ _ (.allocate _) => bytes i
  | .fallocate offset len .punchHole | .fallocate offset len (.zeroRange _) =>
    if offset ≤ i ∧ i < offset + len then 0 else bytes i

/-- The plain byte array after a request; what it grows by is zero. -/
def Request.model (request : Request) (bytes : Bytes) : Bytes :=
  (List.range (request.modelSize bytes.length)).map fun i ↦ request.modelByte (bytes.getD · 0) i

/-! ## The state -/

/-- The content of a regular file's inode. -/
inductive Content
  | inline (bytes : Bytes)
  | chunkList (hash : IndirectHashList)
  deriving DecidableEq

/-- The operation that holds the inode's lock, named after what it does next. The commits of its
chunks leave no trace in the file, so they come with the step that follows them. -/
inductive Op
  | appending (added : Nat) (refs : List ChunkRef)
  | rechunking (refs : List ChunkRef)
  | touching (size : Nat)
  | fsyncing (sessionChunks : Option (List ChunkRef))
  | publishing (sessionChunks : Option (List ChunkRef)) (content : Content)
  | fsynced (hadSession : Bool)
  | capturing (sessionChunks : Option (List ChunkRef))
  | dropping (hadSession : Bool)
  | closing (hadSession : Bool)

/-- Whether an operation commits the chunks of an append. -/
def Op.isAppend : Op → Bool
  | .appending _ _ => true
  | _ => false

/-- Whether an operation commits the chunks of a request. -/
@[simp]
def Op.isRequest : Op → Bool
  | .appending _ _ | .rechunking _ => true
  | _ => false

/-- Whether an operation is the capture of a checkpoint. -/
@[simp]
def Op.isCapture : Op → Bool
  | .capturing _ | .dropping _ | .closing _ => true
  | _ => false

/-- A checkpoint, as far as this file sees it: whether it is in the work set, and whether its
content has been captured. -/
structure Checkpoint where
  work : Bool
  captured : Bool
  deriving DecidableEq

/-- `lists` are the chunk lists in the meta stream. The ghosts: `acked` is the byte array after
the acknowledged requests, `request` the one under way and `target` the array after it, `failed`
the last request if it failed, and `history` the arrays since a checkpoint's drain. -/
structure State where
  size : Nat
  content : Content
  lists : List IndirectHashList
  session : Option IncrementalWriteState
  working : Option FileWorkingState
  dirty : Bool
  op : Option Op
  checkpoint : Option Checkpoint
  published : Option (Content × Nat)
  acked : Bytes
  request : Option Request
  target : Bytes
  failed : Option Request
  history : List Bytes

namespace State

variable (s : State)

def readContent (offset len : Nat) : Option Bytes :=
  match s.content with
  | .inline bytes => some (sliceOf bytes offset len)
  | .chunkList hash =>
    if hash ∈ s.lists then some (readRangeFromChunks hash s.size offset len) else none

/-- A read that nothing overlaps. -/
def read (offset len : Nat) : Option Bytes :=
  match s.session, s.working with
  | some session, _ =>
    some (sliceOf (assembleSessionContents session.chunks session.pendingBytes s.size) offset len)
  | none, some state => some (sliceOf state.contents offset len)
  | none, none => s.readContent offset len

end State

end Lchfs.File
