import Lchfs.File.Chunks

/-!
# Chunks do not depend on how the bytes arrive

`FastCdcChunker` keeps the bytes that it has not cut yet, and cuts only while it holds as many as
the largest chunk can have. What FastCDC finds in them does not depend on what follows, so a
stream has the same chunks however it is split into pushes.
-/

namespace Lchfs.File

open Lchfs.Format (Bytes)
open Lchfs.Library.Layout
open List

/-- FastCDC on a buffer of at least the largest size: the cut is between the smallest and the
largest size, and depends on the bytes up to the largest size only. FastCDC takes no smallest
size below 64. -/
structure FastCdc extends Chunker where
  minSize : Nat
  minSize_pos : 0 < minSize
  cutpoint_ge : ∀ buf, maxSize ≤ buf.length → minSize ≤ cutpoint buf
  cutpoint_le_maxSize : ∀ buf, maxSize ≤ buf.length → cutpoint buf ≤ maxSize
  cutpoint_append : ∀ buf more, maxSize ≤ buf.length → cutpoint (buf ++ more) = cutpoint buf

structure ChunkBoundary where
  offset : Nat
  len : Nat
  deriving DecidableEq

/-- The bytes that are not cut yet, and the place of the first of them in the stream. -/
structure FastCdcChunker where
  buffer : Bytes
  baseOffset : Nat

/-- The boundaries of consecutive chunks. -/
def boundariesOf (start : Nat) (pieces : List Bytes) : List ChunkBoundary :=
  (offsets start pieces).map fun piece ↦ ⟨piece.1, piece.2.length⟩

namespace FastCdcChunker

variable (cdc : FastCdc) (c : FastCdcChunker)

def new : FastCdcChunker :=
  ⟨[], 0⟩

def push (data : Bytes) : List ChunkBoundary × FastCdcChunker :=
  let pieces := cdc.push (c.buffer ++ data)
  (boundariesOf c.baseOffset pieces.1, ⟨pieces.2, c.baseOffset + pieces.1.flatten.length⟩)

def finish : Option ChunkBoundary × FastCdcChunker :=
  if c.buffer = [] then (none, c)
  else (some ⟨c.baseOffset, c.buffer.length⟩, ⟨[], c.baseOffset + c.buffer.length⟩)

/-- The boundaries of a stream that arrives in these pushes. -/
def boundaries : List Bytes → FastCdcChunker → List ChunkBoundary
  | [], c => c.finish.1.toList
  | data :: pushes, c => (c.push cdc data).1 ++ boundaries pushes (c.push cdc data).2

end FastCdcChunker

/-! ## One push -/

theorem Chunker.cut_nil (chunker : Chunker) (fuel : Nat) : chunker.cut fuel [] = ([], []) := by
  have hnone : chunker.cutpoint [] = 0 := Nat.le_zero.1 (chunker.cutpoint_le [])
  cases fuel <;> simp [Chunker.cut, hnone]

/-- Rounds past the length of the buffer change nothing. -/
theorem Chunker.cut_eq_cut (chunker : Chunker) {fuel fuel' : Nat} {buf : Bytes} (h : buf.length ≤ fuel)
    (h' : buf.length ≤ fuel') : chunker.cut fuel buf = chunker.cut fuel' buf := by
  induction fuel generalizing fuel' buf with
  | zero => rw [length_eq_zero_iff.1 (Nat.le_zero.1 h), cut_nil, cut_nil]
  | succ _ ih =>
    cases fuel' with
    | zero => rw [length_eq_zero_iff.1 (Nat.le_zero.1 h'), cut_nil, cut_nil]
    | succ fuel' =>
      rw [Chunker.cut, Chunker.cut]
      split_ifs with hcut
      · have hdrop := length_drop (i := chunker.cutpoint buf) (l := buf)
        rw [ih (by omega) (show _ ≤ fuel' by omega)]
      · rfl

namespace FastCdc

variable {cdc : FastCdc} {buf : Bytes}

theorem push_of_lt (h : buf.length < cdc.maxSize) : cdc.push buf = ([], buf) := by
  cases buf with
  | nil => rfl
  | cons => rw [Chunker.push, length_cons, Chunker.cut, if_neg (by omega)]

/-- A buffer with enough bytes is cut, and the rest is pushed again. -/
theorem push_of_le (h : cdc.maxSize ≤ buf.length) : cdc.push buf =
    (buf.take (cdc.cutpoint buf) :: (cdc.push (buf.drop (cdc.cutpoint buf))).1,
      (cdc.push (buf.drop (cdc.cutpoint buf))).2) := by
  have hpos := cdc.minSize_pos.trans_le (cdc.cutpoint_ge buf h)
  have hle := cdc.cutpoint_le buf
  rw [Chunker.push, cdc.cut_eq_cut (Nat.le_refl _) (Nat.le_succ _), Chunker.cut, if_pos ⟨h, by omega⟩,
    Chunker.push, cdc.cut_eq_cut (by rw [length_drop]; omega) (Nat.le_refl _)]

/-- The chunks of a push are finished: more bytes only go on from what is left. -/
theorem push_append (buf more : Bytes) : cdc.push (buf ++ more) =
    ((cdc.push buf).1 ++ (cdc.push ((cdc.push buf).2 ++ more)).1, (cdc.push ((cdc.push buf).2 ++ more)).2) := by
  induction hn : buf.length using Nat.strong_induction_on generalizing buf with
  | _ n ih =>
    by_cases h : cdc.maxSize ≤ buf.length
    · have hpos := cdc.minSize_pos.trans_le (cdc.cutpoint_ge buf h)
      have hle := cdc.cutpoint_le buf
      have hrest := ih _ (by rw [length_drop]; omega) (buf.drop (cdc.cutpoint buf)) rfl
      rw [push_of_le (h.trans (by simp)), cdc.cutpoint_append buf more h, take_append_of_le_length hle,
        drop_append_of_le_length hle, hrest, push_of_le h]
      rfl
    · rw [push_of_lt (Nat.not_le.1 h)]
      rfl

/-- Every chunk that is cut has an allowed size, and less than the largest size is left. -/
theorem push_sizes (buf : Bytes) : (cdc.push buf).2.length < cdc.maxSize ∧
    ∀ piece ∈ (cdc.push buf).1, cdc.minSize ≤ piece.length ∧ piece.length ≤ cdc.maxSize := by
  induction hn : buf.length using Nat.strong_induction_on generalizing buf with
  | _ n ih =>
    by_cases h : cdc.maxSize ≤ buf.length
    · have hge := cdc.cutpoint_ge buf h
      have hmax := cdc.cutpoint_le_maxSize buf h
      have hpos := cdc.minSize_pos
      obtain ⟨hleft, hpieces⟩ := ih _ (by rw [length_drop]; omega) (buf.drop (cdc.cutpoint buf)) rfl
      rw [push_of_le h]
      refine ⟨hleft, forall_mem_cons.2 ⟨?_, hpieces⟩⟩
      rw [length_take]
      omega
    · rw [push_of_lt (Nat.not_le.1 h)]
      exact ⟨Nat.not_le.1 h, by simp⟩

/-- All chunks of a stream: those that are cut, and what is left. -/
def chunks (cdc : FastCdc) (buf : Bytes) : List Bytes :=
  (cdc.push buf).1 ++ if (cdc.push buf).2 = [] then [] else [(cdc.push buf).2]

theorem chunks_append (buf more : Bytes) :
    cdc.chunks (buf ++ more) = (cdc.push buf).1 ++ cdc.chunks ((cdc.push buf).2 ++ more) := by
  rw [chunks, push_append, chunks, append_assoc]

theorem flatten_chunks (buf : Bytes) : (cdc.chunks buf).flatten = buf := by
  have hpush := cdc.push_flatten buf
  rw [chunks]
  split_ifs with hnil
  · simpa [hnil] using hpush
  · simpa using hpush

end FastCdc

/-! ## Streams -/

namespace FastCdcChunker

variable {cdc : FastCdc} {c : FastCdcChunker}

/-- The boundaries follow one another from `start` to `stop`. -/
def Tiles : Nat → List ChunkBoundary → Nat → Prop
  | start, [], stop => start = stop
  | start, b :: bs, stop => b.offset = start ∧ Tiles (start + b.len) bs stop

theorem boundariesOf_append (start : Nat) (pieces more : List Bytes) : boundariesOf start (pieces ++ more) =
    boundariesOf start pieces ++ boundariesOf (start + pieces.flatten.length) more := by
  induction pieces generalizing start with
  | nil => rfl
  | cons piece _ ih =>
    have hrest := ih (start + piece.length)
    simp only [boundariesOf, cons_append, offsets, map_cons, flatten_cons, length_append, ← Nat.add_assoc] at hrest ⊢
    rw [hrest]

theorem tiles_boundariesOf (start : Nat) (pieces : List Bytes) :
    Tiles start (boundariesOf start pieces) (start + pieces.flatten.length) := by
  induction pieces generalizing start with
  | nil => rfl
  | cons _ _ ih =>
    rw [flatten_cons, length_append, ← Nat.add_assoc]
    exact ⟨rfl, ih _⟩

theorem len_of_mem_boundariesOf {start : Nat} {pieces : List Bytes} {P : Nat → Prop} (h : ∀ piece ∈ pieces, P piece.length) :
    ∀ b ∈ boundariesOf start pieces, P b.len := by
  induction pieces generalizing start with
  | nil => simp [boundariesOf, offsets]
  | cons _ _ ih =>
    rw [forall_mem_cons] at h
    exact forall_mem_cons.2 ⟨h.1, ih h.2⟩

/-- However the bytes arrive, the boundaries are those of the stream. -/
theorem boundaries_eq (pushes : List Bytes) (hleft : c.buffer.length < cdc.maxSize) :
    boundaries cdc pushes c = boundariesOf c.baseOffset (cdc.chunks (c.buffer ++ pushes.flatten)) := by
  induction pushes generalizing c with
  | nil =>
    rw [boundaries, finish, flatten_nil, append_nil, FastCdc.chunks, cdc.push_of_lt hleft]
    split_ifs <;> rfl
  | cons _ _ ih =>
    rw [flatten_cons, ← append_assoc, cdc.chunks_append, boundariesOf_append, boundaries, ih (cdc.push_sizes _).1]
    rfl

end FastCdcChunker

end Lchfs.File
