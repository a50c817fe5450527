import Lchfs.File.State

/-!
# Chunk lists and the bytes they stand for

A chunk list stands for the bytes that its chunks give when they are placed over zeros. Appended
pieces extend the bytes, a rechunk gives back the contents, an append session is its chunk list
and the pending tail, and a read of a range gives the range of the bytes.
-/

namespace Lchfs.File

open Lchfs.Format (Bytes ChunkRef)
open Lchfs.Library.Layout
open List hiding range

/-! ## The chunker -/

theorem Chunker.cut_flatten (chunker : Chunker) (fuel : Nat) (buf : Bytes) :
    (chunker.cut fuel buf).1.flatten ++ (chunker.cut fuel buf).2 = buf := by
  induction fuel generalizing buf with
  | zero => rfl
  | succ _ ih =>
    rw [Chunker.cut]
    split_ifs
    · simp only [flatten_cons, append_assoc, ih, take_append_drop]
    · rfl

theorem Chunker.push_flatten (chunker : Chunker) (buf : Bytes) :
    (chunker.push buf).1.flatten ++ (chunker.push buf).2 = buf :=
  chunker.cut_flatten buf.length buf

/-! ## Sorted chunk lists -/

variable {chunks refs : List ChunkRef} {bytes more : Bytes} {n : Nat}
variable {buf : Bytes} {start stop : Nat} {pieces : List Bytes}

@[simp]
theorem length_zeros : (zeros n).length = n :=
  length_replicate

theorem zeros_add {m : Nat} : zeros (m + n) = zeros m ++ zeros n :=
  (replicate_append_replicate).symm

@[simp]
theorem piecesOf_refsOf {pieces : List (Nat × Bytes)} : piecesOf (refsOf pieces) = pieces := by
  simp [piecesOf, refsOf, Function.comp_def]

theorem placeChunks_append : placeChunks (chunks ++ refs) buf = placeChunks refs (placeChunks chunks buf) := by
  rw [placeChunks, piecesOf, map_append, place_append]
  rfl

theorem chunksEnd_le : chunksEnd chunks ≤ n ↔ ∀ c ∈ chunks, c.logicalOffset + c.len ≤ n := by
  induction chunks with
  | nil => simp [chunksEnd]
  | cons c _ ih => simpa [chunksEnd] using fun _ ↦ ih

theorem chunksEnd_append : chunksEnd (chunks ++ refs) = max (chunksEnd chunks) (chunksEnd refs) := by
  induction chunks with
  | nil => simp [chunksEnd]
  | cons c chunks ih =>
    have hih : foldr max 0 ((chunks ++ refs).map fun c ↦ c.logicalOffset + c.len) =
      max (chunksEnd chunks) (chunksEnd refs) := ih
    simp only [chunksEnd, cons_append, map_cons, foldr_cons] at hih ⊢
    omega

/-- The chunks come in the order of their offsets and do not overlap. -/
def Ordered (chunks : List ChunkRef) : Prop :=
  chunks.Pairwise fun c d ↦ c.logicalOffset + c.len ≤ d.logicalOffset

theorem sorted_iff : Sorted chunks ↔ (∀ c ∈ chunks, c.len = c.contentHash.length) ∧ Ordered chunks := by
  induction chunks with
  | nil => simp [Sorted, Ordered]
  | cons c _ ih =>
    rw [Sorted, ih, Ordered, Ordered, pairwise_cons, forall_mem_cons]
    tauto

theorem sorted_append : Sorted (chunks ++ refs) ↔ Sorted chunks ∧ Sorted refs ∧
    ∀ c ∈ chunks, ∀ d ∈ refs, c.logicalOffset + c.len ≤ d.logicalOffset := by
  rw [sorted_iff, sorted_iff, sorted_iff, Ordered, pairwise_append, forall_mem_append]
  tauto

theorem Sorted.len_eq (h : Sorted chunks) : ∀ c ∈ chunks, c.len = c.contentHash.length :=
  (sorted_iff.1 h).1

theorem Sorted.ordered (h : Sorted chunks) : Ordered chunks :=
  (sorted_iff.1 h).2

theorem within_piecesOf (hsorted : Sorted chunks) (h : chunksEnd chunks ≤ n) : Within n (piecesOf chunks) := by
  intro _ hmem
  obtain ⟨c, hc, rfl⟩ := mem_map.1 hmem
  rw [← hsorted.len_eq c hc]
  exact chunksEnd_le.1 h c hc

theorem le_of_mem_offsets {piece : Nat × Bytes} (h : piece ∈ offsets start pieces) : start ≤ piece.1 := by
  induction pieces generalizing start with
  | nil => simp [offsets] at h
  | cons p _ ih =>
    rw [offsets, mem_cons] at h
    rcases h with rfl | h
    · exact Nat.le_refl _
    · have := ih h
      omega

/-- Consecutive pieces, some of them left out, are sorted. -/
theorem sorted_refsOf_filter {p : Nat × Bytes → Bool} : Sorted (refsOf ((offsets start pieces).filter p)) := by
  induction pieces generalizing start with
  | nil => trivial
  | cons _ _ ih =>
    rw [offsets, filter_cons]
    split_ifs
    · refine ⟨rfl, fun d hd ↦ ?_, ih⟩
      obtain ⟨_, hnext, rfl⟩ := mem_map.1 hd
      exact le_of_mem_offsets (mem_of_mem_filter hnext)
    · exact ih

theorem sorted_refsOf : Sorted (refsOf (offsets start pieces)) := by
  have hall : (offsets start pieces).filter (fun _ ↦ true) = offsets start pieces := by simp
  rw [← hall]
  exact sorted_refsOf_filter

theorem chunksEnd_refsOf_le {pieces : List (Nat × Bytes)} : chunksEnd (refsOf pieces) ≤ n ↔ Within n pieces := by
  rw [chunksEnd_le, refsOf, forall_mem_map]
  rfl

/-! ## The bytes of a chunk list -/

/-- The chunk list stands for these bytes. -/
structure Lists (chunks : List ChunkRef) (bytes : Bytes) : Prop where
  sorted : Sorted chunks
  stop : chunksEnd chunks ≤ bytes.length
  place : placeChunks chunks (zeros bytes.length) = bytes

namespace Lists

theorem within (h : Lists chunks bytes) : Within bytes.length (piecesOf chunks) :=
  within_piecesOf h.sorted h.stop

/-- In a longer buffer the bytes are followed by zeros. -/
theorem place_add (h : Lists chunks bytes) : placeChunks chunks (zeros (bytes.length + n)) = bytes ++ zeros n := by
  have hplace : placeChunks chunks (zeros bytes.length ++ zeros n) =
      placeChunks chunks (zeros bytes.length) ++ zeros n :=
    place_append_buf (by simpa using h.within)
  rw [zeros_add, hplace, h.place]

/-- Pieces that follow the bytes are listed after them. -/
theorem append (h : Lists chunks bytes) (pieces : List Bytes) :
    Lists (chunks ++ refsOf (offsets bytes.length pieces)) (bytes ++ pieces.flatten) where
  sorted := by
    refine sorted_append.2 ⟨h.sorted, sorted_refsOf, fun c hc d hd ↦ ?_⟩
    obtain ⟨_, hpiece, rfl⟩ := mem_map.1 hd
    exact (chunksEnd_le.1 h.stop c hc).trans (le_of_mem_offsets hpiece)
  stop := by
    have hpieces := chunksEnd_refsOf_le.2 (within_offsets bytes.length pieces)
    have hchunks := h.stop
    rw [chunksEnd_append, length_append]
    omega
  place := by
    have hoffsets := place_offsets (z := (0 : UInt8)) (a := bytes) (c := []) pieces
    simp only [append_nil] at hoffsets
    rw [placeChunks_append, length_append, h.place_add, placeChunks, piecesOf_refsOf]
    exact hoffsets

/-- A session's chunk list and its pending tail. -/
theorem assemble (h : Lists chunks bytes) (pending : Bytes) :
    assembleSessionContents chunks pending (bytes ++ pending).length = bytes ++ pending := by
  have hstop := h.stop
  have htotal : max (bytes ++ pending).length (chunksEnd chunks + pending.length) = bytes.length + pending.length := by
    rw [length_append]
    omega
  have hmiddle := copyInto_middle (a := bytes) (b := zeros pending.length) (c := []) pending (by simp)
  simp only [append_nil] at hmiddle
  simp only [assembleSessionContents, htotal, h.place_add, Nat.add_sub_cancel_right]
  exact hmiddle

end Lists

/-- A rechunked file is what it was cut from. -/
theorem lists_rechunk {params : Params} {contents : Bytes} (h : params.inlineThreshold < contents.length) :
    Lists (refsOf (rechunkPieces params contents)) contents := by
  set pieces := params.chunker.push contents with hpieces
  set all := pieces.1 ++ (if pieces.2 = [] then [] else [pieces.2]) with hall
  set kept : Nat × Bytes → Bool := fun piece ↦
    decide ¬(params.chunkMinSize ≤ piece.2.length ∧ piece.2.all (· = 0)) with hkept
  have hflatten : all.flatten = contents := by
    rw [hall, flatten_append]
    split_ifs with hnil
    · have hpush := params.chunker.push_flatten contents
      rw [← hpieces, hnil] at hpush
      simpa using hpush
    · simpa using params.chunker.push_flatten contents
  have hrechunk : rechunkPieces params contents = (offsets 0 all).filter kept := by
    rw [rechunkPieces, if_neg (by omega)]
  rw [hrechunk]
  refine ⟨sorted_refsOf_filter, ?_, ?_⟩
  · rw [chunksEnd_refsOf_le, ← hflatten]
    intro piece hmem
    simpa using within_offsets 0 all piece (mem_of_mem_filter hmem)
  · have hplace := place_offsets_filter (z := (0 : UInt8)) (p := kept) (a := []) (c := []) all
      fun _ xs _ hdropped ↦ by
        have hzeros : ∀ x ∈ xs, x = 0 := by
          simp only [hkept, decide_eq_false_iff_not, not_not, all_eq_true, decide_eq_true_eq] at hdropped
          exact hdropped.2
        exact eq_replicate_iff.2 ⟨rfl, hzeros⟩
    simpa [placeChunks, hflatten, zeros] using hplace

/-! ## Reading a range -/

theorem sliceOf_eq_range {offset len : Nat} :
    sliceOf buf offset len = range (min offset buf.length) (min (min offset buf.length + len) buf.length) buf := rfl

theorem copyRange_eq {c : ChunkRef} (hlen : c.len = c.contentHash.length) (hstop : stop ≤ buf.length) :
    copyRange start stop (range start stop buf) c = range start stop (copyInto buf c.logicalOffset c.contentHash) := by
  rw [range_copyInto hstop, copyRange]
  simp only [hlen, Nat.min_self]
  have hhi : min (min stop (c.logicalOffset + c.contentHash.length) - c.logicalOffset) c.contentHash.length =
      min stop (c.logicalOffset + c.contentHash.length) - c.logicalOffset := by omega
  rw [hhi]
  split_ifs with hskip
  · -- the range has nothing of a chunk that is skipped
    have hnil : range (max start c.logicalOffset - c.logicalOffset)
        (min stop (c.logicalOffset + c.contentHash.length) - c.logicalOffset) c.contentHash = [] := by
      rw [range, drop_eq_nil_iff, length_take]
      omega
    rw [hnil, copyInto_nil]
  · rfl

theorem foldl_copyRange (hlen : ∀ c ∈ chunks, c.len = c.contentHash.length) (hstop : stop ≤ buf.length) :
    chunks.foldl (copyRange start stop) (range start stop buf) = range start stop (placeChunks chunks buf) := by
  induction chunks generalizing buf with
  | nil => rfl
  | cons c _ ih =>
    rw [foldl_cons, copyRange_eq (hlen c mem_cons_self) hstop,
      ih (fun d hd ↦ hlen d (mem_cons_of_mem _ hd)) (by simpa using hstop)]
    rfl

/-- Chunks that end before the range, and those that start after it, leave it alone. -/
theorem foldl_copyRange_of_outside {out : Bytes}
    (h : ∀ c ∈ chunks, c.logicalOffset + c.len ≤ start ∨ stop ≤ c.logicalOffset) :
    chunks.foldl (copyRange start stop) out = out := by
  induction chunks with
  | nil => rfl
  | cons c _ ih =>
    have hskip : copyRange start stop out c = out := by
      have hc := h c mem_cons_self
      simp only [copyRange]
      rw [if_pos (by omega)]
    rw [foldl_cons, hskip, ih fun d hd ↦ h d (mem_cons_of_mem _ hd)]

/-- The chunks before the one the search finds end before the range. -/
theorem Ordered.take_before (h : Ordered chunks) :
    ∀ c ∈ chunks.take ((chunks.takeWhile (·.logicalOffset ≤ start)).length - 1), c.logicalOffset + c.len ≤ start := by
  induction chunks with
  | nil => simp
  | cons c chunks ih =>
    intro d hd
    obtain ⟨hfirst, hrest⟩ := pairwise_cons.1 h
    rw [takeWhile_cons] at hd
    split_ifs at hd with hc
    · simp only [length_cons, Nat.add_sub_cancel] at hd
      cases chunks with
      | nil => simp at hd
      | cons e =>
        rw [takeWhile_cons] at hd
        split_ifs at hd with he
        · simp only [length_cons, take_succ_cons, mem_cons] at hd
          rcases hd with rfl | hd
          · exact (hfirst e mem_cons_self).trans (by simpa using he)
          · refine ih hrest d ?_
            rw [takeWhile_cons, if_pos he]
            simpa using hd
        · simp at hd
    · simp at hd

/-- From the first chunk past the range on, all are. -/
theorem Ordered.dropWhile_after (h : Ordered chunks) :
    ∀ c ∈ chunks.dropWhile (·.logicalOffset < stop), stop ≤ c.logicalOffset := by
  induction chunks with
  | nil => simp
  | cons c _ ih =>
    intro d hd
    obtain ⟨hfirst, hrest⟩ := pairwise_cons.1 h
    rw [dropWhile_cons] at hd
    split_ifs at hd with hc
    · exact ih hrest d hd
    · simp only [decide_eq_true_eq, Nat.not_lt] at hc
      rcases mem_cons.1 hd with rfl | hd
      · exact hc
      · have := hfirst d hd
        omega

theorem Ordered.drop (h : Ordered chunks) (k : Nat) : Ordered (chunks.drop k) :=
  h.sublist (drop_sublist k chunks)

theorem range_zeros {size : Nat} (hstop : stop ≤ size) : range start stop (zeros size) = zeros (stop - start) := by
  simp only [range, zeros, take_replicate, drop_replicate]
  congr 1
  omega

/-- A range read is the range of the bytes. -/
theorem Sorted.readRangeFromChunks_eq (h : Sorted chunks) (size offset len : Nat) :
    readRangeFromChunks chunks size offset len = sliceOf (placeChunks chunks (zeros size)) offset len := by
  have hlength : (placeChunks chunks (zeros size)).length = size := by simp [placeChunks]
  simp only [readRangeFromChunks, sliceOf_eq_range, hlength]
  set start := min offset size
  set stop := min (start + len) size
  have hstop : stop ≤ size := Nat.min_le_right _ _
  set idx := (chunks.takeWhile (·.logicalOffset ≤ start)).length - 1
  split_ifs with hempty
  · symm
    rw [range, drop_eq_nil_iff, length_take]
    omega
  · calc ((chunks.drop idx).takeWhile (·.logicalOffset < stop)).foldl (copyRange start stop) (zeros (stop - start))
        = (chunks.drop idx).foldl (copyRange start stop) (zeros (stop - start)) := by
          conv_rhs => rw [← takeWhile_append_dropWhile (p := (·.logicalOffset < stop)) (l := chunks.drop idx),
            foldl_append]
          rw [foldl_copyRange_of_outside fun c hc ↦ .inr ((h.ordered.drop idx).dropWhile_after c hc)]
      _ = chunks.foldl (copyRange start stop) (zeros (stop - start)) := by
          conv_rhs => rw [← take_append_drop idx chunks, foldl_append]
          rw [foldl_copyRange_of_outside fun c hc ↦ .inl (h.ordered.take_before c hc)]
      _ = range start stop (placeChunks chunks (zeros size)) := by
          rw [← range_zeros hstop, foldl_copyRange h.len_eq (by simpa using hstop)]

end Lchfs.File
