import Lchfs.File.FailedCommits

/-!
# Range reads and seeks

What `read_range_from_chunks` reads to serve a range, and `SEEK_DATA` and `SEEK_HOLE`: the gaps
of a chunk list are the holes of the file. A file whose content is in memory has no holes.
-/

namespace Lchfs.File

open Lchfs.Format (Bytes ChunkRef)
open Lchfs.Library.Layout
open List State Option

variable {chunks : List ChunkRef} {size offset len x : Nat} {c : ChunkRef}

/-! ## The chunks of a range -/

/-- The chunks whose payload `read_range_from_chunks` reads. -/
def chunksRead (chunks : List ChunkRef) (size offset len : Nat) : List ChunkRef :=
  let start := min offset size
  let stop := min (start + len) size
  if stop ≤ start then []
  else
    let idx := (chunks.takeWhile (·.logicalOffset ≤ start)).length - 1
    ((chunks.drop idx).takeWhile (·.logicalOffset < stop)).filter fun c ↦ start < c.logicalOffset + c.len

inductive SeekWhence
  | data
  | hole

/-- The end of a chunk. The addition saturates. -/
def chunkEnd (c : ChunkRef) : Nat :=
  min (c.logicalOffset + c.len) (2 ^ 64 - 1)

/-- The loop for data. -/
def seekData (size offset : Nat) : List ChunkRef → Option Nat
  | [] => none
  | c :: tail =>
    if chunkEnd c ≤ offset then seekData size offset tail
    else some (min (max c.logicalOffset offset) size)

/-- The loop for a hole, with the end of the run of chunks so far. -/
def seekHole (size : Nat) : Nat → List ChunkRef → Nat
  | cur, [] => min cur size
  | cur, c :: tail =>
    if chunkEnd c ≤ cur then seekHole size cur tail
    else if cur < c.logicalOffset then cur
    else seekHole size (chunkEnd c) tail

def seekInChunks (chunks : List ChunkRef) (size offset : Nat) (whence : SeekWhence) : Option Nat :=
  let startIdx := (chunks.takeWhile (·.logicalOffset ≤ offset)).length - 1
  let tail := chunks.drop startIdx
  match whence with
  | .data => seekData size offset tail
  | .hole => some (seekHole size offset tail)

def State.seek (s : State) (offset : Nat) (whence : SeekWhence) : Option (Option Nat) :=
  if s.size ≤ offset then some none
  else
    let onlyData := match whence with
      | .data => offset
      | .hole => s.size
    if s.session.isSome ∨ s.working.isSome then some (some onlyData)
    else match s.content with
      | .inline _ => some (some onlyData)
      | .chunkList hash => if hash ∈ s.lists then some (seekInChunks hash s.size offset whence) else none

/-- The offset lies in a chunk. -/
def InChunk (chunks : List ChunkRef) (x : Nat) : Prop :=
  ∃ c ∈ chunks, c.logicalOffset ≤ x ∧ x < c.logicalOffset + c.len

/-- A chunk list of a file of this size: its chunks come in order, have a byte and start in the file. -/
structure Fits (chunks : List ChunkRef) (size : Nat) : Prop where
  ordered : Ordered chunks
  pos : ∀ c ∈ chunks, 0 < c.len
  start : ∀ c ∈ chunks, c.logicalOffset < size

/-- A seek returns the first offset that is data, or that is a hole or past the end. -/
structure SeeksExactly (chunks : List ChunkRef) (size offset : Nat) : Prop where
  data : ∀ x ∈ seekInChunks chunks size offset .data, IsLeast {y | offset ≤ y ∧ InChunk chunks y} x
  noData : seekInChunks chunks size offset .data = none → ∀ y, offset ≤ y → ¬InChunk chunks y
  hole : ∃ x, seekInChunks chunks size offset .hole = some x ∧
    IsLeast {y | offset ≤ y ∧ (¬InChunk chunks y ∨ size ≤ y)} x

/-- What is between a hole and the next data, or the end of the file, reads as zeros. -/
def State.HolesReadZero (s : State) : Prop :=
  ∀ offset hole stop, s.seek offset .hole = some (some hole) →
    (s.seek hole .data = some (some stop) ∨ s.seek hole .data = some none ∧ stop = s.size) →
    ∀ i n, hole ≤ i → i + n ≤ stop → s.read i n = some (zeros n)

theorem inChunk_cons :
    InChunk (c :: chunks) x ↔ (c.logicalOffset ≤ x ∧ x < c.logicalOffset + c.len) ∨ InChunk chunks x := by
  simp [InChunk]

theorem fits_cons (h : Fits (c :: chunks) size) :
    (∀ y, InChunk chunks y → c.logicalOffset + c.len ≤ y) ∧ 0 < c.len ∧ c.logicalOffset < size ∧ Fits chunks size := by
  obtain ⟨hfirst, hordered⟩ := pairwise_cons.1 h.ordered
  refine ⟨fun y ⟨d, hd, hy⟩ ↦ (hfirst d hd).trans hy.1, h.pos c mem_cons_self, h.start c mem_cons_self, hordered, ?_, ?_⟩
  · exact fun d hd ↦ h.pos d (mem_cons_of_mem c hd)
  · exact fun d hd ↦ h.start d (mem_cons_of_mem c hd)

/-- The first chunk that ends after the offset has the first data. -/
theorem seekData_least (h : Fits chunks size) (hsize : size < 2 ^ 64) (hoffset : offset < size) :
    (∀ x ∈ seekData size offset chunks, IsLeast {y | offset ≤ y ∧ InChunk chunks y} x) ∧
      (seekData size offset chunks = none → ∀ y, offset ≤ y → ¬InChunk chunks y) := by
  induction chunks with
  | nil => simp [seekData, InChunk]
  | cons c chunks ih =>
    obtain ⟨hafter, hpos, hstart, hfits⟩ := fits_cons h
    rw [seekData]
    split_ifs with hend <;> rw [chunkEnd] at hend
    · have hskip : ∀ y, offset ≤ y → (InChunk (c :: chunks) y ↔ InChunk chunks y) := by
        intro y hy
        rw [inChunk_cons, or_iff_right (by omega)]
      obtain ⟨hsome, hnone⟩ := ih hfits
      refine ⟨fun x hx ↦ ?_, fun hfree y hy hin ↦ hnone hfree y hy ((hskip y hy).1 hin)⟩
      obtain ⟨⟨hle, hin⟩, hleast⟩ := hsome x hx
      exact ⟨⟨hle, (hskip x hle).2 hin⟩, fun y ⟨hy, hin⟩ ↦ hleast ⟨hy, (hskip y hy).1 hin⟩⟩
    · refine ⟨fun x hx ↦ ?_, by simp⟩
      cases hx
      refine ⟨⟨by omega, inChunk_cons.2 (.inl (by omega))⟩, fun y ⟨hy, hin⟩ ↦ ?_⟩
      have hle : c.logicalOffset ≤ y := by
        rcases inChunk_cons.1 hin with hin | hin
        · exact hin.1
        · exact (Nat.le_add_right _ _).trans (hafter y hin)
      omega

/-- The loop stops at the first offset that no chunk has. -/
theorem seekHole_least (h : Fits chunks size) (hsize : size < 2 ^ 64) (cur : Nat) :
    IsLeast {y | min cur size ≤ y ∧ (¬InChunk chunks y ∨ size ≤ y)} (seekHole size cur chunks) := by
  induction chunks generalizing cur with
  | nil => exact ⟨⟨Nat.le_refl _, .inl (by simp [InChunk])⟩, fun y hy ↦ hy.1⟩
  | cons c chunks ih =>
    obtain ⟨hafter, -, hstart, hfits⟩ := fits_cons h
    rw [seekHole]
    split_ifs with hend hgap
    · obtain ⟨⟨hle, hfree⟩, hleast⟩ := ih hfits cur
      rw [chunkEnd] at hend
      refine ⟨⟨hle, ?_⟩, fun y ⟨hy, hfree⟩ ↦ hleast ⟨hy, ?_⟩⟩
      · rw [inChunk_cons]
        by_cases hlt : size ≤ seekHole size cur chunks
        · exact .inr hlt
        · exact .inl fun hin ↦ hin.elim (by omega) (hfree.resolve_right hlt)
      · exact hfree.imp_left fun hin htail ↦ hin (inChunk_cons.2 (.inr htail))
    · refine ⟨⟨Nat.min_le_left _ _, .inl fun hin ↦ ?_⟩, fun y ⟨hy, _⟩ ↦ by omega⟩
      rcases inChunk_cons.1 hin with hin | hin
      · omega
      · have := hafter cur hin
        omega
    · obtain ⟨⟨hle, hfree⟩, hleast⟩ := ih hfits (chunkEnd c)
      rw [chunkEnd] at hend hle hleast hfree ⊢
      refine ⟨⟨by omega, ?_⟩, fun y ⟨hy, hfree⟩ ↦ hleast ⟨?_, ?_⟩⟩
      · rw [inChunk_cons]
        by_cases hlt : size ≤ seekHole size (min (c.logicalOffset + c.len) (2 ^ 64 - 1)) chunks
        · exact .inr hlt
        · exact .inl fun hin ↦ hin.elim (by omega) (hfree.resolve_right hlt)
      · rw [inChunk_cons] at hfree
        omega
      · exact hfree.imp_left fun hin htail ↦ hin (inChunk_cons.2 (.inr htail))

/-- The chunks in front of the one the search finds are skipped. -/
theorem seek_append {skipped : List ChunkRef} (h : ∀ c ∈ skipped, chunkEnd c ≤ x) (size : Nat) (chunks : List ChunkRef) :
    seekData size x (skipped ++ chunks) = seekData size x chunks ∧
      seekHole size x (skipped ++ chunks) = seekHole size x chunks := by
  induction skipped with
  | nil => exact ⟨rfl, rfl⟩
  | cons c _ ih =>
    rw [forall_mem_cons] at h
    rw [cons_append, seekData, if_pos h.1, seekHole, if_pos h.1]
    exact ih h.2

theorem seekInChunks_eq (h : Ordered chunks) (size offset : Nat) :
    seekInChunks chunks size offset .data = seekData size offset chunks ∧
      seekInChunks chunks size offset .hole = some (seekHole size offset chunks) := by
  set idx := (chunks.takeWhile (·.logicalOffset ≤ offset)).length - 1
  have hskip : ∀ c ∈ chunks.take idx, chunkEnd c ≤ offset :=
    fun c hc ↦ (Nat.min_le_left _ _).trans (h.take_before c hc)
  have hseek := seek_append hskip size (chunks.drop idx)
  rw [take_append_drop] at hseek
  rw [hseek.1, hseek.2]
  exact ⟨rfl, rfl⟩

theorem Fits.seeksExactly (h : Fits chunks size) (hsize : size < 2 ^ 64) (hoffset : offset < size) :
    SeeksExactly chunks size offset := by
  obtain ⟨hdata, hhole⟩ := seekInChunks_eq h.ordered size offset
  obtain ⟨hsome, hnone⟩ := seekData_least h hsize hoffset
  have hleast := seekHole_least h hsize offset
  rw [Nat.min_eq_left hoffset.le] at hleast
  rw [← hdata] at hsome hnone
  exact ⟨hsome, hnone, _, hhole, hleast⟩

/-! ## Holes read as zeros -/

theorem readRangeFromChunks_outside {i n : Nat} (hstop : i + n ≤ size)
    (h : ∀ c ∈ chunks, c.logicalOffset + c.len ≤ i ∨ i + n ≤ c.logicalOffset) :
    readRangeFromChunks chunks size i n = zeros n := by
  simp only [readRangeFromChunks, Nat.min_eq_left (show i ≤ size by omega), Nat.min_eq_left hstop, Nat.add_sub_cancel_left]
  split_ifs with hempty
  · obtain rfl : n = 0 := by omega
    rfl
  · exact foldl_copyRange_of_outside fun c hc ↦ h c (mem_of_mem_drop ((takeWhile_sublist _).subset hc))

theorem sliceOf_zero {buf : Bytes} : sliceOf buf offset 0 = [] := by
  simp [sliceOf_eq_range, Library.Layout.range]

namespace State

variable {s : State} {hole stop i n : Nat}

/-- A hole is found in the chunk list of a file that is not in memory, or it is the end. -/
theorem seek_hole_cases (h : s.seek offset .hole = some (some hole)) :
    offset < s.size ∧ (∀ i, s.read i 0 = some []) ∧ (hole = s.size ∨ ∃ hash, s.session = none ∧
      s.working = none ∧ s.content = .chunkList hash ∧ hash ∈ s.lists ∧
      seekInChunks hash s.size offset .hole = some hole) := by
  unfold seek at h
  split_ifs at h with hsize hmemory
  · simp at h
  · refine ⟨Nat.not_le.1 hsize, fun i ↦ ?_, .inl (some.inj (some.inj h)).symm⟩
    unfold read
    split <;> simp_all [sliceOf_zero]
  · rw [not_or, not_isSome_iff_eq_none, not_isSome_iff_eq_none] at hmemory
    dsimp only at h
    split at h
    next hcontent =>
      refine ⟨Nat.not_le.1 hsize, fun i ↦ ?_, .inl (some.inj (some.inj h)).symm⟩
      simp [read, hmemory, readContent, hcontent, sliceOf_zero]
    next hash hcontent =>
      obtain ⟨hmem, h⟩ := ite_none_right_eq_some.1 h
      refine ⟨Nat.not_le.1 hsize, fun i ↦ ?_, .inr ⟨hash, hmemory.1, hmemory.2, hcontent, hmem, some.inj h⟩⟩
      simp [read, hmemory, readContent, hcontent, hmem, readRangeFromChunks]

theorem holesReadZero (hfits : ∀ hash, s.content = .chunkList hash → Fits hash s.size) (hsize : s.size < 2 ^ 64) :
    s.HolesReadZero := by
  intro offset hole stop hhole hdata i n hi hn
  obtain ⟨hoffset, hread, hcases⟩ := seek_hole_cases hhole
  by_cases hzero : n = 0
  · rw [hzero]
    exact hread i
  · have hend : ¬s.size ≤ hole := by
      intro hend
      simp only [seek, if_pos hend, some.injEq, reduceCtorEq, false_or, true_and] at hdata
      omega
    obtain ⟨hash, hsession, hworking, hcontent, hmem, hseek⟩ := hcases.resolve_left (by omega)
    have hfit := hfits hash hcontent
    obtain ⟨x, hx, ⟨-, hfree⟩, -⟩ := (hfit.seeksExactly hsize hoffset).hole
    obtain rfl : hole = x := some.inj (hseek.symm.trans hx)
    have hexact := hfit.seeksExactly hsize (Nat.not_le.1 hend)
    have hnext : seekInChunks hash s.size hole .data = some stop ∨
        seekInChunks hash s.size hole .data = none ∧ stop = s.size := by
      simpa [seek, hsession, hworking, hcontent, hmem, hend] using hdata
    -- no offset from the hole to the next data is in a chunk
    have hgap : stop ≤ s.size ∧ ∀ y, hole ≤ y → y < stop → ¬InChunk hash y := by
      rcases hnext with hnext | ⟨hnext, rfl⟩
      · obtain ⟨⟨hle, c, hc, hin⟩, hleast⟩ := hexact.data stop hnext
        have hstart := hfit.start c hc
        have : stop ≤ max hole c.logicalOffset := hleast ⟨by omega, c, hc, by omega⟩
        exact ⟨by omega, fun y hy hlt hin ↦ absurd (hleast ⟨hy, hin⟩) (by omega)⟩
      · exact ⟨Nat.le_refl _, fun y hy _ ↦ hexact.noData hnext y hy⟩
    simp only [read, hsession, hworking, readContent, hcontent, if_pos hmem]
    rw [readRangeFromChunks_outside (hn.trans hgap.1) fun c hc ↦ ?_]
    have hpos := hfit.pos c hc
    by_contra hin
    exact hgap.2 (max i c.logicalOffset) (by omega) (by omega) ⟨c, hc, by omega⟩

end State

end Lchfs.File
