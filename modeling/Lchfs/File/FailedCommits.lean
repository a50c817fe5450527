import Lchfs.File.Contents

/-!
# Requests whose commits fail

A request on the whole-file path has changed the working state by the time its chunks are
committed, so a reader sees a failed request's bytes. One that only extends the file leaves the
acknowledged bytes alone, and since a request changes nothing when it is repeated, its repetition
gives what it should have given. An append has taken acknowledged bytes out of the session by then.
-/

namespace Lchfs.File

open Lchfs.Format (Bytes ChunkRef)
open Lchfs.Library (Machine)
open Lchfs.Library.Layout

variable {request : Request}

/-- Requests that leave the bytes below the size as they are. -/
def Request.OnlyExtends (size : Nat) : Request → Prop
  | .write offset _ => size ≤ offset
  | .setSize newSize => size ≤ newSize
  | .fallocate _ _ (.allocate _) => True
  | .fallocate offset _ _ => size ≤ offset

instance (size : Nat) (request : Request) : Decidable (request.OnlyExtends size) := by
  unfold Request.OnlyExtends
  split <;> infer_instance

theorem modelSize_of_onlyExtends {size : Nat} (h : request.OnlyExtends size) : size ≤ request.modelSize size := by
  cases request with
  | write => exact Nat.le_max_left _ _
  | setSize => exact h
  | fallocate _ _ mode =>
    cases mode with
    | punchHole => exact Nat.le_refl _
    | allocate keepSize | zeroRange keepSize => cases keepSize <;> simp [Request.modelSize]

theorem modelByte_of_onlyExtends {size i : Nat} {bytes : Nat → UInt8}
    (h : request.OnlyExtends size) (hi : i < size) : request.modelByte bytes i = bytes i := by
  cases request with
  | write offset =>
    have hoffset : size ≤ offset := h
    simp only [Request.modelByte]
    rw [if_neg (by omega)]
  | setSize => rfl
  | fallocate offset _ mode =>
    cases mode with
    | allocate => rfl
    | punchHole | zeroRange =>
      have hoffset : size ≤ offset := h
      simp only [Request.modelByte]
      rw [if_neg (by omega)]

theorem prefix_model {bytes : Bytes} (h : request.OnlyExtends bytes.length) : bytes <+: request.model bytes := by
  rw [List.prefix_iff_eq_take]
  apply List.ext_getElem?
  intro i
  have hsize := modelSize_of_onlyExtends h
  by_cases hi : i < bytes.length
  · rw [List.getElem?_take_of_lt hi, getElem?_model, if_pos (by omega), modelByte_of_onlyExtends h hi,
      getElem?_of_lt hi]
  · rw [List.getElem?_eq_none (by omega), List.getElem?_eq_none (by simp; omega)]

/-- A range below the end of the first bytes is read from them. -/
theorem sliceOf_of_prefix {bytes longer : Bytes} (h : bytes <+: longer) {offset len : Nat}
    (hlen : offset + len ≤ bytes.length) : sliceOf longer offset len = sliceOf bytes offset len := by
  obtain ⟨rest, rfl⟩ := h
  have hle : offset + len ≤ (bytes ++ rest).length := by
    rw [List.length_append]
    omega
  simp only [sliceOf, range, Nat.min_eq_left (Nat.le_of_add_right_le hlen), Nat.min_eq_left hlen,
    Nat.min_eq_left (Nat.le_of_add_right_le hle), Nat.min_eq_left hle]
  rw [List.take_append_of_le_length hlen]

namespace State

variable {params : Params} {s t : State}

/-- A commit that fails belongs to a request on the whole-file path that only extends the file
(or to the tail of a session, for an fsync or a checkpoint); requests keep the file in order. -/
def FailsSafely (params : Params) (s : State) : Action → Prop
  | .request request => s.KeepsRequest params request
  | .fail => (∀ op ∈ s.op, op.isAppend = false) ∧ ∀ request ∈ s.request, request.OnlyExtends s.size
  | _ => True

instance (a : Action) : Decidable (s.FailsSafely params a) := by
  induction a using Action.casesOn <;> unfold FailsSafely <;> infer_instance

theorem FailsSafely.keepsBytes {a : Action} (h : s.FailsSafely params a) : s.KeepsBytes params a := by
  cases a with
  | request => exact h
  | fail => exact h.1
  | advance => trivial
  | beginFsync => trivial
  | setAttr => trivial
  | drain => trivial
  | beginCapture => trivial
  | snapshot => trivial
  | abortCheckpoint => trivial

/-- A failed request was on the whole-file path. -/
theorem fail_request (h : s.Holds params) (hkeeps : ∀ op ∈ s.op, op.isAppend = false)
    (hstep : s.fail = some t) (hfailed : t.failed = some request) :
    ∃ refs, s.Rechunking params refs ∧ s.request = some request ∧
      t = { s with op := none, failed := s.request, request := none } := by
  -- the tail of a session is committed only while no request has failed
  have htail : ∀ {chunks : List ChunkRef}, s.Stable params → some chunks = s.finalizeIncrementalSession →
      s.failed = none := by
    intro _ hstable hchunks
    obtain ⟨session, hsession⟩ := Option.isSome_iff_exists.1 (hstable.finalize hchunks).1
    exact (hstable.session session hsession).1
  have hsteps : s.Steps params .fail t := steps_of_fail hstep
  cases hsteps with
  | failAppend hop => exact absurd (hkeeps _ hop) (by simp [Op.isAppend])
  | failRechunk hop =>
    simp only [Holds, hop] at h
    exact ⟨_, h, hfailed, rfl⟩
  | failFsync hop | failCapture hop =>
    simp only [Holds, hop] at h
    exact absurd ((htail h.1 h.2).symm.trans hfailed) (by simp)

/-- The first step of a request on the whole-file path that finds the working state. -/
theorem beginRequest_of_working (hwhole : s.TakesWholeFile params request) (hop : s.op = none)
    (hsession : s.session = none) (hworking : s.working.isSome) :
    ∃ u refs, s.beginRequest params request = some u ∧ u.op = some (.rechunking refs) ∧
      u.target = request.model s.acked ∧ u.working.isSome := by
  obtain ⟨state, hstate⟩ := Option.isSome_iff_exists.1 hworking
  have hhydrate : s.hydrateFileState = some s := by simp [hydrateFileState, hstate]
  have hrechunk : s.materializeSessionIntoFileState.beginRechunk params request = some { s with
      dirty := true
      working := some { state with contents := request.patch state.contents }
      op := some (.rechunking (refsOf (rechunkPieces params (request.patch state.contents)))) } := by
    simp [beginRechunk, materialize_of_none hsession, hhydrate, hstate]
  have hvalid : request.isInvalid params = false := by
    cases request with
    | write => rfl
    | setSize => exact hwhole
    | fallocate => exact hwhole
  have hbegin : s.begin params request = s.materializeSessionIntoFileState.beginRechunk params request := by
    cases request with
    | write =>
      obtain ⟨hbuf, heligible, hsize⟩ := hwhole
      simp [begin, hbuf, beginWrite, hsession, beginFallback, heligible, Nat.not_lt.2 hsize,
        materialize_of_none hsession]
    | setSize => rfl
    | fallocate => rfl
  rw [beginRequest, if_neg (by simp [hvalid]), if_neg (by simp [hop]), hbegin, hrechunk]
  exact ⟨_, _, rfl, rfl, rfl, rfl⟩

/-- The rest of such a request. -/
theorem advance_rechunking (params : Params) {refs : List ChunkRef} (hop : s.op = some (.rechunking refs)) (hworking : s.working.isSome) :
    ∃ t u, s.advance params = some t ∧ t.advance params = some u ∧ u.op = none ∧ u.acked = s.target ∧
      u.failed = none := by
  obtain ⟨state, hstate⟩ := Option.isSome_iff_exists.1 hworking
  have hadvance : s.advance params = some { s with
      working := some { state with chunks := refs }, op := some (.touching state.contents.length) } := by
    simp [advance, hop, hstate]
  rw [hadvance]
  exact ⟨_, _, rfl, rfl, rfl, rfl, rfl⟩

section Runs

/-- Files of one byte are inline, and the chunker cuts after every two bytes. -/
def pairs : Params where
  inlineThreshold := 1
  chunkMinSize := 4
  maxFileSize := 16
  chunker :=
    { maxSize := 2
      cutpoint := fun buf ↦ min 2 buf.length
      cutpoint_le := fun _ ↦ Nat.min_le_right _ _ }

/-- A file that has just been created. -/
def created : State where
  size := 0
  content := .inline []
  lists := []
  session := none
  working := none
  dirty := true
  op := none
  checkpoint := none
  published := none
  acked := []
  request := none
  target := []
  failed := none
  history := []

theorem created_loaded : created.Loaded pairs :=
  ⟨rfl, rfl, rfl, rfl, rfl, rfl, rfl, Nat.zero_le _⟩

/-- The steps of a request that succeeds. -/
def writeRun (offset : Nat) (buf : Bytes) : List Action :=
  [.request (.write offset buf), .advance, .advance]

end Runs

end State

end Lchfs.File
