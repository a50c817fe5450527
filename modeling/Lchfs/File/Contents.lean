import Lchfs.File.Chunks
import Lchfs.File.Machine

/-!
# A file holds its byte array

Between operations the session, the working state or the content, whichever a read finds first,
holds the byte array of the acknowledged requests. While an operation is under way, what it has
prepared is the array after its request. A failed request that only extends the file leaves the
array it would have given in the working state.
-/

namespace Lchfs.File

open Lchfs.Format (Bytes ChunkRef)
open Lchfs.Library.Layout
open Lchfs.Store (FileWorkingState IncrementalWriteState)
open List Option

variable {bytes contents : Bytes} {i newSize : Nat} {p : Prop} {request : Request}

/-! ## The whole-file path follows the byte array -/

theorem getElem?_model :
    (request.model bytes)[i]? = if i < request.modelSize bytes.length then
      some (request.modelByte (bytes.getD · 0) i) else none := by
  rw [Request.model, getElem?_map]
  split_ifs with hi
  · rw [getElem?_range hi, map_some]
  · rw [getElem?_eq_none (by simpa using hi), map_none]

theorem length_model : (request.model bytes).length = request.modelSize bytes.length := by
  simp [Request.model]

theorem getElem?_of_lt (h : i < contents.length) : contents[i]? = some (contents.getD i 0) := by
  rw [getD_eq_getElem?_getD, getElem?_eq_getElem h, getD_some]

theorem getElem?_zeros {n : Nat} (h : i < n) : (zeros n)[i]? = some 0 :=
  getElem?_replicate_of_lt h

theorem getElem?_resize :
    (resize contents newSize)[i]? = if i < newSize then some (contents.getD i 0) else none := by
  rw [resize]
  split_ifs with hi
  · by_cases hlt : i < contents.length
    · rw [getElem?_append_left (by simp; omega), getElem?_take_of_lt hi, getElem?_of_lt hlt]
    · rw [getElem?_append_right (by simp; omega), getElem?_zeros (by simp; omega),
        getD_eq_getElem?_getD, getElem?_eq_none (by omega), getD_none]
  · exact getElem?_eq_none (by simp; omega)

theorem length_resize : (resize contents newSize).length = newSize := by
  simp [resize]
  omega

theorem getElem?_fillZero {offset stop : Nat} : (fillZero contents offset stop)[i]? =
      if offset ≤ i ∧ i < stop ∧ i < contents.length then some 0 else contents[i]? := by
  rw [fillZero, getElem?_copyInto, length_zeros]
  split_ifs with hin hin' hin'
  · rw [zeros, getElem?_replicate_of_lt (by omega)]
  · omega
  · omega
  · rfl

/-- Growing, as `write` and `fallocate` do it. -/
theorem getElem?_grow (contents : Bytes) (stop : Nat) [Decidable p] :
    (if contents.length < stop ∧ p then resize contents stop else contents)[i]? =
      if i < (if p then max contents.length stop else contents.length) then some (contents.getD i 0) else none := by
  by_cases hp : p
  · simp only [hp, and_true, if_true]
    split_ifs with hgrow hi hi
    · rw [getElem?_resize, if_pos (by omega)]
    · rw [getElem?_resize, if_neg (by omega)]
    · exact getElem?_of_lt (by omega)
    · exact getElem?_eq_none (by omega)
  · simp only [hp, and_false, if_false]
    split_ifs with hi
    · exact getElem?_of_lt hi
    · exact getElem?_eq_none (by omega)

theorem length_grow (contents : Bytes) (stop : Nat) [Decidable p] :
    (if contents.length < stop ∧ p then resize contents stop else contents).length =
      if p then max contents.length stop else contents.length := by
  by_cases hp : p
  · simp only [hp, and_true, if_true]
    split_ifs
    · rw [length_resize]
      omega
    · omega
  · simp [hp]

theorem patch_eq_model (request : Request) (contents : Bytes) : request.patch contents = request.model contents := by
  apply ext_getElem?
  intro i
  rw [getElem?_model]
  cases request with
  | write offset buf =>
    have hgrow := getElem?_grow contents (offset + buf.length) (i := i) (p := True)
    have hlength := length_grow contents (offset + buf.length) (p := True)
    simp only [and_true, if_true] at hgrow hlength
    simp only [Request.patch, Request.modelSize, Request.modelByte, getElem?_copyInto, hgrow, hlength]
    split_ifs with hin hsize hin' hsize hin'
    · exact getElem?_of_lt (by omega)
    · omega
    · omega
    · omega
    · rfl
    · rfl
  | setSize => exact getElem?_resize
  | fallocate _ _ mode =>
    cases mode with
    | allocate keepSize =>
      simp only [Request.patch, Request.modelSize, Request.modelByte, getElem?_grow]
      cases keepSize <;> simp
    | punchHole =>
      simp only [Request.patch, Request.modelSize, Request.modelByte, getElem?_fillZero]
      split_ifs with hin hsize hin' hsize hin'
      · rfl
      · omega
      · omega
      · omega
      · exact getElem?_of_lt hsize
      · exact getElem?_eq_none (by omega)
    | zeroRange keepSize =>
      simp only [Request.patch, Request.modelSize, Request.modelByte, getElem?_fillZero, getElem?_grow, length_grow]
      cases keepSize <;> simp only [Bool.false_eq_true, Bool.true_eq_false, if_true, if_false] <;>
        split_ifs <;> first | rfl | omega

/-- A write at the end appends. -/
theorem model_write_length (bytes buf : Bytes) : (Request.write bytes.length buf).model bytes = bytes ++ buf := by
  apply ext_getElem?
  intro i
  rw [getElem?_model]
  simp only [Request.modelSize, Request.modelByte]
  split_ifs with hsize hin
  · rw [getElem?_append_right hin.1, getElem?_of_lt (by omega)]
  · rw [getElem?_append_left (by omega), getElem?_of_lt (by omega)]
  · exact (getElem?_eq_none (by simp; omega)).symm

/-- To repeat a request changes nothing. -/
theorem model_model (request : Request) (bytes : Bytes) :
    request.model (request.model bytes) = request.model bytes := by
  have hsize : request.modelSize (request.modelSize bytes.length) = request.modelSize bytes.length := by
    cases request with
    | write => simp [Request.modelSize]
    | setSize => rfl
    | fallocate _ _ mode =>
      cases mode with
      | punchHole => rfl
      | allocate keepSize | zeroRange keepSize => cases keepSize <;> simp [Request.modelSize]
  apply ext_getElem?
  intro i
  rw [getElem?_model, getElem?_model, length_model, hsize]
  split_ifs with hi
  · have hbyte : (request.model bytes).getD i 0 = request.modelByte (bytes.getD · 0) i := by
      rw [getD_eq_getElem?_getD, getElem?_model, if_pos hi, getD_some]
    congr 1
    cases request with
    | write =>
      simp only [Request.modelByte, hbyte]
      split_ifs <;> rfl
    | setSize => exact hbyte
    | fallocate _ _ mode =>
      cases mode with
      | allocate => exact hbyte
      | punchHole | zeroRange =>
        simp only [Request.modelByte, hbyte]
        split_ifs <;> rfl
  · rfl

/-! ## What holds the bytes -/

/-- An append session holds its chunk list and, after it, the pending bytes. -/
structure SessionHolds (params : Params) (session : IncrementalWriteState) (bytes : Bytes) : Prop where
  next : session.nextExpectedOffset = bytes.length
  large : params.inlineThreshold < bytes.length
  listed : ∃ listed, Lists session.chunks listed ∧ listed.length = session.baseOffset + session.cutOffset ∧
    bytes = listed ++ session.pendingBytes

/-- A working state holds its contents, and the chunk list of a large file. -/
structure WorkingHolds (params : Params) (state : FileWorkingState) (bytes : Bytes) : Prop where
  contents : state.contents = bytes
  chunks : params.inlineThreshold < bytes.length → Lists state.chunks bytes

/-- A content that stands for these bytes. -/
def Content.Encodes (params : Params) (bytes : Bytes) : Content → Prop
  | .inline inlined => inlined = bytes ∧ bytes.length ≤ params.inlineThreshold
  | .chunkList hash => Lists hash bytes

/-- A content that can be read back. -/
def Content.Holds (params : Params) (lists : List (List ChunkRef)) (bytes : Bytes) (content : Content) : Prop :=
  content.Encodes params bytes ∧ ∀ hash, content = .chunkList hash → hash ∈ lists

theorem SessionHolds.assemble {params : Params} {session : IncrementalWriteState}
    (h : SessionHolds params session bytes) :
    assembleSessionContents session.chunks session.pendingBytes bytes.length = bytes := by
  obtain ⟨_, hlisted, -, rfl⟩ := h.listed
  exact hlisted.assemble _

/-- What an append cuts off the pending bytes is listed after the chunks. -/
theorem SessionHolds.beginAppend {params : Params} {session : IncrementalWriteState}
    (h : SessionHolds params session bytes) (buf : Bytes) :
    ∃ listed, Lists (session.chunks ++ refsOf (offsets (session.baseOffset + session.cutOffset)
        (params.chunker.push (session.pendingBytes ++ buf)).1)) listed ∧
      listed.length = session.baseOffset + (session.cutOffset +
        (params.chunker.push (session.pendingBytes ++ buf)).1.flatten.length) ∧
      bytes ++ buf = listed ++ (params.chunker.push (session.pendingBytes ++ buf)).2 := by
  obtain ⟨_, hlisted, hlength, rfl⟩ := h.listed
  refine ⟨_, hlength ▸ hlisted.append _, ?_, ?_⟩
  · rw [length_append, hlength]
    omega
  · rw [append_assoc, append_assoc, params.chunker.push_flatten]

namespace State

variable {params : Params} {s t : State}
variable {offset : Nat} {session : IncrementalWriteState} {buf : Bytes} {refs : List ChunkRef} {a : Action}
  {chunks : List ChunkRef} {C : State → Action → Prop}

/-- What a reader finds between operations: after a failed request, the bytes it would have given. -/
def expected (s : State) : Bytes :=
  s.failed.elim s.acked (·.model s.acked)

/-- The requests that go down the whole-file path if there is no session. -/
def TakesWholeFile (params : Params) (s : State) : Request → Prop
  | .write offset buf => buf ≠ [] ∧ s.freshSessionEligible params offset = false ∧
      offset + buf.length ≤ params.maxFileSize
  | request => request.isInvalid params = false

/-- The file between operations. -/
structure Stable (params : Params) (s : State) : Prop where
  size : s.size = s.acked.length
  session : ∀ session, s.session = some session → s.failed = none ∧ SessionHolds params session s.acked
  working : s.session = none → ∀ state, s.working = some state →
    state.contents = s.expected ∧ (s.failed = none → WorkingHolds params state s.acked)
  content : s.session = none → s.working = none → s.failed = none ∧ s.content.Holds params s.lists s.acked
  retry : ∀ request, s.failed = some request → s.TakesWholeFile params request

theorem TakesWholeFile.not_refused (h : s.TakesWholeFile params request) :
    s.refuses params request = false := by
  cases request with
  | write => simp [refuses, Nat.not_lt.2 h.2.2]
  | setSize => exact h
  | fallocate => exact h

theorem expected_eq (h : s.failed = none) : s.expected = s.acked := by
  simp [expected, h]

theorem Loaded.stable (h : s.Loaded params) : s.Stable params := by
  obtain ⟨hsession, hworking, -, -, hfailed, hsize, hcontent⟩ := h
  refine ⟨hsize, by simp [hsession], by simp [hworking], fun _ _ ↦ ⟨hfailed, ?_⟩, by simp [hfailed]⟩
  cases hc : s.content with
  | inline =>
    rw [hc] at hcontent
    exact ⟨⟨hcontent.1, hcontent.1 ▸ hcontent.2⟩, by simp⟩
  | chunkList =>
    rw [hc] at hcontent
    obtain ⟨hmem, hsorted, hstop, hplace⟩ := hcontent
    refine ⟨⟨hsorted, hsize ▸ hstop, hsize ▸ hplace⟩, fun _ heq ↦ ?_⟩
    exact Content.chunkList.inj heq ▸ hmem

/-- A read between operations returns the range of the bytes. -/
theorem Stable.read (h : s.Stable params) (offset len : Nat) :
    s.read offset len = some (sliceOf s.expected offset len) := by
  unfold State.read
  split
  next session hsession =>
    obtain ⟨hfailed, hholds⟩ := h.session session hsession
    rw [h.size, hholds.assemble, expected_eq hfailed]
  next state hsession hworking => rw [(h.working hsession state hworking).1]
  next hsession hworking =>
    obtain ⟨hfailed, hholds⟩ := h.content hsession hworking
    rw [expected_eq hfailed]
    unfold readContent
    split
    next hc =>
      rw [hc] at hholds
      rw [hholds.1.1]
    next hash hc =>
      rw [hc] at hholds
      have hlists : Lists hash s.acked := hholds.1
      rw [if_pos (hholds.2 hash rfl), hlists.sorted.readRangeFromChunks_eq, h.size, hlists.place]

/-! ## Operations under way -/

/-- The first half of an append: with the chunks it commits, the session holds the target. -/
structure Appending (params : Params) (s : State) (added : Nat) (refs : List ChunkRef) : Prop where
  size : s.size = s.acked.length
  failed : s.failed = none
  large : params.inlineThreshold < s.acked.length
  added : s.acked.length + added = s.target.length
  session : ∃ session listed, s.session = some session ∧ session.nextExpectedOffset = s.acked.length ∧
    Lists (session.chunks ++ refs) listed ∧ listed.length = session.baseOffset + session.cutOffset ∧
    s.target = listed ++ session.pendingBytes

/-- The first half of a rechunk: the working state has the target already. -/
structure Rechunking (params : Params) (s : State) (refs : List ChunkRef) : Prop where
  size : s.size = s.acked.length
  session : s.session = none
  request : ∃ request, s.request = some request ∧ s.target = request.model s.acked ∧ s.TakesWholeFile params request
  working : ∃ state, s.working = some state ∧ state.contents = s.target
  refs : params.inlineThreshold < s.target.length → Lists refs s.target

/-- A request that has listed its chunks: only the size is missing. -/
structure Touching (params : Params) (s : State) (newSize : Nat) : Prop where
  size : s.size = s.acked.length
  next : newSize = s.target.length
  session : ∀ session, s.session = some session → SessionHolds params session s.target
  working : s.session = none → ∃ state, s.working = some state ∧ WorkingHolds params state s.target

/-- Past its data barrier, an fsync of a session has brought the working state up to date. -/
def Hydrated (params : Params) (s : State) : Prop :=
  s.session.isSome → ∃ state, s.working = some state ∧ WorkingHolds params state s.acked

def OpHolds (params : Params) (s : State) : Op → Prop
  | .appending added refs => s.Appending params added refs
  | .rechunking refs => s.Rechunking params refs
  | .touching size => s.Touching params size
  | .fsyncing sessionChunks | .capturing sessionChunks =>
    s.Stable params ∧ sessionChunks = s.finalizeIncrementalSession
  | .publishing sessionChunks content => s.Stable params ∧ sessionChunks.isSome = s.session.isSome ∧
      s.working.isSome ∧ s.Hydrated params ∧ (s.failed = none → content.Encodes params s.acked)
  | .fsynced hadSession => s.Stable params ∧ hadSession = s.session.isSome ∧ s.Hydrated params
  | .dropping hadSession => s.Stable params ∧ hadSession = s.session.isSome ∧
      (s.session.isSome → s.content.Holds params s.lists s.acked)
  | .closing hadSession => s.Stable params ∧ hadSession = s.session.isSome ∧
      (s.session.isSome → s.working = none ∧ s.content.Holds params s.lists s.acked)

/-- The file at any time. -/
def Holds (params : Params) (s : State) : Prop :=
  match s.op with
  | none => s.Stable params
  | some op => s.OpHolds params op

/-! ## Requests -/

/-- A write session as a write finds it, or as it opens one. -/
inductive Appends (params : Params) (s : State) (offset : Nat) : IncrementalWriteState → Prop
  | continued {session : IncrementalWriteState} (hsession : s.session = some session)
    (hnext : session.nextExpectedOffset = offset) : Appends params s offset session
  | fresh {chunks : List ChunkRef} (hsession : ∀ session, s.session = some session → session.nextExpectedOffset ≠ offset)
    (heligible : s.freshSessionEligible params offset = true)
    (hchunks : s.materializeSessionIntoFileState.currentChunksForNewSession = some chunks) :
    Appends params s offset ⟨offset, 0, offset, chunks, []⟩

/-- The session is gone in any case once a write has looked at it; only the working state differs. -/
theorem materialize_eq : ∃ working, s.materializeSessionIntoFileState = { s with session := none, working := working } := by
  unfold materializeSessionIntoFileState
  split
  next hsession => exact ⟨s.working, by rw [← hsession]⟩
  next _ _ => exact ⟨_, rfl⟩

theorem hydrate_eq (h : s.hydrateFileState = some t) : ∃ state, t = { s with working := some state } := by
  unfold hydrateFileState at h
  split at h
  next state hworking => exact ⟨state, by rw [← some.inj h, ← hworking]⟩
  · exact ⟨_, (some.inj h).symm⟩
  next =>
    obtain ⟨-, h⟩ := ite_none_right_eq_some.1 h
    exact ⟨_, (some.inj h).symm⟩

/-- What a request has done when it first gives way: nothing, the end of a session and a refusal,
the first half of an append, or the first half of a rechunk. -/
inductive Begun (params : Params) (s : State) (request : Request) : State → Prop
  | unchanged : Begun params s request s
  | refused (hrefuses : s.refuses params request = true) :
    Begun params s request s.materializeSessionIntoFileState
  | append {offset : Nat} {buf : Bytes} {session : IncrementalWriteState} (hrequest : request = .write offset buf)
    (happends : Appends params s offset session) (working : Option FileWorkingState)
    (hworking : s.session = none ∨ s.continues offset = true → working = s.working) :
    Begun params s request { { s with working := working }.beginAppend params session buf with
      request := some request, target := request.model s.acked }
  | rechunk {u : State} (state : FileWorkingState)
    (hwhole : s.TakesWholeFile params request)
    (hhydrate : s.materializeSessionIntoFileState.hydrateFileState = some u) (hworking : u.working = some state) :
    Begun params s request { u with
      dirty := true
      working := some { state with contents := request.patch state.contents }
      op := some (.rechunking (refsOf (rechunkPieces params (request.patch state.contents))))
      request := some request
      target := request.model s.acked }

theorem beginRechunk_begun (request : Request) (hwhole : s.TakesWholeFile params request)
    (h : s.materializeSessionIntoFileState.beginRechunk params request = some t) : s.Begun params request
      { t with request := some request, target := request.model s.acked } ∧ t.op.isSome := by
  obtain ⟨u, hhydrate, h⟩ := bind_eq_some_iff.1 h
  obtain ⟨state, hworking, rfl⟩ := map_eq_some_iff.1 h
  exact ⟨.rechunk (u := u) state hwhole hhydrate hworking, rfl⟩

theorem freshSessionEligible_materialize :
    s.materializeSessionIntoFileState.freshSessionEligible params offset = s.freshSessionEligible params offset := by
  obtain ⟨_, heq⟩ := materialize_eq (s := s)
  rw [heq]
  rfl

theorem op_materialize : s.materializeSessionIntoFileState.op = s.op := by
  obtain ⟨_, heq⟩ := materialize_eq (s := s)
  rw [heq]

theorem isSome_op_beginAppend : (s.beginAppend params session buf).op.isSome = true := rfl

theorem materialize_of_none (h : s.session = none) : s.materializeSessionIntoFileState = s := by
  simp [materializeSessionIntoFileState, h]

theorem beginFallback_begun (hop : s.op = none) (hbuf : buf ≠ [])
    (hsession : ∀ session, s.session = some session → session.nextExpectedOffset ≠ offset)
    (h : s.materializeSessionIntoFileState.beginFallback params offset buf = some t) :
    s.Begun params (.write offset buf) (if t.op.isSome then
      { t with request := some (.write offset buf), target := (Request.write offset buf).model s.acked } else t) := by
  unfold beginFallback at h
  rw [freshSessionEligible_materialize] at h
  split_ifs at h with heligible hlarge
  · obtain ⟨_, hchunks, rfl⟩ := map_eq_some_iff.1 h
    obtain ⟨working, heq⟩ := materialize_eq (s := s)
    rw [if_pos isSome_op_beginAppend, heq]
    refine .append rfl (.fresh hsession heligible hchunks) working fun hkept ↦ ?_
    rcases hkept with hnone | hcontinues
    · have hsame := heq.symm.trans (materialize_of_none hnone)
      exact congrArg State.working hsame
    · cases hs : s.session with
      | none => simp [continues, hs] at hcontinues
      | some session => exact absurd (by simpa [continues, hs] using hcontinues) (hsession session hs)
  · cases h
    rw [op_materialize, hop]
    refine .refused ?_
    have hcontinues : s.continues offset = false := by
      cases hs : s.session with
      | none => simp [continues, hs]
      | some session => simpa [continues, hs] using hsession session hs
    simp [refuses, hbuf, hcontinues, heligible, hlarge]
  · obtain ⟨hbegun, hsome⟩ := beginRechunk_begun (.write offset buf)
      ⟨hbuf, by simpa using heligible, Nat.not_lt.1 hlarge⟩ h
    rw [if_pos hsome]
    exact hbegun

theorem begun_of_beginRequest (h : s.beginRequest params request = some t) :
    s.Begun params request t := by
  unfold beginRequest at h
  split_ifs at h with hinvalid hop
  · cases h
    exact .unchanged
  have hop : s.op = none := by simpa using hop
  obtain ⟨u, hu, rfl⟩ := map_eq_some_iff.1 h
  cases request with
  | write =>
    simp only [begin] at hu
    split_ifs at hu with hbuf
    · cases hu
      simp only [hop, isSome_none, Bool.false_eq_true, if_false]
      exact .unchanged
    · unfold beginWrite at hu
      split at hu
      next hsession =>
        refine beginFallback_begun hop hbuf (by simp [hsession]) ?_
        rwa [materialize_of_none hsession]
      next hsession =>
        split_ifs at hu with hnext
        · cases hu
          rw [if_pos isSome_op_beginAppend]
          exact .append rfl (.continued hsession hnext) s.working fun _ ↦ rfl
        · refine beginFallback_begun hop hbuf (fun _ heq ↦ ?_) hu
          rwa [← some.inj (hsession.symm.trans heq)]
  | setSize | fallocate =>
    obtain ⟨_, hsome⟩ := beginRechunk_begun _ (by simpa [TakesWholeFile] using hinvalid) hu
    rwa [if_pos hsome]

/-- The session of an append holds the acknowledged bytes. -/
theorem Stable.appends (h : s.Stable params)
    (hfailed : s.failed = none) (happends : s.Appends params offset session) :
    offset = s.acked.length ∧ SessionHolds params session s.acked := by
  cases happends with
  | continued hsession hnext =>
    have hholds := (h.session session hsession).2
    exact ⟨hnext ▸ hholds.next, hholds⟩
  | @fresh chunks hother heligible hchunks =>
    obtain ⟨hoffset, hlarge⟩ : offset = s.size ∧ params.inlineThreshold < s.size := by
      simpa [freshSessionEligible] using heligible
    have hsession : s.session = none := by
      cases hs : s.session with
      | none => rfl
      | some session => exact absurd ((h.session session hs).2.next.trans h.size.symm) (hoffset ▸ hother session hs)
    rw [h.size] at hoffset hlarge
    rw [materialize_of_none hsession] at hchunks
    have hlists : Lists chunks s.acked := by
      unfold currentChunksForNewSession at hchunks
      split at hchunks
      next state hworking =>
        cases hchunks
        exact ((h.working hsession state hworking).2 hfailed).chunks hlarge
      next hworking hcontent =>
        obtain ⟨-, ⟨⟩⟩ := ite_none_right_eq_some.1 hchunks
        have hholds := (h.content hsession hworking).2
        rw [hcontent] at hholds
        exact hholds.1
      next hworking hcontent =>
        have hholds := (h.content hsession hworking).2
        rw [hcontent] at hholds
        exact absurd hholds.1.2 (Nat.not_le.2 hlarge)
    exact ⟨hoffset, ⟨hoffset, hlarge, s.acked, hlists, by simpa using hoffset.symm, by simp⟩⟩

/-- The working state that the whole-file path starts from. -/
theorem Stable.hydrate (h : s.Stable params) (ht : s.materializeSessionIntoFileState.hydrateFileState = some t) :
    ∃ state, t = { s with session := none, working := some state } ∧ state.contents = s.expected := by
  cases hsession : s.session with
  | some session =>
    obtain ⟨hfailed, hholds⟩ := h.session session hsession
    simp only [materializeSessionIntoFileState, hsession, hydrateFileState] at ht
    refine ⟨_, (some.inj ht).symm, ?_⟩
    rw [expected_eq hfailed, h.size, hholds.assemble]
  | none =>
    rw [materialize_of_none hsession] at ht
    unfold hydrateFileState at ht
    split at ht
    next state hworking =>
      refine ⟨state, ?_, (h.working hsession state hworking).1⟩
      rw [← some.inj ht, ← hsession, ← hworking]
    next bytes hworking hcontent =>
      obtain ⟨hfailed, hholds⟩ := h.content hsession hworking
      rw [hcontent] at hholds
      refine ⟨⟨bytes, []⟩, ?_, hholds.1.1.trans (expected_eq hfailed).symm⟩
      rw [← some.inj ht, ← hsession]
    next hash hworking hcontent =>
      obtain ⟨hfailed, hholds⟩ := h.content hsession hworking
      rw [hcontent] at hholds
      obtain ⟨-, ht⟩ := ite_none_right_eq_some.1 ht
      refine ⟨_, (some.inj ht).symm.trans (by rw [← hsession]), ?_⟩
      have hlists : Lists hash s.acked := hholds.1
      rw [expected_eq hfailed, h.size, hlists.place]

/-- A write that is refused when no bytes are pending. -/
theorem Stable.materialize (h : s.Stable params)
    (hpending : ∀ session ∈ s.session, session.pendingBytes = []) :
    s.materializeSessionIntoFileState.Stable params := by
  cases hsession : s.session with
  | none => rwa [materialize_of_none hsession]
  | some session =>
    obtain ⟨hfailed, hholds⟩ := h.session session hsession
    obtain ⟨_, hlisted, -, hbytes⟩ := hholds.listed
    rw [hpending session hsession, append_nil] at hbytes
    have hassemble : assembleSessionContents session.chunks session.pendingBytes s.size = s.acked := by
      rw [h.size, hholds.assemble]
    simp only [materializeSessionIntoFileState, hsession]
    refine ⟨h.size, by simp, fun _ _ hstate ↦ ?_, by simp, h.retry⟩
    cases hstate
    exact ⟨hassemble.trans (expected_eq hfailed).symm, fun _ ↦ ⟨hassemble, fun _ ↦ hbytes ▸ hlisted⟩⟩

/-- The condition under which a request leaves the file in order: a write that is refused finds
no pending bytes, and after a failed request the next one that is not refused repeats it. -/
def KeepsRequest (params : Params) (s : State) (request : Request) : Prop :=
  (s.refuses params request = true → ∀ session ∈ s.session, session.pendingBytes = []) ∧
    (s.failed = none ∨ s.failed = some request ∨ s.refuses params request = true)

instance (request : Request) : Decidable (s.KeepsRequest params request) :=
  inferInstanceAs (Decidable (_ ∧ _))

/-- A write that appends is not the repetition of a failed request, and it is not refused. -/
theorem Stable.failed_of_appends (h : s.Stable params)
    (happends : s.Appends params offset session) (hkeeps : s.KeepsRequest params (.write offset buf)) :
    s.failed = none := by
  cases happends with
  | continued hsession => exact (h.session session hsession).1
  | fresh _ heligible =>
    rcases hkeeps.2 with hfailed | hfailed | hrefuses
    · exact hfailed
    · simp [(h.retry _ hfailed).2.1] at heligible
    · simp [refuses, heligible] at hrefuses

theorem Begun.holds (hbegun : s.Begun params request t) (hop : s.op = none)
    (h : s.Stable params) (hkeeps : s.KeepsRequest params request) : t.Holds params := by
  cases hbegun with
  | unchanged =>
    simp only [Holds, hop]
    exact h
  | refused hrefuses =>
    simp only [Holds, op_materialize, hop]
    exact h.materialize (hkeeps.1 hrefuses)
  | @append _ buf _ hrequest happends =>
    have hfailed := h.failed_of_appends happends (hrequest ▸ hkeeps)
    obtain ⟨rfl, hholds⟩ := h.appends hfailed happends
    obtain ⟨listed, hlists, hlength, htarget⟩ := hholds.beginAppend buf
    have hmodel : request.model s.acked = s.acked ++ buf := hrequest ▸ model_write_length s.acked buf
    refine ⟨h.size, hfailed, hholds.large, ?_, _, listed, rfl, hholds.next, hlists, hlength, hmodel.trans htarget⟩
    change s.acked.length + buf.length = (request.model s.acked).length
    rw [hmodel, length_append]
  | @rechunk u state hwhole hhydrate hworking =>
    obtain ⟨state', rfl, hcontents⟩ := h.hydrate hhydrate
    obtain rfl : state' = state := some.inj hworking
    have htarget : request.patch state'.contents = request.model s.acked := by
      rw [patch_eq_model, hcontents]
      rcases hkeeps.2 with hfailed | hfailed | hrefused
      · rw [expected_eq hfailed]
      · simp [expected, hfailed, model_model]
      · simp [hwhole.not_refused] at hrefused
    refine ⟨h.size, rfl, ⟨request, rfl, rfl, hwhole⟩, ⟨_, rfl, htarget⟩, fun hlarge ↦ ?_⟩
    rw [htarget]
    exact lists_rechunk hlarge

/-! ## The steps of an operation -/

/-- The chunk list of a finalized session. -/
theorem Stable.finalize (h : s.Stable params)
    (hchunks : some chunks = s.finalizeIncrementalSession) :
    s.session.isSome ∧ Lists chunks s.acked := by
  obtain ⟨session, hsession, rfl⟩ := map_eq_some_iff.1 hchunks.symm
  refine ⟨isSome_of_eq_some hsession, ?_⟩
  obtain ⟨_, hlisted, hlength, hbytes⟩ := (h.session session hsession).2.listed
  rw [hbytes]
  split_ifs with hpending
  · simpa [hpending, refsOf] using hlisted
  · simpa [offsets, hlength] using hlisted.append [session.pendingBytes]

theorem session_of_finalize_none (h : none = s.finalizeIncrementalSession) : s.session = none := by
  simpa [finalizeIncrementalSession] using h.symm

/-- The acknowledgement of a request. -/
theorem Touching.stable (h : s.Touching params newSize) : Stable params { s with
    size := newSize, dirty := true, op := none, acked := s.target, request := none, failed := none,
    history := s.target :: s.history } where
  size := h.next
  session session hsession := ⟨rfl, h.session session hsession⟩
  working hsession state hworking := by
    obtain ⟨_, hstate', hholds⟩ := h.working hsession
    cases hstate'.symm.trans hworking
    exact ⟨hholds.contents, fun _ ↦ hholds⟩
  content hsession hworking := by
    obtain ⟨_, hstate, -⟩ := h.working hsession
    exact absurd (hstate.symm.trans hworking) (by simp)
  retry := by simp

/-- A change of the content and the working state while a session is there. -/
theorem Stable.of_session (h : s.Stable params) (hsession : s.session.isSome) {content : Content}
    {lists : List (List ChunkRef)} {working : Option FileWorkingState} {op : Option Op} :
    Stable params { s with content := content, lists := lists, working := working, op := op } := by
  have hnot : s.session ≠ none := isSome_iff_ne_none.1 hsession
  exact { h with working := fun hnone ↦ absurd hnone hnot, content := fun hnone ↦ absurd hnone hnot }

theorem Stable.hydrate_none (h : s.Stable params) (hsession : s.session = none) (ht : s.hydrateFileState = some t) :
    t.Stable params ∧ t.session = none ∧ t.working.isSome := by
  have hmaterialize := materialize_of_none hsession
  cases hworking : s.working with
  | some =>
    simp only [hydrateFileState, hworking, some.injEq] at ht
    subst ht
    exact ⟨h, hsession, by simp [hworking]⟩
  | none =>
    obtain ⟨hfailed, hholds⟩ := h.content hsession hworking
    obtain ⟨state, rfl, hcontents⟩ := h.hydrate (hmaterialize.symm ▸ ht)
    refine ⟨⟨h.size, by simp, fun _ _ hstate' ↦ ?_, by simp, h.retry⟩, rfl, rfl⟩
    cases hstate'
    refine ⟨hcontents, fun _ ↦ ⟨hcontents.trans (expected_eq hfailed), fun hlarge ↦ ?_⟩⟩
    cases hcontent : s.content with
    | inline =>
      rw [hcontent] at hholds
      exact absurd hholds.1.2 (Nat.not_le.2 hlarge)
    | chunkList hash =>
      rw [hcontent] at hholds
      simp only [hydrateFileState, hworking, hcontent, if_pos (hholds.2 hash rfl), some.injEq] at ht
      have hstate : state = ⟨placeChunks hash (zeros s.size), hash⟩ :=
        some.inj (congrArg State.working ht).symm
      exact hstate ▸ hholds.1

theorem contentRef_session : s.contentRef params (some chunks) = .chunkList chunks := by
  simp [contentRef]

/-- What a capture or an fsync encodes: the chunk list of a session, or the working state. -/
theorem Stable.contentRef_encodes (h : s.Stable params) (hfailed : s.failed = none)
    {sessionChunks : Option (List ChunkRef)} (hchunks : ∀ chunks ∈ sessionChunks, Lists chunks s.acked)
    (hworking : sessionChunks = none → s.session = none ∧ s.working.isSome) :
    (s.contentRef params sessionChunks).Encodes params s.acked := by
  cases sessionChunks with
  | some chunks =>
    rw [contentRef_session]
    exact hchunks chunks rfl
  | none =>
    obtain ⟨hsession, hsome⟩ := hworking rfl
    obtain ⟨state, hstate⟩ := isSome_iff_exists.1 hsome
    have hholds := (h.working hsession state hstate).2 hfailed
    simp only [contentRef, hstate, isSome_none, Bool.false_eq_true, false_or, none_or,
      map_some, getD_some, h.size]
    split_ifs with hlarge
    · exact hholds.chunks hlarge
    · exact ⟨hholds.contents, Nat.not_lt.1 hlarge⟩

theorem Appending.advance {added : Nat} (h : s.Appending params added refs)
    (hsession : s.session = some session) : Touching params { s with
      session := some { session with
        chunks := session.chunks ++ refs
        nextExpectedOffset := session.nextExpectedOffset + added }
      op := some (.touching (session.nextExpectedOffset + added)) } (session.nextExpectedOffset + added) := by
  obtain ⟨session', listed, hsession', hnext, hlists, hlength, htarget⟩ := h.session
  cases hsession.symm.trans hsession'
  have hsize : session.nextExpectedOffset + added = s.target.length := by rw [hnext, h.added]
  refine ⟨h.size, hsize, fun _ heq ↦ ?_, by simp⟩
  cases heq
  refine ⟨hsize, ?_, listed, hlists, hlength, htarget⟩
  have hlarge := h.large
  change params.inlineThreshold < s.target.length
  omega

theorem Rechunking.advance (h : s.Rechunking params refs) {state : FileWorkingState}
    (hworking : s.working = some state) : Touching params { s with
      working := some { state with chunks := refs }
      op := some (.touching state.contents.length) } state.contents.length := by
  obtain ⟨_, hworking', hcontents⟩ := h.working
  cases hworking.symm.trans hworking'
  refine ⟨h.size, by rw [hcontents], ?_, fun _ ↦ ⟨_, rfl, hcontents, h.refs⟩⟩
  intro _ hsession
  simp [h.session] at hsession

theorem Stable.close (h : s.Stable params) (hsession : s.session.isSome) {op : Option Op}
    {checkpoint : Option Checkpoint}
    (hworking : ∀ state, s.working = some state → WorkingHolds params state s.acked)
    (hcontent : s.working = none → s.content.Holds params s.lists s.acked) :
    Stable params { s with session := none, op := op, checkpoint := checkpoint } := by
  obtain ⟨session, hget⟩ := isSome_iff_exists.1 hsession
  have hfailed := (h.session session hget).1
  refine ⟨h.size, by simp, fun _ state hstate ↦ ?_, fun _ hnone ↦ ⟨hfailed, hcontent hnone⟩, h.retry⟩
  exact ⟨(hworking state hstate).contents.trans (expected_eq hfailed).symm, fun _ ↦ hworking state hstate⟩

theorem mem_insertList {lists : List (List ChunkRef)} {hash : List ChunkRef} :
    hash ∈ if hash ∈ lists then lists else hash :: lists := by
  split_ifs with hmem
  · exact hmem
  · exact mem_cons_self

theorem putContent_eq (s : State) (content : Content) : ∃ lists, s.putContent content = { s with content := content, lists := lists } := by
  cases content with
  | inline => exact ⟨s.lists, rfl⟩
  | chunkList => exact ⟨_, rfl⟩

theorem Holds.advance (h : s.Holds params) (hstep : s.advance params = some t) : t.Holds params := by
  obtain ⟨op, hop, hstep⟩ := bind_eq_some_iff.1 hstep
  simp only [Holds, hop] at h
  cases op with
  | appending =>
    obtain ⟨_, hsession, rfl⟩ := map_eq_some_iff.1 hstep
    exact Appending.advance h hsession
  | rechunking =>
    obtain ⟨_, hworking, rfl⟩ := map_eq_some_iff.1 hstep
    exact Rechunking.advance h hworking
  | touching =>
    cases hstep
    exact Touching.stable h
  | fsyncing sessionChunks =>
    obtain ⟨hstable, hchunks⟩ := h
    cases sessionChunks with
    | some =>
      obtain ⟨hsession, hlists⟩ := hstable.finalize hchunks
      cases hstep
      refine ⟨hstable.of_session hsession, hsession.symm, rfl,
        fun _ ↦ ⟨_, rfl, ?_, fun _ ↦ hlists⟩, fun _ ↦ ?_⟩
      · have hassemble := hlists.assemble []
        rwa [append_nil, ← hstable.size] at hassemble
      · rw [contentRef_session]
        exact hlists
    | none =>
      obtain ⟨u, hu, rfl⟩ := map_eq_some_iff.1 hstep
      obtain ⟨hstable', hsession, hworking⟩ := hstable.hydrate_none (session_of_finalize_none hchunks) hu
      refine ⟨{ hstable' with }, by simp [hsession], hworking, by simp [Hydrated, hsession], fun hfailed ↦ ?_⟩
      exact hstable'.contentRef_encodes hfailed (by simp) fun _ ↦ ⟨hsession, hworking⟩
  | publishing _ content =>
    obtain ⟨hstable, hsome, hworking, hhydrated, -⟩ := h
    cases hstep
    exact ⟨{ hstable with content := fun _ hnone ↦ absurd hnone (isSome_iff_ne_none.1 hworking) }, hsome, hhydrated⟩
  | fsynced =>
    obtain ⟨hstable, rfl, hhydrated⟩ := h
    cases hstep
    simp only [Holds]
    split_ifs with hsession
    · obtain ⟨_, hworking, hholds⟩ := hhydrated hsession
      refine hstable.close hsession (fun _ hstate' ↦ ?_) (by simp [hworking])
      exact some.inj (hworking.symm.trans hstate') ▸ hholds
    · exact { hstable with }
  | capturing sessionChunks =>
    obtain ⟨hstable, hchunks⟩ := h
    cases hstep
    cases sessionChunks with
    | some =>
      obtain ⟨hsession, hlists⟩ := hstable.finalize hchunks
      simp only [isSome_some, true_or, if_true, contentRef_session, putContent]
      refine ⟨hstable.of_session hsession, hsession.symm, fun _ ↦ ⟨hlists, fun _ heq ↦ ?_⟩⟩
      obtain rfl := Content.chunkList.inj heq
      exact mem_insertList
    | none =>
      have hsession := session_of_finalize_none hchunks
      simp only [isSome_none, Bool.false_eq_true, false_or]
      split_ifs with hworking
      · obtain ⟨_, heq⟩ := putContent_eq s (s.contentRef params none)
        rw [heq]
        exact ⟨{ hstable with content := fun _ hnone ↦ absurd hnone (isSome_iff_ne_none.1 hworking) }, by simp [hsession], by simp [hsession]⟩
      · exact ⟨{ hstable with }, by simp [hsession], by simp [hsession]⟩
  | dropping =>
    obtain ⟨hstable, rfl, hcontent⟩ := h
    cases hstep
    by_cases hsession : s.session.isSome
    · exact ⟨hstable.of_session hsession, rfl, fun _ ↦ ⟨by simp [hsession], hcontent hsession⟩⟩
    · simp only [hsession]
      exact ⟨{ hstable with }, by simp [hsession], fun hsome ↦ absurd hsome (by simpa using hsession)⟩
  | closing =>
    obtain ⟨hstable, rfl, hclosed⟩ := h
    cases hstep
    simp only [Holds, finishCapture]
    split_ifs with hsession
    · obtain ⟨hworking, hcontent⟩ := hclosed hsession
      exact hstable.close hsession (by simp [hworking]) fun _ ↦ hcontent
    · exact { hstable with }

/-! ## Runs -/

/-- The steps of a file, by what they leave behind. -/
inductive Steps (params : Params) (s : State) : Action → State → Prop
  | request {request : Request} {t : State} (hstep : s.beginRequest params request = some t) :
    Steps params s (.request request) t
  | advance {t : State} (hstep : s.advance params = some t) : Steps params s .advance t
  | failAppend {added : Nat} {refs : List ChunkRef} (hop : s.op = some (.appending added refs)) :
    Steps params s .fail { s with op := none, failed := s.request, request := none }
  | failRechunk {refs : List ChunkRef} (hop : s.op = some (.rechunking refs)) :
    Steps params s .fail { s with op := none, failed := s.request, request := none }
  | failFsync {chunks : List ChunkRef} (hop : s.op = some (.fsyncing (some chunks))) :
    Steps params s .fail { s with op := none }
  | failCapture {chunks : List ChunkRef} {c : Checkpoint} (hop : s.op = some (.capturing (some chunks)))
    (hc : s.checkpoint = some c) :
    Steps params s .fail { s with op := none, dirty := s.dirty || c.work, checkpoint := none }
  | fsync (hop : s.op = none) : Steps params s .beginFsync
      { s with dirty := true, op := some (.fsyncing s.finalizeIncrementalSession) }
  | capture (hop : s.op = none) : Steps params s .beginCapture
      { s with op := some (.capturing s.finalizeIncrementalSession) }
  | setAttr : Steps params s .setAttr { s with dirty := true }
  | drain (hnone : s.checkpoint = none) : Steps params s .drain
      { s with dirty := false, checkpoint := some ⟨s.dirty, false⟩, history := [s.acked] }
  | snapshot {c : Checkpoint} (hc : s.checkpoint = some c) (hcaptured : c.work → c.captured) :
    Steps params s .snapshot { s with published := some (s.content, s.size), checkpoint := none }
  | abort {c : Checkpoint} (hc : s.checkpoint = some c) :
    Steps params s .abortCheckpoint { s with dirty := s.dirty || c.work, checkpoint := none }

theorem steps_of_fail (hstep : s.fail = some t) : s.Steps params .fail t := by
  obtain ⟨_, hop, hstep⟩ := bind_eq_some_iff.1 hstep
  split at hstep
  next =>
    obtain ⟨-, ⟨⟩⟩ := ite_none_left_eq_some.1 hstep
    exact .failAppend hop
  next =>
    obtain ⟨-, ⟨⟩⟩ := ite_none_left_eq_some.1 hstep
    exact .failRechunk hop
  next =>
    obtain ⟨-, ⟨⟩⟩ := ite_none_left_eq_some.1 hstep
    exact .failFsync hop
  next =>
    obtain ⟨-, hstep⟩ := ite_none_left_eq_some.1 hstep
    obtain ⟨c, hc, rfl⟩ := map_eq_some_iff.1 hstep
    exact .failCapture hop hc
  · simp at hstep

theorem steps_of_step (hstep : s.step params a = some t) : s.Steps params a t := by
  cases a with
  | request => exact .request hstep
  | advance => exact .advance hstep
  | fail => exact steps_of_fail hstep
  | beginFsync =>
    obtain ⟨hop, ⟨⟩⟩ := ite_none_left_eq_some.1 hstep
    exact .fsync (not_isSome_iff_eq_none.1 hop)
  | setAttr =>
    cases hstep
    exact .setAttr
  | drain =>
    obtain ⟨hnone, ⟨⟩⟩ := ite_none_left_eq_some.1 hstep
    exact .drain (not_isSome_iff_eq_none.1 hnone)
  | beginCapture =>
    obtain ⟨⟨hop, -⟩, ⟨⟩⟩ := ite_none_right_eq_some.1 hstep
    exact .capture (isNone_iff_eq_none.1 hop)
  | snapshot =>
    obtain ⟨c, hc, hstep⟩ := bind_eq_some_iff.1 hstep
    obtain ⟨hcaptured, ⟨⟩⟩ := ite_none_right_eq_some.1 hstep
    exact .snapshot hc hcaptured
  | abortCheckpoint =>
    obtain ⟨-, hstep⟩ := ite_none_left_eq_some.1 hstep
    obtain ⟨c, hc, rfl⟩ := map_eq_some_iff.1 hstep
    exact .abort hc

/-- The dirty mark and the checkpoint are not part of what holds the bytes. -/
theorem Holds.bookkeeping (h : s.Holds params) (dirty : Bool) (checkpoint : Option Checkpoint)
    (published : Option (Content × Nat)) (history : List Bytes) : Holds params { s with
      dirty := dirty, checkpoint := checkpoint, published := published, history := history } := by
  unfold Holds at h ⊢
  dsimp only
  cases hop : s.op with
  | none =>
    rw [hop] at h
    exact { h with }
  | some op =>
    rw [hop] at h
    cases op with
    | appending added refs => exact { (h : s.Appending params added refs) with }
    | rechunking refs => exact { (h : s.Rechunking params refs) with }
    | touching newSize => exact { (h : s.Touching params newSize) with }
    | fsyncing | capturing | publishing | fsynced | dropping | closing => exact ⟨{ h.1 with }, h.2⟩

theorem Rechunking.fail (h : s.Rechunking params refs) :
    Stable params { s with op := none, failed := s.request, request := none } := by
  obtain ⟨_, hrequest, htarget, hwhole⟩ := h.request
  obtain ⟨_, hworking, hcontents⟩ := h.working
  refine ⟨h.size, by simp [h.session], fun _ _ hstate' ↦ ?_, by simp [hworking], fun _ hretry ↦ ?_⟩
  · cases hworking.symm.trans hstate'
    exact ⟨by simp [expected, hrequest, hcontents, htarget], by simp [hrequest]⟩
  · exact some.inj (hrequest.symm.trans hretry) ▸ hwhole

/-- The condition under which a step leaves the file in order. -/
def KeepsBytes (params : Params) (s : State) : Action → Prop
  | .request request => s.KeepsRequest params request
  | .fail => ∀ op ∈ s.op, op.isAppend = false
  | _ => True

theorem Holds.beginRequest (h : s.Holds params) (hkeeps : s.KeepsRequest params request)
    (hstep : s.beginRequest params request = some t) : t.Holds params := by
  cases hop : s.op with
  | none =>
    simp only [Holds, hop] at h
    exact (begun_of_beginRequest hstep).holds hop h hkeeps
  | some =>
    -- only a request that is turned down at once gets by while another operation has the lock
    unfold State.beginRequest at hstep
    split_ifs at hstep with hinvalid hsome
    · exact some.inj hstep ▸ h
    · simp [hop] at hsome

theorem Holds.step (h : s.Holds params) (hkeeps : s.KeepsBytes params a)
    (hstep : s.step params a = some t) : t.Holds params := by
  cases steps_of_step hstep with
  | request hstep => exact h.beginRequest hkeeps hstep
  | advance hstep => exact h.advance hstep
  | failAppend hop => exact absurd (hkeeps _ hop) (by simp [Op.isAppend])
  | failRechunk hop =>
    simp only [Holds, hop] at h
    exact Rechunking.fail h
  | failFsync hop | failCapture hop =>
    simp only [Holds, hop] at h
    exact { h.1 with }
  | fsync hop | capture hop =>
    simp only [Holds, hop] at h
    exact ⟨{ h with }, rfl⟩
  | setAttr => exact h.bookkeeping true s.checkpoint s.published s.history
  | drain => exact h.bookkeeping false _ s.published _
  | snapshot => exact h.bookkeeping s.dirty none _ s.history
  | abort => exact h.bookkeeping _ none s.published s.history

theorem Loaded.holds (h : s.Loaded params) : s.Holds params := by
  simp only [Holds, h.2.2.1]
  exact h.stable

/-- The file refines its byte array: whatever is interleaved, it holds the array of the requests
acknowledged so far. -/
theorem holds_of_reachable (hC : ∀ s a, C s a → s.KeepsBytes params a)
    (hs : (file params).ReachableUnder C s) : s.Holds params :=
  hs.invariant (I := Holds params) (fun _ (h : Loaded params _) ↦ h.holds)
    fun _ _ _ _ h hkeeps hstep ↦ h.step (hC _ _ hkeeps) hstep

/-! ## Runs in which no request fails -/

/-- No commit of a request fails, and a write that is refused finds no pending bytes. -/
def KeepsClean (params : Params) (s : State) : Action → Prop
  | .request request => s.refuses params request = true → ∀ session ∈ s.session, session.pendingBytes = []
  | .fail => ∀ op ∈ s.op, op.isRequest = false
  | _ => True

instance (a : Action) : Decidable (s.KeepsClean params a) := by
  cases a <;> unfold KeepsClean <;> infer_instance

/-- The file holds its byte array and no request has failed. -/
def Clean (params : Params) (s : State) : Prop :=
  s.Holds params ∧ s.failed = none

theorem KeepsClean.keepsBytes (h : s.KeepsClean params a) (hfailed : s.failed = none) : s.KeepsBytes params a := by
  cases a with
  | request => exact ⟨h, .inl hfailed⟩
  | fail =>
    intro op hop
    have hrequest := h op hop
    cases op with
    | appending => simp at hrequest
    | _ => rfl
  | _ => trivial

theorem failed_begun (h : s.Begun params request t) : t.failed = s.failed := by
  cases h with
  | unchanged => rfl
  | refused =>
    obtain ⟨_, heq⟩ := materialize_eq (s := s)
    rw [heq]
  | append => rfl
  | rechunk state _ hhydrate =>
    obtain ⟨_, heq⟩ := materialize_eq (s := s)
    obtain ⟨_, rfl⟩ := hydrate_eq hhydrate
    rw [heq]

theorem failed_advance (h : s.advance params = some t) (hfailed : s.failed = none) : t.failed = none := by
  obtain ⟨_, -, h⟩ := bind_eq_some_iff.1 h
  split at h
  next =>
    obtain ⟨_, -, rfl⟩ := map_eq_some_iff.1 h
    exact hfailed
  next =>
    obtain ⟨_, -, rfl⟩ := map_eq_some_iff.1 h
    exact hfailed
  · exact some.inj h ▸ rfl
  · exact some.inj h ▸ hfailed
  next =>
    obtain ⟨u, hu, rfl⟩ := map_eq_some_iff.1 h
    obtain ⟨_, rfl⟩ := hydrate_eq hu
    exact hfailed
  · exact some.inj h ▸ hfailed
  · exact some.inj h ▸ hfailed
  next sessionChunks =>
    cases h
    obtain ⟨_, heq⟩ := putContent_eq s (s.contentRef params sessionChunks)
    rw [heq]
    split_ifs <;> exact hfailed
  · exact some.inj h ▸ hfailed
  · exact some.inj h ▸ hfailed

theorem Clean.step (h : s.Clean params) (hkeeps : s.KeepsClean params a)
    (hstep : s.step params a = some t) : t.Clean params := by
  refine ⟨h.1.step (hkeeps.keepsBytes h.2) hstep, ?_⟩
  cases steps_of_step hstep with
  | request hstep => exact (failed_begun (begun_of_beginRequest hstep)).trans h.2
  | advance hstep => exact failed_advance hstep h.2
  | failAppend hop | failRechunk hop => simpa using hkeeps _ hop
  | _ => exact h.2

theorem Loaded.clean (h : s.Loaded params) : s.Clean params :=
  ⟨h.holds, h.2.2.2.2.1⟩

theorem clean_of_reachable (hC : ∀ s a, C s a → s.KeepsClean params a)
    (hs : (file params).ReachableUnder C s) : s.Clean params :=
  hs.invariant (I := Clean params) (fun _ (h : Loaded params _) ↦ h.clean)
    fun _ _ _ _ h hkeeps hstep ↦ h.step (hC _ _ hkeeps) hstep

end State

end Lchfs.File
