import Lchfs.File.FailedCommits
import Lchfs.Library.Simulation

/-!
# Requests that are refused

A write that is refused after all has ended the append session: its bytes are in the working
state, and so is its chunk list, which lacks the pending tail. If nothing was pending the file is
from then on in step with one that never saw the request. The next append opens a session where
the other one continues, a capture or an fsync encodes the same chunk list, and a rechunk starts
from the same bytes.
-/

namespace Lchfs.File

open Lchfs.Format (Bytes ChunkRef)
open Lchfs.Library
open Lchfs.Library.Layout
open Lchfs.Store (FileWorkingState IncrementalWriteState)
open List Option State

namespace State

variable {params : Params} {s t : State}
variable {session : IncrementalWriteState} {base cut : Nat} {working : Option FileWorkingState}
  {hash : List ChunkRef}

/-! ## Files in step -/

/-- A session that ends with the file and has nothing pending. -/
structure Ended (params : Params) (s : State) (session : IncrementalWriteState) : Prop where
  found : s.session = some session
  pending : session.pendingBytes = []
  next : session.nextExpectedOffset = s.size
  start : session.baseOffset + session.cutOffset = s.size
  large : params.inlineThreshold < s.size
  sorted : Sorted session.chunks
  stop : chunksEnd session.chunks ≤ s.size

/-- What the end of a session leaves in the working state. -/
def materialized (s : State) (session : IncrementalWriteState) : FileWorkingState :=
  ⟨assembleSessionContents session.chunks [] s.size, session.chunks⟩

/-- An operation on a session, and the same operation on the working state that replaced it. -/
inductive InStep (s : State) (session : IncrementalWriteState) : Option Op → Prop
  | idle (hop : s.op = none) : InStep s session none
  | fsyncing (hop : s.op = some (.fsyncing (some session.chunks))) : InStep s session (some (.fsyncing none))
  | publishing (hop : s.op = some (.publishing (some session.chunks) (.chunkList session.chunks)))
    (hworking : s.working = some (s.materialized session)) :
    InStep s session (some (.publishing none (.chunkList session.chunks)))
  | fsynced (hop : s.op = some (.fsynced true)) (hworking : s.working = some (s.materialized session)) :
    InStep s session (some (.fsynced false))
  | capturing (hop : s.op = some (.capturing (some session.chunks))) : InStep s session (some (.capturing none))
  | dropping (hop : s.op = some (.dropping true)) (hcontent : s.content = .chunkList session.chunks)
    (hlists : session.chunks ∈ s.lists) : InStep s session (some (.dropping false))
  | closing (hop : s.op = some (.closing true)) (hworking : s.working = none)
    (hcontent : s.content = .chunkList session.chunks) (hlists : session.chunks ∈ s.lists) :
    InStep s session (some (.closing false))

/-- The operations of a file with a session, and which of them need the working state. -/
inductive OnSession (working working' : Option FileWorkingState) : Option Op → Prop
  | idle : OnSession working working' none
  | appending {added : Nat} {refs : List ChunkRef} : OnSession working working' (some (.appending added refs))
  | touching {newSize : Nat} : OnSession working working' (some (.touching newSize))
  | fsyncing {chunks : List ChunkRef} : OnSession working working' (some (.fsyncing (some chunks)))
  | publishing {chunks : List ChunkRef} {content : Content} (h : working = working') :
    OnSession working working' (some (.publishing (some chunks) content))
  | fsynced (h : working = working') : OnSession working working' (some (.fsynced true))
  | capturing {chunks : List ChunkRef} : OnSession working working' (some (.capturing (some chunks)))
  | dropping : OnSession working working' (some (.dropping true))
  | closing (h : working = working') : OnSession working working' (some (.closing true))

/-- The operations that leave a file as it is: none, or one that only encodes it again. -/
inductive Encoding : Option Op → Prop
  | idle : Encoding none
  | fsyncing : Encoding (some (.fsyncing none))
  | capturing : Encoding (some (.capturing none))
  | dropping : Encoding (some (.dropping false))
  | closing : Encoding (some (.closing false))

/-- A file and the same file after a refused write. -/
inductive Same (params : Params) : State → State → Prop
  | refl (s : State) : Same params s s
  /-- The session has become a working state. -/
  | materialized {s : State} {session : IncrementalWriteState} {op : Option Op} (hended : s.Ended params session)
    (hop : s.InStep session op) :
    Same params s { s with session := none, working := some (s.materialized session), op := op }
  /-- Both have a session, cut off at the same offset. -/
  | resplit {s : State} (session : IncrementalWriteState) {base cut : Nat} {working : Option FileWorkingState}
    (hsession : s.session = some session) (hstart : base + cut = session.baseOffset + session.cutOffset)
    (hop : OnSession s.working working s.op) :
    Same params s { s with
      session := some { session with baseOffset := base, cutOffset := cut }, working := working }
  /-- The working state is what the content would be loaded as. -/
  | hydrated {s : State} {hash : List ChunkRef} (hsession : s.session = none) (hworking : s.working = none)
    (hcontent : s.content = .chunkList hash) (hlists : hash ∈ s.lists) (hlarge : params.inlineThreshold < s.size)
    (hsorted : Sorted hash) (hop : Encoding s.op) :
    Same params s { s with working := some ⟨placeChunks hash (zeros s.size), hash⟩ }

/-- What a reader and the checkpoints show of a file. -/
def observe (s : State) : Nat × Option (Content × Nat) × (Nat → Nat → Option Bytes) :=
  (s.size, s.published, s.read)

theorem Same.observe (h : Same params s t) : s.observe = t.observe := by
  have hread : s.read = t.read := by
    funext offset len
    cases h with
    | refl => rfl
    | materialized hended => simp [State.read, hended.found, hended.pending, State.materialized]
    | resplit _ hsession => simp [read, hsession]
    | hydrated hsession hworking hcontent hlists _ hsorted =>
      simp [read, hsession, hworking, readContent, hcontent, hlists, hsorted.readRangeFromChunks_eq]
  cases h <;> simp only [observe, hread]

/-! ## Steps that do not look at the bytes -/

section

variable (h : Same params s t)

include h

theorem Same.bookkeeping (dirty : Bool) (checkpoint : Option Checkpoint)
    (published : Option (Content × Nat)) (history : List Bytes) (request : Option Request) (target : Bytes) :
    Same params { s with
        dirty := dirty, checkpoint := checkpoint, published := published, history := history
        request := request, target := target } { t with
        dirty := dirty, checkpoint := checkpoint, published := published, history := history
        request := request, target := target } := by
  cases h with
  | refl => exact .refl _
  | materialized hended hop =>
    refine .materialized { hended with } ?_
    cases hop <;> constructor <;> assumption
  | resplit _ hsession hstart hop => exact .resplit _ hsession hstart hop
  | hydrated hsession hworking hcontent hlists hlarge hsorted hop =>
    exact .hydrated hsession hworking hcontent hlists hlarge hsorted hop

/-- Files in step are busy at the same time, and capturing at the same time. -/
theorem Same.op : t.op.isSome = s.op.isSome ∧ t.op.any (·.isCapture) = s.op.any (·.isCapture) := by
  cases h with
  | refl => exact ⟨rfl, rfl⟩
  | materialized _ hop => cases hop <;> simp [*]
  | resplit => exact ⟨rfl, rfl⟩
  | hydrated => exact ⟨rfl, rfl⟩

theorem Same.setAttr :
    Rel (Same params) (s.step params .setAttr) (t.step params .setAttr) := by
  have hbook := h.bookkeeping true s.checkpoint s.published s.history s.request s.target
  cases h <;> exact .some hbook

theorem Same.drain : Rel (Same params) s.drain t.drain := by
  have hbook := h.bookkeeping false (some ⟨s.dirty, false⟩) s.published [s.acked] s.request s.target
  unfold State.drain
  cases hc : s.checkpoint with
  | some => cases h <;> simp [hc]
  | none => cases h <;> simp only [hc] <;> exact .some hbook

theorem Same.snapshot : Rel (Same params) s.snapshot t.snapshot := by
  have hbook := h.bookkeeping s.dirty none (some (s.content, s.size)) s.history s.request s.target
  unfold State.snapshot
  cases hc : s.checkpoint with
  | none => cases h <;> simp [hc]
  | some c =>
    by_cases hcaptured : c.work = true → c.captured = true
    · cases h <;> simp only [hc, bind_some, if_pos hcaptured] <;> exact .some hbook
    · cases h <;> simp only [hc, bind_some, if_neg hcaptured] <;> exact .none

theorem Same.abort : Rel (Same params) s.abortCheckpoint t.abortCheckpoint := by
  unfold abortCheckpoint
  cases hc : s.checkpoint with
  | none => cases h <;> simp [hc]
  | some c =>
    have hbook := h.bookkeeping (s.dirty || c.work) none s.published s.history s.request s.target
    cases h <;> simp only [hc, map_some] <;> exact .some hbook

end

/-! ## Fsyncs and captures -/

theorem Ended.finalize (h : s.Ended params session) : s.finalizeIncrementalSession = some session.chunks := by
  simp [finalizeIncrementalSession, h.found, h.pending, refsOf]

/-- The start of an fsync or of a capture. -/
theorem Same.encode (h : Same params s t) (dirty : Bool) {makeOp : Option (List ChunkRef) → Op}
    (hmake : makeOp = .fsyncing ∨ makeOp = .capturing) : Same params
      { s with dirty := dirty, op := some (makeOp s.finalizeIncrementalSession) }
      { t with dirty := dirty, op := some (makeOp t.finalizeIncrementalSession) } := by
  cases h with
  | refl => exact .refl _
  | @materialized _ _ hended =>
    rw [hended.finalize]
    refine .materialized { hended with } ?_
    rcases hmake with rfl | rfl
    · exact .fsyncing rfl
    · exact .capturing rfl
  | @resplit session base cut working hsession hstart =>
    have heq : finalizeIncrementalSession { s with
        session := some { session with baseOffset := base, cutOffset := cut }, working := working } =
          s.finalizeIncrementalSession := by
      simp only [finalizeIncrementalSession, hsession, map_some, hstart]
    obtain ⟨chunks, hchunks⟩ : ∃ chunks, s.finalizeIncrementalSession = some chunks := by
      simp only [finalizeIncrementalSession, hsession, map_some, some.injEq, exists_eq']
    rw [heq, hchunks]
    refine .resplit _ hsession hstart ?_
    rcases hmake with rfl | rfl
    · exact .fsyncing
    · exact .capturing
  | @hydrated hash hsession hworking hcontent hlists hlarge hsorted =>
    have hnone : s.finalizeIncrementalSession = none := by simp [finalizeIncrementalSession, hsession]
    have heq : finalizeIncrementalSession { s with working := some ⟨placeChunks hash (zeros s.size), hash⟩ } = none :=
      hnone
    rw [heq, hnone]
    refine .hydrated hsession hworking hcontent hlists hlarge hsorted ?_
    rcases hmake with rfl | rfl
    · exact .fsyncing
    · exact .capturing

theorem Same.beginFsync (h : Same params s t) : Rel (Same params) s.beginFsync t.beginFsync := by
  unfold State.beginFsync
  rw [h.op.1]
  split_ifs with hop
  · exact .none
  · exact .some (h.encode true (.inl rfl))

theorem Same.beginCapture (h : Same params s t) : Rel (Same params) s.beginCapture t.beginCapture := by
  have hcheckpoint : t.checkpoint = s.checkpoint := by cases h <;> rfl
  have hnone : t.op.isNone = s.op.isNone := by
    rw [← not_isSome, ← not_isSome, h.op.1]
  have hencode := h.encode s.dirty (.inr rfl)
  unfold State.beginCapture
  by_cases hop : s.op.isNone ∧ s.checkpoint = some ⟨true, false⟩
  · rw [if_pos hop, if_pos (by rwa [hnone, hcheckpoint])]
    cases h <;> exact .some hencode
  · rw [if_neg hop, if_neg (by rwa [hnone, hcheckpoint])]
    exact .none

/-! ## Failing commits -/

theorem Same.fail (h : Same params s t) : Rel (Same params) s.fail t.fail := by
  cases h with
  | refl => exact rel_refl .refl _
  | materialized hended hop =>
    unfold fail
    cases hop <;> simp [*, hended.found, hended.pending]
  | @resplit _ _ _ _ hsession hstart hop =>
    unfold fail
    cases hs : s.op with
    | none => exact .none
    | some =>
      rw [hs] at hop
      cases hop with
      | appending =>
        dsimp only [bind_some]
        split_ifs
        · exact .none
        · exact .some (.resplit _ hsession hstart .idle)
      | fsyncing =>
        simp only [bind_some, hsession, all_some]
        split_ifs
        · exact .none
        · exact .some (.resplit _ rfl hstart .idle)
      | capturing =>
        simp only [bind_some, hsession, all_some]
        split_ifs
        · exact .none
        · exact Same.abort (.resplit _ rfl hstart .idle)
      | touching | publishing | fsynced | dropping | closing => exact .none
  | hydrated _ _ _ _ _ _ hop =>
    unfold fail
    cases hs : s.op with
    | none => exact .none
    | some =>
      rw [hs] at hop
      cases hop <;> exact .none

/-! ## The steps of an operation -/

theorem InStep.advance {op : Option Op} (hended : s.Ended params session)
    (hop : s.InStep session op) : Rel (Same params) (s.advance params)
      (advance params { s with session := none, working := some (s.materialized session), op := op }) := by
  unfold State.advance
  cases hop with
  | idle hop =>
    rw [hop]
    exact .none
  | fsyncing hop =>
    simp only [hop, bind_some, hydrateFileState, map_some, contentRef, hended.large,
      materialized, or_true, if_true, none_or, getD_some]
    exact .some (.materialized { hended with } (.publishing rfl rfl))
  | publishing hop hworking =>
    simp only [hop, bind_some, isSome_some, isSome_none]
    exact .some (.materialized { hended with } (.fsynced rfl hworking))
  | fsynced hop hworking =>
    simp only [hop, bind_some, if_true, hworking, ite_self]
    exact .some (.refl _)
  | capturing hop =>
    simp only [hop, bind_some, isSome_some, isSome_none, true_or, or_true, if_true,
      contentRef, hended.large, putContent, map_some, none_or, getD_some, materialized]
    exact .some (.materialized { hended with } (.dropping rfl rfl mem_insertList))
  | dropping hop hcontent hlists =>
    simp only [hop, bind_some, if_true, Bool.false_eq_true, if_false]
    exact .some (.materialized { hended with } (.closing rfl rfl hcontent hlists))
  | closing hop hworking hcontent hlists =>
    have hassemble : s.materialized session = ⟨placeChunks session.chunks (zeros s.size), session.chunks⟩ := by
      simp [materialized, assembleSessionContents, Nat.max_eq_left hended.stop, copyInto_nil]
    simp only [hop, bind_some, if_true, Bool.false_eq_true, if_false, hassemble, finishCapture]
    exact .some (.hydrated rfl hworking hcontent hlists hended.large hended.sorted .idle)

theorem Same.advance_resplit
    (hsession : s.session = some session) (hstart : base + cut = session.baseOffset + session.cutOffset)
    (hop : OnSession s.working working s.op) : Rel (Same params) (s.advance params)
      (advance params { s with
        session := some { session with baseOffset := base, cutOffset := cut }, working := working }) := by
  unfold advance
  cases hs : s.op with
  | none => exact .none
  | some =>
    rw [hs] at hop
    cases hop with
    | @appending added refs =>
      simp only [bind_some, hsession, map_some]
      exact .some (.resplit { session with
        chunks := session.chunks ++ refs
        nextExpectedOffset := session.nextExpectedOffset + added } rfl hstart .touching)
    | touching => exact .some (.resplit _ hsession hstart .idle)
    | fsyncing =>
      simp only [bind_some, contentRef_session]
      exact .some (.resplit _ hsession hstart (.publishing rfl))
    | publishing h => exact .some (.resplit _ hsession hstart (.fsynced h))
    | fsynced h =>
      simp only [bind_some, if_true, h]
      exact .some (.refl _)
    | capturing =>
      simp only [bind_some, isSome_some, true_or, if_true, contentRef_session, putContent]
      exact .some (.resplit _ hsession hstart .dropping)
    | dropping =>
      simp only [bind_some, if_true]
      exact .some (.resplit _ hsession hstart (.closing rfl))
    | closing h =>
      simp only [bind_some, if_true, h]
      exact .some (.refl _)

theorem Same.advance_hydrated (hsession : s.session = none) (hworking : s.working = none)
    (hcontent : s.content = .chunkList hash) (hlists : hash ∈ s.lists)
    (hlarge : params.inlineThreshold < s.size) (hsorted : Sorted hash) (hop : Encoding s.op) :
    Rel (Same params) (s.advance params)
      (advance params { s with working := some ⟨placeChunks hash (zeros s.size), hash⟩ }) := by
  unfold advance
  cases hs : s.op with
  | none => exact .none
  | some =>
    rw [hs] at hop
    cases hop with
    | fsyncing =>
      simp only [bind_some, hydrateFileState, hworking, hcontent, if_pos hlists]
      exact .some (.refl _)
    | capturing =>
      -- the same list is put again
      simp only [bind_some, isSome_none, hworking, Bool.false_eq_true, or_false, if_false,
        isSome_some, or_true, if_true, contentRef, hlarge, none_or, map_some,
        getD_some, putContent, hlists, ← hcontent]
      exact .some (.hydrated hsession rfl hcontent hlists hlarge hsorted .dropping)
    | dropping => exact .some (.hydrated hsession hworking hcontent hlists hlarge hsorted .closing)
    | closing => exact .some (.hydrated hsession hworking hcontent hlists hlarge hsorted .idle)

theorem Same.advance (h : Same params s t) : Rel (Same params) (s.advance params) (t.advance params) := by
  cases h with
  | refl => exact rel_refl .refl _
  | materialized hended hop => exact hop.advance hended
  | resplit _ hsession hstart hop => exact Same.advance_resplit hsession hstart hop
  | hydrated hsession hworking hcontent hlists hlarge hsorted hop =>
    exact Same.advance_hydrated hsession hworking hcontent hlists hlarge hsorted hop

/-! ## Requests -/

/-- Two sessions that are cut off at the same offset go on in the same way. -/
theorem Same.beginAppend
    {buf : Bytes} (hstart : base + cut = session.baseOffset + session.cutOffset) :
    Same params (s.beginAppend params session buf)
      (State.beginAppend params { s with working := working } { session with baseOffset := base, cutOffset := cut }
        buf) := by
  simp only [State.beginAppend, hstart]
  refine .resplit { session with
    cutOffset := session.cutOffset + (params.chunker.push (session.pendingBytes ++ buf)).1.flatten.length
    pendingBytes := (params.chunker.push (session.pendingBytes ++ buf)).2 } rfl ?_ .appending
  dsimp only
  omega

theorem Ended.materialize (h : s.Ended params session) (hop : s.op = none) :
    s.materializeSessionIntoFileState =
      { s with session := none, working := some (s.materialized session), op := none } := by
  simp only [materializeSessionIntoFileState, h.found, materialized, h.pending, ← hop]

theorem Ended.begin (h : s.Ended params session) (hop : s.op = none)
    (request : Request) : Rel (Same params) (s.begin params request)
      (s.materializeSessionIntoFileState.begin params request) := by
  have hnone : s.materializeSessionIntoFileState.session = none := by rw [h.materialize hop]
  have hsame : Same params s s.materializeSessionIntoFileState := by
    rw [h.materialize hop]
    exact .materialized h (.idle hop)
  unfold State.begin
  cases request with
  | write offset =>
    dsimp only
    split_ifs with hbuf
    · exact .some hsame
    · simp only [beginWrite, h.found, hnone]
      split_ifs with hnext
      · have hoffset : offset = s.size := hnext.symm.trans h.next
        have heligible : s.materializeSessionIntoFileState.freshSessionEligible params offset = true := by
          rw [freshSessionEligible_materialize]
          simp [freshSessionEligible, hoffset, h.large]
        have hchunks : s.materializeSessionIntoFileState.currentChunksForNewSession = some session.chunks := by
          rw [h.materialize hop]
          rfl
        have hfresh : (⟨offset, 0, offset, session.chunks, []⟩ : IncrementalWriteState) =
            { session with baseOffset := offset, cutOffset := 0 } := by
          rw [hnext, h.pending]
        rw [beginFallback, if_pos heligible, hchunks, map_some, hfresh, h.materialize hop]
        exact .some (Same.beginAppend (by rw [h.start, hoffset, Nat.add_zero]))
      · exact rel_refl .refl _
  | setSize | fallocate =>
    dsimp only
    rw [materialize_of_none hnone]
    exact rel_refl .refl _

/-- Without a session, loading the content beforehand makes no difference to a request. -/
theorem Same.begin_hydrated (hsession : s.session = none) (hworking : s.working = none)
    (hcontent : s.content = .chunkList hash) (hlists : hash ∈ s.lists)
    (hlarge : params.inlineThreshold < s.size) (hsorted : Sorted hash) (hop : s.op = none)
    (request : Request) : Rel (Same params) (s.begin params request)
      (begin params { s with working := some ⟨placeChunks hash (zeros s.size), hash⟩ } request) := by
  have hsame : Same params s { s with working := some ⟨placeChunks hash (zeros s.size), hash⟩ } :=
    .hydrated hsession hworking hcontent hlists hlarge hsorted (hop ▸ .idle)
  have hload : s.hydrateFileState = some { s with working := some ⟨placeChunks hash (zeros s.size), hash⟩ } := by
    simp only [hydrateFileState, hworking, hcontent, if_pos hlists]
  have hcurrent : s.currentChunksForNewSession = some hash := by
    simp only [currentChunksForNewSession, hworking, hcontent, if_pos hlists]
  generalize hu : { s with working := some ⟨placeChunks hash (zeros s.size), hash⟩ } = u at hsame hload ⊢
  have husession : u.session = none := hu ▸ hsession
  have hrechunk (request : Request) : u.beginRechunk params request = s.beginRechunk params request := by
    have huload : u.hydrateFileState = some u := by
      rw [← hu]
      rfl
    rw [beginRechunk, beginRechunk, hload, huload]
  unfold begin
  cases request with
  | write offset =>
    dsimp only
    split_ifs with hbuf
    · exact .some hsame
    · have heligible : u.freshSessionEligible params offset = s.freshSessionEligible params offset := by
        rw [← hu]
        rfl
      have hucurrent : u.currentChunksForNewSession = some hash := by
        rw [← hu]
        rfl
      simp only [beginWrite, hsession, husession, beginFallback, heligible, hcurrent, hucurrent, hrechunk]
      split_ifs
      · rw [← hu]
        exact .some (Same.beginAppend rfl)
      · exact .some hsame
      · exact rel_refl .refl _
  | setSize | fallocate =>
    dsimp only
    rw [materialize_of_none hsession, materialize_of_none husession, hrechunk]
    exact rel_refl .refl _

/-- Sessions that are cut off at the same offset leave the same working state. -/
theorem Same.begin_resplit
    (hsession : s.session = some session) (hstart : base + cut = session.baseOffset + session.cutOffset)
    (hop : s.op = none) (request : Request) : Rel (Same params) (s.begin params request)
      (begin params { s with
        session := some { session with baseOffset := base, cutOffset := cut }, working := working } request) := by
  have hsame : Same params s { s with
      session := some { session with baseOffset := base, cutOffset := cut }, working := working } :=
    .resplit session hsession hstart (hop ▸ .idle)
  generalize hu : { s with
    session := some { session with baseOffset := base, cutOffset := cut }, working := working } = u at hsame ⊢
  have hmaterialize : u.materializeSessionIntoFileState = s.materializeSessionIntoFileState := by
    rw [← hu]
    simp only [materializeSessionIntoFileState, hsession]
  unfold begin
  cases request with
  | write =>
    dsimp only
    split_ifs with hbuf
    · exact .some hsame
    · have husession : u.session = some { session with baseOffset := base, cutOffset := cut } := by rw [← hu]
      simp only [beginWrite, hsession, husession, hmaterialize]
      split_ifs
      · rw [← hu]
        exact .some (Same.beginAppend hstart)
      · exact rel_refl .refl _
  | setSize | fallocate =>
    dsimp only
    rw [hmaterialize]
    exact rel_refl .refl _

theorem Same.begin (h : Same params s t) (hop : s.op = none) (request : Request) :
    Rel (Same params) (s.begin params request) (t.begin params request) := by
  cases h with
  | refl => exact rel_refl .refl _
  | @materialized _ op hended hstep =>
    have hidle : op = none := by cases hstep <;> simp_all
    rw [hidle, ← hended.materialize hop]
    exact hended.begin hop request
  | resplit _ hsession hstart => exact Same.begin_resplit hsession hstart hop request
  | hydrated hsession hworking hcontent hlists hlarge hsorted =>
    exact Same.begin_hydrated hsession hworking hcontent hlists hlarge hsorted hop request

theorem Same.request (h : Same params s t) (request : Request) :
    Rel (Same params) (s.beginRequest params request) (t.beginRequest params request) := by
  have hacked : t.acked = s.acked := by cases h <;> rfl
  unfold beginRequest
  rw [h.op.1, hacked]
  split_ifs with hinvalid hop
  · exact .some h
  · exact .none
  · refine rel_map (h.begin (by simpa using hop) request) fun u v huv ↦ ?_
    rw [huv.op.1]
    split_ifs
    · have hbook := huv.bookkeeping u.dirty u.checkpoint u.published u.history (some request) (request.model s.acked)
      cases huv <;> exact hbook
    · exact huv

/-! ## Runs -/

/-- Files in step stay in step. -/
theorem same_simulation : (file params).Simulation (Same params) := by
  intro s t a h
  cases a with
  | request request => exact h.request request
  | advance => exact h.advance
  | fail => exact h.fail
  | beginFsync => exact h.beginFsync
  | setAttr => exact h.setAttr
  | drain => exact h.drain
  | beginCapture => exact h.beginCapture
  | snapshot => exact h.snapshot
  | abortCheckpoint =>
    have hcapture := h.op.2
    simp only [file, step, hcapture]
    split_ifs
    · exact .none
    · exact h.abort

/-- The session of a file that holds its bytes and has none of them pending. -/
theorem Stable.ended (h : s.Stable params) (hsession : s.session = some session)
    (hpending : session.pendingBytes = []) : s.Ended params session := by
  have hholds := (h.session session hsession).2
  obtain ⟨listed, hlisted, hlength, hbytes⟩ := hholds.listed
  rw [hpending, append_nil] at hbytes
  have hsize : s.size = listed.length := by rw [h.size, hbytes]
  exact ⟨hsession, hpending, hholds.next.trans h.size.symm, hlength.symm.trans hsize.symm, h.size ▸ hholds.large,
    hlisted.sorted, hsize ▸ hlisted.stop⟩

/-- What a refused request leaves behind. -/
theorem same_of_refused {request : Request} (hclean : s.Clean params) (hkeeps : s.KeepsClean params (.request request))
    (hrefuses : s.refuses params request = true) (hstep : s.beginRequest params request = some t) :
    Same params s t := by
  have hbegun := begun_of_beginRequest hstep
  unfold beginRequest at hstep
  split_ifs at hstep with hinvalid hsome
  · exact some.inj hstep ▸ .refl s
  have hop : s.op = none := not_isSome_iff_eq_none.1 hsome
  have hstable : s.Stable params := by simpa only [Clean, Holds, hop] using hclean.1
  cases hbegun with
  | unchanged => exact .refl s
  | refused =>
    cases hsession : s.session with
    | none =>
      rw [materialize_of_none hsession]
      exact .refl s
    | some session =>
      have hended := hstable.ended hsession (hkeeps hrefuses session hsession)
      rw [hended.materialize hop]
      exact .materialized hended (.idle hop)
  | append hrequest happends =>
    subst hrequest
    cases happends with
    | continued hsession hnext => simp [refuses, continues, hsession, hnext] at hrefuses
    | fresh _ heligible => simp [refuses, heligible] at hrefuses
  | rechunk _ hwhole => simp [hwhole.not_refused] at hrefuses

section Runs

/-- A checkpoint that captures the file. -/
def captureRun : List Action :=
  [.drain, .beginCapture, .advance, .advance, .advance, .snapshot]

end Runs

end State

end Lchfs.File
