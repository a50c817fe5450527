import Lchfs.File.AppendReads
import Lchfs.File.Published

/-!
# The size limit

`set_size`, `fallocate` and the whole-file path of `write` check the limit, an append does not.
If no write reaches past the limit, no file, no buffer and no sum of an offset and a length does.
-/

namespace Lchfs.File

open Lchfs.Format (Bytes ChunkRef)
open Lchfs.Library (Machine)
open Lchfs.Library.Layout
open Lchfs.Store (IncrementalWriteState)
open Option

/-- A file that starts within the limit. -/
def limited (params : Params) : Machine State Action :=
  { file params with init := fun s ↦ s.Loaded params ∧ s.size ≤ params.maxFileSize }

/-- Whether an operation is part of a request. -/
@[simp]
def Op.grows : Op → Bool
  | .appending _ _ | .rechunking _ | .touching _ => true
  | _ => false

/-- What an append under way adds. -/
def Op.added : Op → Nat
  | .appending added _ => added
  | _ => 0

namespace State

variable {params : Params} {s t : State} {session : IncrementalWriteState} {bytes : Bytes}

/-- No write reaches past the limit, and no commit of a request fails. -/
def KeepsLimit (params : Params) (s : State) : Action → Prop
  | .request (.write offset buf) => offset + buf.length ≤ params.maxFileSize
  | .fail => ∀ op ∈ s.op, op.isRequest = false
  | _ => True

instance (a : Action) : Decidable (s.KeepsLimit params a) := by
  unfold KeepsLimit
  split <;> infer_instance

/-- The bytes before and after a request and the working state are within the limit. -/
structure Limited (params : Params) (s : State) : Prop where
  clean : s.Clean params
  acked : s.acked.length ≤ params.maxFileSize
  target : ∀ op ∈ s.op, op.grows = true → s.target.length ≤ params.maxFileSize
  working : ∀ state ∈ s.working, state.contents.length ≤ params.maxFileSize

/-- A request that is let through stays within the limit. -/
theorem modelSize_le {request : Request} {size : Nat} (hsize : size ≤ params.maxFileSize)
    (hvalid : request.isInvalid params = false) (hkeeps : s.KeepsLimit params (.request request)) :
    request.modelSize size ≤ params.maxFileSize := by
  cases request with
  | write => exact Nat.max_le.2 ⟨hsize, hkeeps⟩
  | setSize => exact Nat.not_lt.1 (of_decide_eq_false hvalid)
  | fallocate _ _ mode =>
    simp only [Request.isInvalid, decide_eq_false_iff_not, not_or, Nat.not_lt] at hvalid
    cases mode with
    | punchHole => exact hsize
    | allocate keepSize | zeroRange keepSize =>
      simp only [Request.modelSize]
      split_ifs <;> omega

theorem Limited.request {request : Request} (h : s.Limited params) (hkeeps : s.KeepsLimit params (.request request))
    (hstep : s.beginRequest params request = some t) : t.Limited params := by
  by_cases hinvalid : request.isInvalid params = true
  · rw [beginRequest, if_pos hinvalid] at hstep
    exact some.inj hstep ▸ h
  have hrefuses : s.refuses params request = false := by
    cases request with
    | write => simp [refuses, Nat.not_lt.2 hkeeps]
    | setSize newSize | fallocate offset len mode => simpa [refuses] using hinvalid
  have hop : s.op = none := by
    by_contra hop
    simp [beginRequest, hinvalid, isSome_iff_ne_none.2 hop] at hstep
  have hclean : t.Clean params := h.clean.step (a := .request request) (by simp [KeepsClean, hrefuses]) hstep
  have hstable : s.Stable params := h.clean.1.stable (quiet_of_op hop)
  have hmodel : (request.model s.acked).length ≤ params.maxFileSize := by
    rw [length_model]
    exact modelSize_le h.acked (by simpa using hinvalid) hkeeps
  cases begun_of_beginRequest hstep with
  | unchanged => exact h
  | refused hrefused => simp [hrefuses] at hrefused
  | append _ happends _ hworking =>
    obtain rfl := hworking (hstable.session_of_appends happends)
    exact ⟨hclean, h.acked, fun _ _ _ ↦ hmodel, h.working⟩
  | @rechunk u state _ hhydrate hworking =>
    obtain ⟨state', rfl, hcontents⟩ := hstable.hydrate hhydrate
    obtain rfl : state' = state := some.inj hworking
    refine ⟨hclean, h.acked, fun _ _ _ ↦ hmodel, ?_⟩
    rintro _ ⟨⟩
    rwa [patch_eq_model, hcontents, expected_eq h.clean.2]

/-- Once an fsync is about to publish, the working state has the acknowledged bytes. -/
theorem Clean.working_of_publishing (h : s.Clean params) {sessionChunks : Option (List ChunkRef)} {content : Content}
    (hop : s.op = some (.publishing sessionChunks content)) : ∀ state ∈ s.working, state.contents = s.acked := by
  obtain ⟨hholds, hfailed⟩ := h
  simp only [Holds, hop] at hholds
  obtain ⟨hstable, -, -, hhydrated, -⟩ := hholds
  intro state hstate
  cases hsession : s.session with
  | none => rw [(hstable.working hsession state hstate).1, expected_eq hfailed]
  | some =>
    obtain ⟨_, hworking, hcontents⟩ := hhydrated (by simp [hsession])
    rw [← some.inj (hworking.symm.trans hstate), hcontents.contents]

theorem Limited.advance (h : s.Limited params) (hstep : s.advance params = some t) : t.Limited params := by
  have hclean : t.Clean params := h.clean.step (a := .advance) trivial hstep
  obtain ⟨op, hop, hstep⟩ := bind_eq_some_iff.1 hstep
  cases op with
  | appending =>
    obtain ⟨_, _, rfl⟩ := map_eq_some_iff.1 hstep
    exact ⟨hclean, h.acked, fun _ _ _ ↦ h.target _ hop rfl, h.working⟩
  | rechunking =>
    obtain ⟨state, hworking, rfl⟩ := map_eq_some_iff.1 hstep
    refine ⟨hclean, h.acked, fun _ _ _ ↦ h.target _ hop rfl, ?_⟩
    rintro _ ⟨⟩
    exact h.working state hworking
  | touching =>
    cases hstep
    exact ⟨hclean, h.target _ hop rfl, by simp, h.working⟩
  | fsyncing sessionChunks =>
    obtain ⟨content, ht, hacked⟩ : ∃ content, t.op = some (.publishing sessionChunks content) ∧ t.acked = s.acked := by
      cases sessionChunks with
      | some =>
        cases hstep
        exact ⟨_, rfl, rfl⟩
      | none =>
        obtain ⟨u, hu, rfl⟩ := map_eq_some_iff.1 hstep
        obtain ⟨_, rfl⟩ := hydrate_eq hu
        exact ⟨_, rfl, rfl⟩
    refine ⟨hclean, hacked ▸ h.acked, by simp [ht], fun state hstate ↦ ?_⟩
    rw [hclean.working_of_publishing ht state hstate, hacked]
    exact h.acked
  | publishing sessionChunks content | fsynced hadSession =>
    cases hstep
    exact ⟨hclean, h.acked, by simp, h.working⟩
  | capturing sessionChunks =>
    cases hstep
    obtain ⟨_, heq⟩ := putContent_eq s (s.contentRef params sessionChunks)
    rw [heq] at hclean ⊢
    split_ifs at hclean ⊢ <;> exact ⟨hclean, h.acked, by simp, h.working⟩
  | dropping hadSession =>
    cases hstep
    refine ⟨hclean, h.acked, by simp, fun state hstate ↦ h.working state ?_⟩
    cases hadSession
    · exact hstate
    · cases hstate
  | closing =>
    cases hstep
    exact ⟨hclean, h.acked, by simp [finishCapture], h.working⟩

theorem Limited.step {a : Action} (h : s.Limited params) (hkeeps : s.KeepsLimit params a)
    (hstep : s.step params a = some t) : t.Limited params := by
  have hclean (hkeeps : s.KeepsClean params a) : t.Clean params := h.clean.step hkeeps hstep
  cases steps_of_step hstep with
  | request hstep => exact h.request hkeeps hstep
  | advance hstep => exact h.advance hstep
  | failAppend hop | failRechunk hop => simpa using hkeeps _ hop
  | failFsync hop | failCapture hop => exact ⟨hclean hkeeps, h.acked, by simp, h.working⟩
  | fsync hop | capture hop => exact ⟨hclean trivial, h.acked, by simp, h.working⟩
  | setAttr | drain | snapshot | abort => exact ⟨hclean trivial, h.acked, h.target, h.working⟩

/-- The sums of a session, with what an append under way adds, are at most `limit`. -/
structure SumsWithin (s : State) (session : IncrementalWriteState) (limit : Nat) : Prop where
  assembled : chunksEnd session.chunks + session.pendingBytes.length ≤ limit
  cut : session.baseOffset + session.cutOffset + session.pendingBytes.length ≤ limit
  next : session.nextExpectedOffset + s.op.elim 0 Op.added ≤ limit

theorem sumsWithin_of_holds (h : SessionHolds params session bytes) (hadded : s.op.elim 0 Op.added = 0) :
    s.SumsWithin session bytes.length := by
  obtain ⟨_, hlists, hlength, rfl⟩ := h.listed
  have hstop := hlists.stop
  have hnext := h.next
  rw [List.length_append] at hnext ⊢
  exact ⟨by omega, by omega, by omega⟩

theorem Limited.sums (h : s.Limited params) (hsession : s.session = some session) :
    ∃ limit ≤ params.maxFileSize, s.SumsWithin session limit := by
  have hholds := h.clean.1
  -- unless a request is under way, the session has the acknowledged bytes
  have hstable (hstable : s.Stable params) (hadded : s.op.elim 0 Op.added = 0) :
      ∃ limit ≤ params.maxFileSize, s.SumsWithin session limit :=
    ⟨_, h.acked, sumsWithin_of_holds (hstable.session session hsession).2 hadded⟩
  unfold Holds at hholds
  split at hholds
  next hop => exact hstable hholds (by rw [hop]; rfl)
  next op hop =>
    have hadded : s.op.elim 0 Op.added = op.added := by rw [hop]; rfl
    cases op with
    | appending =>
      obtain ⟨_, _, hsession', hnext, hlists, hlength, htarget⟩ := Appending.session hholds
      obtain rfl := some.inj (hsession.symm.trans hsession')
      have hstop := hlists.stop
      have hsum := congrArg List.length htarget
      have hnew := Appending.added hholds
      rw [chunksEnd_append] at hstop
      rw [List.length_append] at hsum
      refine ⟨_, h.target _ hop rfl, by omega, by omega, ?_⟩
      rw [hadded, Op.added]
      omega
    | rechunking => simp [Rechunking.session hholds] at hsession
    | touching =>
      exact ⟨_, h.target _ hop rfl, sumsWithin_of_holds (Touching.session hholds session hsession) hadded⟩
    | _ => exact hstable hholds.1 hadded

theorem length_assembleSessionContents (chunks : List ChunkRef) (pending : Bytes) (size : Nat) :
    (assembleSessionContents chunks pending size).length = max size (chunksEnd chunks + pending.length) := by
  simp [assembleSessionContents, placeChunks]

end State

end Lchfs.File
