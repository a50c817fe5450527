import Lchfs.File.Refusals

/-!
# The file a checkpoint publishes

A checkpoint captures the content of a file that was dirty at its drain, and publishes the inode
it finds at its snapshot. The two belong together as long as no request finishes in between. A
file that is not dirty has its bytes in its content already, and so has a file that was captured.
-/

namespace Lchfs.File

open Lchfs.Format (Bytes ChunkRef)
open Lchfs.Library
open Lchfs.Library.Layout
open Lchfs.Store (FileWorkingState IncrementalWriteState)
open List Option

/-- What a mount reads of a published inode. -/
def Content.readRange (size offset len : Nat) : Content → Bytes
  | .inline bytes => sliceOf bytes offset len
  | .chunkList hash => readRangeFromChunks hash size offset len

theorem Content.Encodes.readRange {params : Params} {bytes : Bytes} {content : Content}
    (h : content.Encodes params bytes) (offset len : Nat) :
    content.readRange bytes.length offset len = sliceOf bytes offset len := by
  cases content with
  | inline =>
    obtain ⟨rfl, -⟩ := h
    rfl
  | chunkList hash =>
    have hlists : Lists hash bytes := h
    simp only [Content.readRange, hlists.sorted.readRangeFromChunks_eq, hlists.place]

/-- Whether an operation has put the content of a capture. -/
@[simp]
def Op.hasCaptured : Op → Bool
  | .dropping _ | .closing _ => true
  | _ => false

/-- Whether an operation is about to acknowledge its request. -/
@[simp]
def Op.isTouching : Op → Bool
  | .touching _ => true
  | _ => false

namespace State

variable {params : Params} {s t : State} {a : Action}

/-- Whether the next snapshot comes after a capture of this file that is still to be made. -/
def awaitsCapture (s : State) : Bool :=
  match s.checkpoint with
  | none => s.dirty
  | some c => c.work && !c.captured

/-- No commit of a request fails, no refused write finds pending bytes, and a request that
finishes during a checkpoint does so before the checkpoint captures the file. -/
def KeepsInstant (params : Params) (s : State) : Action → Prop
  | .advance => ∀ op ∈ s.op, op.isTouching = true → s.checkpoint.isSome → s.awaitsCapture = true
  | a => s.KeepsClean params a

instance (a : Action) : Decidable (s.KeepsInstant params a) := by
  induction a using Action.casesOn <;> unfold KeepsInstant <;> infer_instance

theorem KeepsInstant.keepsClean (h : s.KeepsInstant params a) : s.KeepsClean params a := by
  cases a with
  | advance => trivial
  | _ => exact h

/-- The content is up to date unless a capture is still to come. -/
structure Settled (params : Params) (s : State) : Prop where
  clean : s.Clean params
  current : s.awaitsCapture = false → s.content.Encodes params s.acked
  captured : ∀ op ∈ s.op, op.hasCaptured = true → s.content.Encodes params s.acked
  acked_mem : s.checkpoint.isSome → s.acked ∈ s.history

/-- At any time the size is that of the acknowledged bytes. -/
theorem Holds.size (h : s.Holds params) : s.size = s.acked.length := by
  unfold Holds at h
  split at h
  · exact h.size
  next op _ =>
    cases op with
    | appending => exact Appending.size h
    | rechunking => exact Rechunking.size h
    | touching => exact Touching.size h
    | fsyncing => exact h.1.size
    | capturing => exact h.1.size
    | publishing => exact h.1.size
    | fsynced => exact h.1.size
    | dropping => exact h.1.size
    | closing => exact h.1.size

/-- A step that leaves the content and the acknowledged bytes alone. -/
theorem Settled.transfer (h : s.Settled params) (hclean : t.Clean params) (hcontent : t.content = s.content)
    (hacked : t.acked = s.acked) (hawaits : t.awaitsCapture = false → s.awaitsCapture = false)
    (hop : ∀ op ∈ t.op, op.hasCaptured = true → s.content.Encodes params s.acked)
    (hmem : t.checkpoint.isSome → s.acked ∈ t.history) : t.Settled params where
  clean := hclean
  current hfalse := by
    rw [hcontent, hacked]
    exact h.current (hawaits hfalse)
  captured := by
    rw [hcontent, hacked]
    exact hop
  acked_mem := by
    rw [hacked]
    exact hmem

theorem awaitsCapture_of_dirty (hcheckpoint : t.checkpoint = s.checkpoint) (hdirty : s.dirty = true → t.dirty = true)
    (h : t.awaitsCapture = false) : s.awaitsCapture = false := by
  unfold awaitsCapture at h ⊢
  rw [hcheckpoint] at h
  cases hc : s.checkpoint with
  | none =>
    simp only [hc] at h ⊢
    exact Bool.eq_false_iff.2 fun htrue ↦ by simp [hdirty htrue] at h
  | some => simpa only [hc] using h

/-- What a request leaves alone before its first commit. -/
theorem Begun.frame {request : Request} (h : s.Begun params request t) :
    t.content = s.content ∧ t.acked = s.acked ∧ t.checkpoint = s.checkpoint ∧ t.history = s.history ∧
      (s.dirty = true → t.dirty = true) ∧ ∀ op ∈ t.op, op.hasCaptured = true → op ∈ s.op := by
  cases h with
  | unchanged => exact ⟨rfl, rfl, rfl, rfl, id, fun _ hop _ ↦ hop⟩
  | refused =>
    obtain ⟨_, heq⟩ := materialize_eq (s := s)
    rw [heq]
    exact ⟨rfl, rfl, rfl, rfl, id, fun _ hop _ ↦ hop⟩
  | append =>
    refine ⟨rfl, rfl, rfl, rfl, fun _ ↦ rfl, fun op hop hcaptured ↦ ?_⟩
    cases hop
    simp at hcaptured
  | rechunk state _ hhydrate =>
    obtain ⟨_, heq⟩ := materialize_eq (s := s)
    obtain ⟨_, rfl⟩ := hydrate_eq hhydrate
    rw [heq]
    refine ⟨rfl, rfl, rfl, rfl, fun _ ↦ rfl, fun _ hop hcaptured ↦ ?_⟩
    cases hop
    simp at hcaptured

theorem Settled.request {request : Request} (h : s.Settled params) (hclean : t.Clean params)
    (hstep : s.beginRequest params request = some t) : t.Settled params := by
  obtain ⟨hcontent, hacked, hcheckpoint, hhistory, hdirty, hop⟩ := (begun_of_beginRequest hstep).frame
  refine h.transfer hclean hcontent hacked (awaitsCapture_of_dirty hcheckpoint hdirty) ?_ ?_
  · exact fun op hmem hcaptured ↦ h.captured op (hop op hmem hcaptured) hcaptured
  · rw [hcheckpoint, hhistory]
    exact h.acked_mem

/-- The content that a capture puts. -/
theorem Stable.capture (h : s.Stable params) (hfailed : s.failed = none) {sessionChunks : Option (List ChunkRef)}
    (hchunks : sessionChunks = s.finalizeIncrementalSession) :
    ∃ content lists, (if sessionChunks.isSome ∨ s.working.isSome then s.putContent (s.contentRef params sessionChunks)
      else s) = { s with content := content, lists := lists } ∧ content.Holds params lists s.acked := by
  split_ifs with hencode
  · have hencodes : (s.contentRef params sessionChunks).Encodes params s.acked := by
      refine h.contentRef_encodes hfailed (fun _ hmem ↦ ?_) fun hnone ↦ ?_
      · exact (h.finalize (hchunks ▸ hmem.symm)).2
      · subst hnone
        exact ⟨session_of_finalize_none hchunks, by simpa using hencode⟩
    cases hcontent : s.contentRef params sessionChunks with
    | inline =>
      rw [hcontent] at hencodes
      exact ⟨_, s.lists, rfl, hencodes, by simp⟩
    | chunkList =>
      rw [hcontent] at hencodes
      refine ⟨_, _, rfl, hencodes, fun _ heq ↦ ?_⟩
      obtain rfl := Content.chunkList.inj heq
      exact mem_insertList
  · simp only [not_or, not_isSome_iff_eq_none] at hencode
    obtain ⟨hnone, hworking⟩ := hencode
    exact ⟨s.content, s.lists, rfl, (h.content (session_of_finalize_none (hnone ▸ hchunks)) hworking).2⟩

theorem Settled.advance (h : s.Settled params) (hkeeps : s.KeepsInstant params .advance) (hclean : t.Clean params)
    (hstep : s.advance params = some t) : t.Settled params := by
  obtain ⟨op, hop, hstep⟩ := bind_eq_some_iff.1 hstep
  have hholds := h.clean.1
  simp only [Holds, hop] at hholds
  cases op with
  | appending =>
    obtain ⟨_, _, rfl⟩ := map_eq_some_iff.1 hstep
    exact h.transfer hclean rfl rfl id (by simp) h.acked_mem
  | rechunking =>
    obtain ⟨_, _, rfl⟩ := map_eq_some_iff.1 hstep
    exact h.transfer hclean rfl rfl id (by simp) h.acked_mem
  | touching =>
    cases hstep
    refine ⟨hclean, fun hfalse ↦ ?_, by simp, fun _ ↦ mem_cons_self⟩
    -- either the next checkpoint finds the file dirty or this one is still to capture it
    cases hc : s.checkpoint with
    | none => simp [awaitsCapture, hc] at hfalse
    | some =>
      have hawaits := hkeeps _ hop rfl (by simp [hc])
      simp only [awaitsCapture, hc] at hawaits hfalse
      rw [hawaits] at hfalse
      cases hfalse
  | fsyncing sessionChunks =>
    cases sessionChunks with
    | some =>
      cases hstep
      exact h.transfer hclean rfl rfl id (by simp) h.acked_mem
    | none =>
      obtain ⟨u, hu, rfl⟩ := map_eq_some_iff.1 hstep
      obtain ⟨_, rfl⟩ := hydrate_eq hu
      exact h.transfer hclean rfl rfl id (by simp) h.acked_mem
  | publishing =>
    obtain ⟨-, -, -, -, hencodes⟩ := hholds
    cases hstep
    exact ⟨hclean, fun _ ↦ hencodes h.clean.2, by simp, h.acked_mem⟩
  | fsynced =>
    cases hstep
    exact h.transfer hclean rfl rfl id (by simp) h.acked_mem
  | capturing =>
    obtain ⟨hstable, hchunks⟩ := hholds
    obtain ⟨_, _, heq, hencodes, -⟩ := hstable.capture h.clean.2 hchunks
    cases hstep
    rw [heq] at hclean ⊢
    exact ⟨hclean, fun _ ↦ hencodes, fun _ _ _ ↦ hencodes, h.acked_mem⟩
  | dropping =>
    have hencodes := h.captured _ hop rfl
    cases hstep
    exact h.transfer hclean rfl rfl id (fun _ _ _ ↦ hencodes) h.acked_mem
  | closing =>
    have hencodes := h.captured _ hop rfl
    cases hstep
    exact ⟨hclean, fun _ ↦ hencodes, fun _ _ _ ↦ hencodes, fun hsome ↦ h.acked_mem (by simpa [finishCapture] using hsome)⟩

/-- A checkpoint that fails leaves the file dirty if it was to capture it. -/
theorem Settled.abort (h : s.Settled params) {op : Option Op} {c : Checkpoint} (hop : ∀ o ∈ op, o ∈ s.op)
    (hc : s.checkpoint = some c)
    (hclean : Clean params { s with op := op, dirty := s.dirty || c.work, checkpoint := none }) :
    Settled params { s with op := op, dirty := s.dirty || c.work, checkpoint := none } := by
  refine h.transfer hclean rfl rfl (fun hfalse ↦ ?_) (fun o ho ↦ h.captured o (hop o ho)) (by simp)
  simp only [awaitsCapture, Bool.or_eq_false_iff] at hfalse
  simp [awaitsCapture, hc, hfalse.2]

theorem Settled.step (h : s.Settled params) (hkeeps : s.KeepsInstant params a)
    (hstep : s.step params a = some t) : t.Settled params := by
  have hclean := h.clean.step hkeeps.keepsClean hstep
  cases steps_of_step hstep with
  | request hstep => exact h.request hclean hstep
  | advance hstep => exact h.advance hkeeps hclean hstep
  | failAppend hop | failRechunk hop => simpa using hkeeps _ hop
  | failFsync | capture => exact h.transfer hclean rfl rfl id (by simp) h.acked_mem
  | failCapture _ hc => exact h.abort (by simp) hc hclean
  | fsync => exact h.transfer hclean rfl rfl (awaitsCapture_of_dirty rfl fun _ ↦ rfl) (by simp) h.acked_mem
  | setAttr => exact h.transfer hclean rfl rfl (awaitsCapture_of_dirty rfl fun _ ↦ rfl) h.captured h.acked_mem
  | drain hnone =>
    refine h.transfer hclean rfl rfl (fun hfalse ↦ ?_) h.captured (by simp)
    simpa [awaitsCapture, hnone] using hfalse
  | snapshot hc hcaptured =>
    refine h.transfer hclean rfl rfl (fun _ ↦ ?_) h.captured (by simp)
    simpa [awaitsCapture, hc] using hcaptured
  | abort hc => exact h.abort (fun _ ho ↦ ho) hc hclean

theorem Loaded.settled (h : s.Loaded params) : s.Settled params where
  clean := h.clean
  current _ := (h.stable.content h.1 h.2.1).2.1
  captured := by simp [h.2.2.1]
  acked_mem := by simp [h.2.2.2.1]

theorem settled_of_reachable (hs : (file params).ReachableUnder (KeepsInstant params) s) : s.Settled params :=
  hs.invariant (I := Settled params) (fun _ (h : Loaded params _) ↦ h.settled)
    fun _ _ _ _ h hkeeps hstep ↦ h.step hkeeps hstep

section Runs

end Runs

end State

end Lchfs.File
