import Lchfs.Recovery.Captured

/-!
# Checkpoints that fail

A checkpoint that returns an error gives the inodes of the drained dirty set back, merged with
the marks that arrived meanwhile, and releases the lock of the file it was capturing. What it had
already captured stays in the namespace. `attempting` is the pool with such failures at every step
of a checkpoint; beside the state it records, as a ghost, the states since the last checkpoint
began.

What no root has yet is marked: a file whose content in memory is not the one its inode object
names has a session or a working state, and it is dirty or still to be captured; and so is a
directory that was never encoded.
-/

namespace Lchfs.Store

open Lchfs.Format Lchfs.Library
open List Option
open Function State Checkpoint

/-! ## Failures -/

/-- `RestoreOnFailure`. The attempt may have appended meta objects before the error. -/
def State.failCheckpoint (s : State) (written : List Hash32) : Option State :=
  if s.mounted then
    s.checkpoint.map fun c ↦
      { s with
        store := s.store.putMetaObjects written
        ns.dirtyInodes := s.ns.dirtyInodes ∪ c.dirty
        ops := c.capturing.elim s.ops fun ino ↦ update s.ops ino none
        checkpoint := none }
  else none

/-- A pool, and its states since the last checkpoint began. -/
structure Attempt where
  state : State
  since : List State

namespace Attempt

inductive Action
  | pool (a : Store.Action)
  | fail (written : List Hash32)

def step (params : PoolParams) (w : Attempt) : Action → Option Attempt
  | .pool .beginCheckpoint => (w.state.step params .beginCheckpoint).map fun t ↦ ⟨t, [t]⟩
  | .pool a => (w.state.step params a).map fun t ↦ ⟨t, t :: w.since⟩
  | .fail written => (w.state.failCheckpoint written).map fun t ↦ ⟨t, t :: w.since⟩

/-- A crash finds every entry above the published watermarks covered by the published root's inode
counter. -/
def CountsReplayed (params : PoolParams) (w : Attempt) : Action → Prop
  | .pool a => w.state.CountsReplayed params a
  | .fail _ => True

instance (params : PoolParams) (w : Attempt) (a : Action) : Decidable (w.CountsReplayed params a) := by
  cases a <;> unfold CountsReplayed <;> infer_instance

end Attempt

def attempting (params : PoolParams) : Machine Attempt Attempt.Action where
  init w := w = ⟨.create, []⟩
  step w a := w.step params a

/-- The checkpoint has drained the inode and not captured it yet. -/
def Checkpoint.Schedules (c : Checkpoint) (ino : Ino) : Prop :=
  match c.phase with
  | .work => ino ∈ c.dirty
  | .capture => c.capturing = some ino ∨ ∃ w ∈ c.work, w.ino = ino
  | _ => False

/-- The chunks of the session whose content an fsync has set. -/
def Op.sessionChunks : Op → Option (List ChunkRef)
  | .committing .. | .dataSynced _ => none
  | .contentSet chunks _ _ | .logged chunks _ => chunks

/-! ## What a step is of -/

namespace State

variable {params : PoolParams} {s t u : State} {ino : Ino}
variable {a : Action} {op : Op} {c : Checkpoint} {written : List Hash32} {dirty : List Ino}

/-- A step that leaves the mounted state alone, apart from the record store and the logs. -/
structure Background (s t : State) : Prop where
  ns : t.ns = s.ns
  fileState : t.fileState = s.fileState
  openFiles : t.openFiles = s.openFiles
  checkpoint : t.checkpoint = s.checkpoint
  ghost : t.ghost = s.ghost

/-! ## The invariants of a pool whose checkpoints may fail -/

theorem failCheckpoint_spec (h : s.failCheckpoint written = some t) :
    s.mounted = true ∧ ∃ c, s.checkpoint = some c ∧ t = { s with
      store := s.store.putMetaObjects written
      ns.dirtyInodes := s.ns.dirtyInodes ∪ c.dirty
      ops := c.capturing.elim s.ops fun ino ↦ update s.ops ino none
      checkpoint := none } := by
  obtain ⟨hm, h⟩ := ite_none_right_eq_some.1 h
  obtain ⟨c, hc, rfl⟩ := map_eq_some_iff.1 h
  exact ⟨hm, c, hc, rfl⟩

/-- The operations left are those there were. -/
theorem ops_of_failed
    (h : (c.capturing.elim s.ops fun ino ↦ update s.ops ino none) ino = some op) :
    s.ops ino = some op ∧ c.capturing ≠ some ino := by
  cases hc : c.capturing with
  | none => exact ⟨by simpa [hc] using h, by simp⟩
  | some =>
    rw [hc, elim_some] at h
    rcases of_update h with ⟨-, ⟨⟩⟩ | ⟨hne, hop⟩
    exact ⟨hop, fun hi ↦ hne (some.inj hi).symm⟩

/-- A file's bytes are in a session or in a working state. -/
def Working (s : State) (ino : Ino) : Prop :=
  (s.openFiles ino).isSome ∨ (s.fileState ino).isSome

def Scheduled (s : State) (ino : Ino) : Prop :=
  ∃ c, s.checkpoint = some c ∧ c.Schedules ino

def Marked (s : State) (ino : Ino) : Prop :=
  ino ∈ s.ns.dirtyInodes ∨ s.Scheduled ino

/-- What no root has yet is marked. -/
structure Owes (s : State) : Prop where
  file : ∀ ino inode, s.ns.inodes.lookup ino = some inode → inode.kind = .file →
    s.ghost.nsStamp ino = s.ghost.memStamp ino ∨ s.Working ino ∧ s.Marked ino
  directory : ∀ d inode, s.ns.inodes.lookup d = some inode → inode.kind = .directory →
    inode.content = .dirEntries none → s.Marked d
  published : ∀ ino op, s.ops ino = some op → op.sessionChunks.isSome → (s.fileState ino).isSome
  capture : ∀ ino todo missed refs, s.ops ino = some (.committing .capture todo missed refs) →
    ∃ c, s.checkpoint = some c ∧ c.phase = .capture ∧ c.capturing = some ino
  capturing : ∀ c, s.checkpoint = some c → c.phase ≠ .capture → c.capturing = none
  drained : ∀ c, s.checkpoint = some c → ∀ ino, c.Schedules ino → ino ∈ c.dirty

/-- An action on a file sets the content of its inode from memory or leaves it, and new bytes are in
a session or a working state of a dirty file. It captures nothing. -/
structure Continues (ino : Ino) (s t : State) : Prop where
  nsStamp : t.ghost.nsStamp ino = s.ghost.nsStamp ino ∨ t.ghost.nsStamp ino = t.ghost.memStamp ino
  memStamp : t.ghost.memStamp ino = s.ghost.memStamp ino ∨ t.Working ino ∧ ino ∈ t.ns.dirtyInodes
  fileState : (s.fileState ino).isSome → (t.fileState ino).isSome
  working : s.Working ino → t.Working ino
  capture : ∀ todo missed refs, t.ops ino = some (.committing .capture todo missed refs) →
    ∃ todo missed refs, s.ops ino = some (.committing .capture todo missed refs)

namespace Continues

theorem trans (hst : s.Continues ino t) (htu : t.Continues ino u) (hghost : u.ghost = t.ghost)
    (hdirty : ∀ i ∈ t.ns.dirtyInodes, i ∈ u.ns.dirtyInodes) : s.Continues ino u where
  nsStamp := by
    rw [hghost]
    exact hst.nsStamp
  memStamp := by
    rw [hghost]
    exact hst.memStamp.imp_right fun h ↦ ⟨htu.working h.1, hdirty ino h.2⟩
  fileState := htu.fileState ∘ hst.fileState
  working := htu.working ∘ hst.working
  capture todo missed refs hop := by
    obtain ⟨todo, missed, refs, hop⟩ := htu.capture todo missed refs hop
    exact hst.capture todo missed refs hop

/-- A step that touches neither the session nor the working state. -/
theorem of_eq (hghost : t.ghost = s.ghost) (hopen : t.openFiles = s.openFiles)
    (hstate : t.fileState = s.fileState)
    (hcapture : ∀ todo missed refs, t.ops ino = some (.committing .capture todo missed refs) →
      ∃ todo missed refs, s.ops ino = some (.committing .capture todo missed refs)) : s.Continues ino t := by
  refine ⟨.inl (by rw [hghost]), .inl (by rw [hghost]), ?_, ?_, hcapture⟩
  · rw [hstate]
    exact id
  · rw [Working, Working, hopen, hstate]
    exact id

theorem refl (ino : Ino) (s : State) : s.Continues ino s :=
  .of_eq rfl rfl rfl fun todo missed refs hop ↦ ⟨todo, missed, refs, hop⟩

theorem setFileState (s : State) (state : FileWorkingState) : s.Continues ino (s.setFileState ino state) where
  nsStamp := .inl rfl
  memStamp := .inl rfl
  fileState _ := by simp [State.setFileState]
  working _ := .inr (by simp [State.setFileState])
  capture todo missed refs hop := ⟨todo, missed, refs, hop⟩

theorem hydrates (h : s.Hydrates ino t) : s.Continues ino t ∧ (t.fileState ino).isSome := by
  cases h with
  | present hstate => exact ⟨.refl ino s, hstate⟩
  | set state => exact ⟨.setFileState s state, by simp [State.setFileState]⟩

theorem begins (h : Begins params ino s t) : s.Continues ino t := by
  induction h with
  | same s => exact .refl ino s
  | incremental =>
    exact ⟨.inl rfl, .inl rfl, id, fun _ ↦ .inl (by simp [beginIncremental, setOp]),
      fun _ _ _ hop ↦ by simp [beginIncremental, setOp] at hop⟩
  | @rechunk s u hu state =>
    have hstate : ((u.beginRechunk params ino state).fileState ino).isSome := by
      simp [beginRechunk, setOp, State.markDirty, State.setFileState]
    cases hu <;> exact ⟨.inl rfl, .inl rfl, fun _ ↦ hstate, fun _ ↦ .inr hstate,
      fun _ _ _ hop ↦ by simp [beginRechunk, setOp] at hop⟩
  | @materialize s t _ h ih =>
    refine .trans ?_ ih (Unstamped.begins h).ghost (Local.begins h).dirty
    exact ⟨.inl rfl, .inl rfl, fun _ ↦ by simp [State.setFileState, closeSession],
      fun _ ↦ .inr (by simp [State.setFileState, closeSession]), fun todo missed refs hop ↦ ⟨todo, missed, refs, hop⟩⟩

theorem works (h : s.Works params ino t) : s.Continues ino t := by
  cases h with
  | begins h => exact .begins h
  | commit hop =>
    refine .of_eq rfl rfl rfl fun _ _ _ hop' ↦ ?_
    simp only [setOp, update_self, some.injEq, Op.committing.injEq] at hop'
    exact ⟨_, _, _, hop'.1 ▸ hop⟩
  | fsync | barrier => exact .of_eq rfl rfl rfl (by simp [setOp])

theorem endWrite {size : Nat} (h : s.Continues ino u) (hghost : u.ghost = s.ghost) (hu : u.Working ino) :
    s.Continues ino (u.endWrite ino size) := by
  unfold State.endWrite
  split_ifs
  · refine ⟨.inl (by simp [setOp, stampWrite, hghost]), .inr ⟨hu, mem_insert_self⟩, h.fileState, fun _ ↦ hu, ?_⟩
    simp [setOp]
  · refine ⟨.inl (by simp [setOp, hghost]), .inl (by simp [setOp, hghost]), h.fileState, fun _ ↦ hu, ?_⟩
    simp [setOp]

theorem finishWrite (h : s.finishWrite ino = some t) : s.Continues ino t := by
  unfold State.finishWrite at h
  split at h
  · obtain ⟨_, _, rfl⟩ := map_eq_some_iff.1 h
    refine Continues.endWrite ⟨.inl rfl, .inl rfl, id, fun _ ↦ ?_, fun _ _ _ hop ↦ ⟨_, _, _, hop⟩⟩ rfl ?_ <;>
      exact .inl (by simp)
  · obtain ⟨_, _, rfl⟩ := map_eq_some_iff.1 h
    exact (Continues.setFileState s _).endWrite rfl (.inr (by simp [State.setFileState]))
  · simp at h

theorem finishPublish {chunks : Option (List ChunkRef)} {content : ContentRef} (h : s.Continues ino u)
    (hghost : u.ghost = s.ghost) : s.Continues ino (u.finishPublish ino chunks content) := by
  unfold State.finishPublish
  split
  · refine ⟨.inl (by simp [setOp, hghost]), .inl (by simp [setOp, hghost]), h.fileState, h.working, ?_⟩
    simp [setOp]
  · refine ⟨.inr (by simp [setOp, publishContent]), .inl (by simp [setOp, publishContent, hghost]), h.fileState,
      h.working, ?_⟩
    simp [setOp]

theorem fsyncPublish (h : s.fsyncPublish params ino = some t) : s.Continues ino t := by
  obtain ⟨-, rfl | ⟨u, _, _, hu, rfl⟩⟩ := fsyncPublish_eq_some h
  · exact .of_eq rfl rfl rfl (by simp [setOp])
  · exact (Continues.hydrates hu).1.finishPublish (by cases hu <;> rfl)

theorem finishFsync (h : s.finishFsync params ino = some t)
    (hpublished : ∀ op, s.ops ino = some op → op.sessionChunks.isSome → (s.fileState ino).isSome) :
    s.Continues ino t := by
  unfold State.finishFsync at h
  split at h
  · next hop =>
    have hstate := hpublished _ hop
    split_ifs at h with hholder hchunks <;> cases h
    · exact ⟨.inl rfl, .inl rfl, id, fun _ ↦ .inr (hstate hchunks), by simp [setOp]⟩
    · exact ⟨.inl rfl, .inl rfl, id, id, by simp [setOp]⟩
  · simp at h

end Continues

theorem FileAction.continues (ha : FileAction ino a) (h : s.mountedStep params a = some t)
    (hpublished : ∀ op, s.ops ino = some op → op.sessionChunks.isSome → (s.fileState ino).isSome) :
    s.Continues ino t := by
  rcases ha.cases h with hworks | hfinish | hpublish | hfinish
  · exact .works hworks
  · exact .finishWrite hfinish
  · exact .fsyncPublish hpublish
  · exact .finishFsync hfinish hpublished

theorem sessionChunks_of_not_isPublished (h : op.isPublished = false) : op.sessionChunks = none := by
  cases op <;> simp [Op.isPublished, Op.sessionChunks] at h ⊢

/-- The session of a content that is set has its bytes in the working state. -/
theorem FileAction.published (ha : FileAction ino a) (h : s.mountedStep params a = some t)
    (hpublished : ∀ op, s.ops ino = some op → op.sessionChunks.isSome → (s.fileState ino).isSome)
    (hop : t.ops ino = some op) (hchunks : op.sessionChunks.isSome) : (t.fileState ino).isSome := by
  have hcontinues := ha.continues h hpublished
  rcases ha.cases h with hworks | hfinish | hpublish | hfinish
  · rcases hworks.unstamped.op op hop with hfalse | hold
    · simp [sessionChunks_of_not_isPublished hfalse] at hchunks
    · exact hcontinues.fileState (hpublished op hold hchunks)
  · simp [(finishWrite_spec hfinish).2.1] at hop
  · obtain ⟨-, rfl | ⟨u, _, _, hu, rfl⟩⟩ := fsyncPublish_eq_some hpublish
    · simp [setOp] at hop
    · have hstate := (Continues.hydrates hu).2
      unfold finishPublish
      split <;> exact hstate
  · obtain ⟨_, _, _, hnone, _⟩ := finishFsync_spec hfinish
    simp [hnone] at hop

theorem Marked.of_dirty (h : s.Marked ino) (hcheckpoint : t.checkpoint = s.checkpoint)
    (hdirty : ino ∈ s.ns.dirtyInodes → ino ∈ t.ns.dirtyInodes) : t.Marked ino := by
  refine h.imp hdirty ?_
  rintro ⟨c, hc, hino⟩
  exact ⟨c, hcheckpoint ▸ hc, hino⟩

theorem Owes.fileAction (h : s.Owes) (hns : s.TracksNamespace) (ha : FileAction ino a)
    (hst : s.mountedStep params a = some t) : t.Owes := by
  have hlocal := ha.isLocal hst
  have hcontinues := ha.continues hst (h.published ino)
  have hmarked : ∀ {i}, s.Marked i → t.Marked i := fun hi ↦ hi.of_dirty hlocal.checkpoint (hlocal.dirty _)
  have hworking : ∀ {i}, s.Working i → t.Working i := by
    intro i hi
    by_cases heq : i = ino
    · exact heq ▸ hcontinues.working (heq ▸ hi)
    · rwa [Working, hlocal.openFiles i heq, hlocal.fileState i heq]
  refine ⟨fun i x' hx' hkind ↦ ?_, fun d _ hx' hkind hcontent ↦ ?_, fun i op hop hchunks ↦ ?_,
    fun i todo missed refs hop ↦ ?_, fun c hc ↦ h.capturing c (hlocal.checkpoint ▸ hc),
    fun c hc ↦ h.drained c (hlocal.checkpoint ▸ hc)⟩
  · obtain ⟨x, hx, hsame, -⟩ := hlocal.lookup hx'
    have hold := h.file i x hx (hsame.trans hkind)
    by_cases heq : i = ino
    · subst heq
      rcases hcontinues.nsStamp with hstamp | hstamp
      · rcases hcontinues.memStamp with hmem | ⟨hnew, hdirty⟩
        · rw [hstamp, hmem]
          exact hold.imp_right fun h ↦ ⟨hworking h.1, hmarked h.2⟩
        · exact .inr ⟨hnew, .inl hdirty⟩
      · exact .inl hstamp
    · rw [hlocal.nsStamp i heq, hlocal.memStamp i heq]
      exact hold.imp_right fun h ↦ ⟨hworking h.1, hmarked h.2⟩
  · obtain ⟨x, hx, hsame, -, hother⟩ := hlocal.lookup hx'
    have hne : d ≠ ino := by
      rintro rfl
      simp [hns.isFile ha hst hx, hkind] at hsame
    obtain rfl := hother hne
    exact hmarked (h.directory d x hx hkind hcontent)
  · by_cases heq : i = ino
    · subst heq
      exact ha.published hst (h.published i) hop hchunks
    · rw [hlocal.fileState i heq]
      exact h.published i op (hlocal.ops i heq ▸ hop) hchunks
  · rw [hlocal.checkpoint]
    by_cases heq : i = ino
    · subst heq
      obtain ⟨todo, missed, refs, hop⟩ := hcontinues.capture todo missed refs hop
      exact h.capture i todo missed refs hop
    · exact h.capture i todo missed refs (hlocal.ops i heq ▸ hop)

theorem Owes.names {ns : Namespace} (h : s.Owes) (hedits : s.ns.Edits ns) : Owes { s with ns := ns } := by
  have hmarked : ∀ {i x'}, ns.inodes.lookup i = some x' → s.Marked i → Marked { s with ns := ns } i :=
    fun hx' hi ↦ hi.of_dirty rfl fun hmem ↦ hedits.dirty _ hmem (by simp [hx'])
  refine ⟨fun i x' hx' hkind ↦ ?_, fun d x' hx' hkind hcontent ↦ ?_, h.published, h.capture, h.capturing, h.drained⟩
  · obtain ⟨x, hx, hsame, -⟩ := hedits.inode i x' hx'
    exact (h.file i x hx (hsame.symm.trans hkind)).imp_right fun h ↦ ⟨h.1, hmarked hx' h.2⟩
  · obtain ⟨x, hx, hsame, -, hcontent'⟩ := hedits.inode d x' hx'
    exact hmarked hx' (h.directory d x hx (hsame.symm.trans hkind) (hcontent'.symm.trans hcontent))

theorem Owes.createEntry {parent : Ino} {name : String} {kind : InodeKind} {target : String} (h : s.Owes)
    (hst : s.createEntry parent name kind target = some t) : t.Owes := by
  obtain ⟨ino, _, hcreate, rfl⟩ := createEntry_spec hst
  obtain ⟨-, -, -, hlookup, hnew, hdirty⟩ := Namespace.createEntry_ok hcreate
  refine ⟨fun i x' hx' hkind ↦ ?_, fun d x' hx' hkind hcontent ↦ ?_, h.published, h.capture, h.capturing, h.drained⟩
  · rw [hlookup] at hx'
    by_cases heq : i = ino
    · exact .inl (by simp [heq])
    · rw [if_neg heq] at hx'
      simp only [update_of_ne heq]
      exact (h.file i x' hx' hkind).imp_right fun h ↦ ⟨h.1, h.2.of_dirty rfl (hdirty i)⟩
  · rw [hlookup] at hx'
    by_cases heq : d = ino
    · exact .inl (heq ▸ hnew)
    · rw [if_neg heq] at hx'
      exact (h.directory d x' hx' hkind hcontent).of_dirty rfl (hdirty d)

theorem Owes.background (h : s.Owes) (hst : s.Background t)
    (hops : ∀ ino op, t.ops ino = some op → ∃ op', s.ops ino = some op' ∧ op'.sessionChunks = op.sessionChunks ∧
      (∀ todo missed refs, op = .committing .capture todo missed refs → op' = op)) : t.Owes := by
  have hmarked : ∀ {i}, s.Marked i → t.Marked i := fun hi ↦ hi.of_dirty hst.checkpoint (by rw [hst.ns]; exact id)
  have hworking : ∀ {i}, s.Working i → t.Working i := by
    intro i
    rw [Working, Working, hst.openFiles, hst.fileState]
    exact id
  refine ⟨fun i x hx hkind ↦ ?_, fun d x hx hkind hcontent ↦ ?_, fun i op hop hchunks ↦ ?_,
    fun i todo missed refs hop ↦ ?_, fun c hc ↦ h.capturing c (hst.checkpoint ▸ hc),
    fun c hc ↦ h.drained c (hst.checkpoint ▸ hc)⟩
  · rw [hst.ghost]
    exact (h.file i x (hst.ns ▸ hx) hkind).imp_right fun h ↦ ⟨hworking h.1, hmarked h.2⟩
  · exact hmarked (h.directory d x (hst.ns ▸ hx) hkind hcontent)
  · obtain ⟨op', hop', hsame, -⟩ := hops i op hop
    rw [hst.fileState]
    exact h.published i op' hop' (hsame ▸ hchunks)
  · obtain ⟨_, hop', -, hsame⟩ := hops i _ hop
    rw [hst.checkpoint]
    exact h.capture i todo missed refs (hsame _ _ _ rfl ▸ hop')

theorem Owes.deltaCommit (h : s.Owes) (hst : s.deltaCommit params ino = some t) : t.Owes := by
  obtain ⟨_, _, _, hop, -, rfl⟩ := deltaCommit_spec hst
  refine h.background ⟨rfl, rfl, rfl, rfl, rfl⟩ fun i op hop' ↦ ?_
  rcases of_update hop' with ⟨rfl, ⟨⟩⟩ | ⟨-, hop'⟩
  · exact ⟨_, hop, rfl, by simp⟩
  · exact ⟨op, hop', rfl, fun _ _ _ _ ↦ rfl⟩

theorem Owes.beginCheckpoint (h : s.Owes) (hst : s.beginCheckpoint = some t) : t.Owes := by
  obtain ⟨hnone, c, rfl, hphase, -, -, -, hcapturing⟩ := beginCheckpoint_spec hst
  have hmarked : ∀ {i}, s.Marked i → (s.setCheckpoint (some c)).Marked i := by
    rintro i (hi | ⟨c', hc', -⟩)
    · exact .inl hi
    · simp [hnone] at hc'
  refine ⟨fun i x hx hkind ↦ (h.file i x hx hkind).imp_right fun h ↦ ⟨h.1, hmarked h.2⟩,
    fun d x hx hkind hcontent ↦ hmarked (h.directory d x hx hkind hcontent), h.published,
    fun i todo missed refs hop ↦ ?_, ?_, ?_⟩
  · obtain ⟨_, hc', -⟩ := h.capture i todo missed refs hop
    simp [hnone] at hc'
  · rintro _ ⟨⟩ -
    exact hcapturing
  · rintro _ ⟨⟩ i hi
    simp [Schedules, hphase] at hi

theorem Schedules.inWindow (h : c.Schedules ino) : c.inWindow = true := by
  unfold Checkpoint.Schedules at h
  split at h <;> simp_all [Checkpoint.inWindow]

theorem mem_dirtyWork {w : DirtyWork} (hw : w ∈ s.dirtyWork dirty) :
    w.ino ∈ dirty ∧ ∀ dir, w.dir = some dir → s.ns.dirs w.ino = some dir := by
  obtain ⟨_, hino, hwork⟩ := mem_filterMap.1 hw
  obtain ⟨_, _, rfl⟩ := map_eq_some_iff.1 hwork
  refine ⟨hino, fun _ hdir ↦ ?_⟩
  dsimp only at hdir
  split_ifs at hdir
  exact hdir

theorem exists_dirtyWork (hino : ino ∈ dirty) (hsome : (s.ns.inodes.lookup ino).isSome) :
    ∃ w ∈ s.dirtyWork dirty, w.ino = ino := by
  obtain ⟨_, hinode⟩ := isSome_iff_exists.1 hsome
  exact ⟨_, mem_filterMap.2 ⟨ino, hino, by rw [hinode]; rfl⟩, rfl⟩

theorem Marked.checkpointStep (h : s.Marked ino) (hsome : (s.ns.inodes.lookup ino).isSome)
    (hst : s.checkpointStep params = some t) : t.Marked ino := by
  obtain ⟨c, hc, heffect⟩ := checkpointStep_effect hst
  rcases h with hmem | ⟨_, hc', hino⟩
  · cases heffect with
    | pass hpass => exact .inl (hpass.marks ▸ hmem)
    | drain => exact .inr ⟨_, rfl, hmem⟩
    | work | snapshot | superblock => exact .inl hmem
  · cases hc.symm.trans hc'
    cases heffect with
    | pass hpass => cases (Schedules.inWindow hino).symm.trans hpass.inWindow.1
    | work hphase =>
      simp only [Schedules, hphase] at hino
      exact .inr ⟨_, rfl, .inr (exists_dirtyWork hino hsome)⟩
    | snapshot hphase hwork hcapturing => simp [Schedules, hphase, hwork, hcapturing] at hino
    | drain hphase | superblock hphase => simp [Schedules, hphase] at hino

theorem Owes.checkpointStep (h : s.Owes) (hst : s.checkpointStep params = some t) : t.Owes := by
  have hframe := checkpointStep_frame hst
  have hmarked : ∀ {i x}, s.ns.inodes.lookup i = some x → s.Marked i → t.Marked i :=
    fun hx hi ↦ hi.checkpointStep (by simp [hx]) hst
  obtain ⟨c, hc, heffect⟩ := checkpointStep_effect hst
  refine ⟨fun i x hx hkind ↦ ?_, fun d x hx hkind hcontent ↦ ?_, ?_, fun i todo missed refs hop ↦ ?_,
    fun c' hc' hphase' ↦ ?_, fun _ hc' i hi ↦ ?_⟩
  · rw [hframe.inodes] at hx
    rw [hframe.nsStamp, hframe.memStamp, Working, hframe.openFiles, hframe.fileState]
    exact (h.file i x hx hkind).imp_right fun h ↦ ⟨h.1, hmarked hx h.2⟩
  · rw [hframe.inodes] at hx
    exact hmarked hx (h.directory d x hx hkind hcontent)
  · rw [hframe.ops, hframe.fileState]
    exact h.published
  · rw [hframe.ops] at hop
    obtain ⟨_, hc₀, hphase, hcapturing⟩ := h.capture i todo missed refs hop
    cases hc.symm.trans hc₀
    cases heffect with
    | pass hpass => simpa [inWindow, hphase] using hpass.inWindow.1
    | snapshot _ _ hnone => simp [hnone] at hcapturing
    | drain hphase' | work hphase' | superblock hphase' => simp [hphase] at hphase'
  · cases heffect with
    | pass hpass =>
      cases hc'.symm.trans hpass.checkpoint
      refine hpass.capturing.trans (h.capturing c hc fun hphase ↦ ?_)
      simpa [inWindow, hphase] using hpass.inWindow.1
    | superblock => cases hc'
    | drain hphase =>
      cases hc'
      exact h.capturing c hc (by simp [hphase])
    | work =>
      cases hc'
      exact absurd rfl hphase'
    | snapshot _ _ hnone =>
      cases hc'
      exact hnone
  · cases heffect with
    | pass hpass =>
      cases hc'.symm.trans hpass.checkpoint
      cases (Schedules.inWindow hi).symm.trans hpass.inWindow.2
    | superblock => cases hc'
    | drain =>
      cases hc'
      exact hi
    | snapshot =>
      cases hc'
      exact hi.elim
    | work hphase =>
      cases hc'
      rcases hi with hi | ⟨w, hw, rfl⟩
      · simp [h.capturing c hc (by simp [hphase])] at hi
      · exact (mem_dirtyWork hw).1

/-- The first step on an inode leaves every other inode to be captured. -/
theorem schedules_without {i : Ino} (h : c.Schedules i) (hphase : c.phase = .capture)
    (hne : i ≠ ino) (capturing : Option Ino) (hcapturing : c.capturing = none) :
    Schedules { c.without ino with capturing := capturing } i := by
  simp only [Schedules, hphase, hcapturing, without] at h ⊢
  obtain ⟨w, hw, rfl⟩ := h.resolve_left (by simp)
  exact .inr ⟨w, mem_filter.2 ⟨hw, by simpa using hne⟩, rfl⟩

theorem Owes.beginCapture (h : s.Owes) (htracks : ∀ c, s.checkpoint = some c → s.TracksCheckpoint c)
    (hst : s.beginCapture ino = some t) : t.Owes := by
  obtain ⟨c, w, hc, hphase, hcapturing, hw, rfl, hcaptures⟩ := beginCapture_captures hst
  obtain ⟨hstate, hopen⟩ := hcaptures.files
  have hkind := ((htracks c hc).work w hw).1
  have hmarked : ∀ {i}, (i = w.ino → w.kind = .file) → s.Marked i → t.Marked i := by
    rintro i hi (hdirty | ⟨c', hc', hschedules⟩)
    · exact .inl (hcaptures.ns.2.1 ▸ hdirty)
    · cases hc.symm.trans hc'
      refine .inr ⟨_, hcaptures.checkpoint, ?_⟩
      by_cases heq : i = w.ino
      · simp [Schedules, without, hphase, hi heq, heq]
      · exact schedules_without hschedules hphase heq _ hcapturing
  refine ⟨fun i x' hx' hfile ↦ ?_, fun d x' hx' hdir hcontent ↦ ?_, fun i op hop hchunks ↦ ?_,
    fun i todo missed refs hop ↦ ?_, fun c' hc' hne ↦ ?_, fun c' hc' i hi ↦ ?_⟩
  · obtain ⟨x, hx, hsame, -⟩ := hcaptures.inode i x' hx'
    rw [hsame] at hfile
    rw [Working, hcaptures.ghost, hopen, hstate]
    exact (h.file i x hx hfile).imp_right fun h ↦ ⟨h.1, hmarked (fun heq ↦ (hkind x (heq ▸ hx)).symm.trans hfile) h.2⟩
  · obtain ⟨x, hx, -, hcase⟩ := hcaptures.inode d x' hx'
    split_ifs at hcase with hencoded
    · simp [hcontent] at hcase
    · subst hcase
      refine hmarked (fun heq ↦ absurd ⟨heq, ?_⟩ hencoded) (h.directory d x' hx hdir hcontent)
      exact (hkind x' (heq ▸ hx)).symm.trans hdir
  · rw [hstate]
    rcases hcaptures.ops i op hop with hop | ⟨-, -, _, rfl⟩
    · exact h.published i op hop hchunks
    · simp [Op.sessionChunks] at hchunks
  · rcases hcaptures.ops i _ hop with hop | ⟨rfl, hfile, -⟩
    · obtain ⟨_, hc', -, hi⟩ := h.capture i todo missed refs hop
      cases hc.symm.trans hc'
      simp [hcapturing] at hi
    · exact ⟨_, hcaptures.checkpoint, hphase, by simp [hfile]⟩
  · cases hcaptures.checkpoint.symm.trans hc'
    exact absurd hphase hne
  · cases hcaptures.checkpoint.symm.trans hc'
    have hschedules : ∀ x ∈ c.work, x.ino ∈ c.dirty := fun x hx ↦
      h.drained c hc x.ino (by simp only [Schedules, hphase]; exact .inr ⟨x, hx, rfl⟩)
    simp only [Schedules, without, hphase] at hi
    rcases hi with hi | ⟨x, hx, rfl⟩
    · split_ifs at hi
      exact some.inj hi ▸ hschedules w hw
    · exact hschedules x (mem_of_mem_filter hx)

/-- A captured file's inode object has the content in memory. -/
theorem nsStamp_capture (params : PoolParams) (refs : List ChunkRef) {inode : InodeObject} (h : s.Owes)
    (hinode : s.ns.inodes.lookup ino = some inode) (hkind : inode.kind = .file) :
    (s.captureFile params ino (finalizedChunks (s.openFiles ino) refs)).ghost.nsStamp ino =
      (s.captureFile params ino (finalizedChunks (s.openFiles ino) refs)).ghost.memStamp ino := by
  unfold captureFile
  split_ifs with hnone
  · refine (h.file ino inode hinode hkind).resolve_right ?_
    rintro ⟨hworking, -⟩
    simp only [finalizedChunks, isNone_map, isNone_iff_eq_none] at hnone
    simp [Working, hnone.1, hnone.2] at hworking
  · unfold captureContent
    split <;> simp [publishContent]

theorem Owes.finishCapture (h : s.Owes) (hns : s.TracksNamespace) (hst : s.finishCapture params ino = some t) :
    t.Owes := by
  obtain ⟨c, refs, hc, hop, rfl⟩ := finishCapture_spec hst
  obtain ⟨c', hc', hphase, hcapturing⟩ := h.capture ino _ _ _ hop
  cases hc.symm.trans hc'
  have hlocal := Local.capture params ino s (finalizedChunks (s.openFiles ino) refs)
  set u := ((s.captureFile params ino (finalizedChunks (s.openFiles ino) refs)).dropSession ino
    (finalizedChunks (s.openFiles ino) refs)).setOp ino none with hu
  have hmarked : ∀ {i}, i ≠ ino → s.Marked i → (u.setCheckpoint (some { c with capturing := none })).Marked i := by
    rintro i hne (hi | ⟨c', hc', hi⟩)
    · exact .inl (hlocal.dirty i hi)
    · cases hc.symm.trans hc'
      refine .inr ⟨_, rfl, ?_⟩
      simp only [Schedules, hphase, hcapturing] at hi ⊢
      exact .inr (hi.resolve_left fun heq ↦ hne (some.inj heq).symm)
  refine ⟨fun i x' hx' hkind ↦ ?_, fun d _ hx' hkind hcontent ↦ ?_, fun i op hop' hchunks ↦ ?_,
    fun i todo missed refs hop' ↦ ?_, ?_, ?_⟩
  · obtain ⟨x, hx, hsame, -⟩ := hlocal.lookup hx'
    have hfile := hsame.trans hkind
    by_cases heq : i = ino
    · subst heq
      have hstamp := nsStamp_capture params refs h hx hfile
      refine .inl ?_
      simpa [u, setCheckpoint, setOp, dropSession_ghost] using hstamp
    · have hold := h.file i x hx hfile
      refine hold.imp (fun h ↦ ?_) fun h ↦ ⟨?_, hmarked heq h.2⟩
      · change u.ghost.nsStamp i = u.ghost.memStamp i
        rw [hlocal.nsStamp i heq, hlocal.memStamp i heq, h]
      · change (u.openFiles i).isSome ∨ (u.fileState i).isSome
        rw [hlocal.openFiles i heq, hlocal.fileState i heq]
        exact h.1
  · obtain ⟨x, hx, hsame, -, hother⟩ := hlocal.lookup hx'
    have hne : d ≠ ino := by
      rintro rfl
      simp [hns.ops d (by simp [hop]) x hx, hkind] at hsame
    obtain rfl := hother hne
    exact hmarked hne (h.directory d x hx hkind hcontent)
  · have hne : i ≠ ino := by
      rintro rfl
      simp [u, setCheckpoint, setOp] at hop'
    change (u.fileState i).isSome
    rw [hlocal.fileState i hne]
    exact h.published i op ((hlocal.ops i hne).symm.trans hop') hchunks
  · have hne : i ≠ ino := by
      rintro rfl
      simp [u, setCheckpoint, setOp] at hop'
    obtain ⟨_, hc', -, hi⟩ := h.capture i todo missed refs ((hlocal.ops i hne).symm.trans hop')
    cases hc.symm.trans hc'
    exact absurd (some.inj (hcapturing.symm.trans hi)).symm hne
  · rintro _ ⟨⟩ -
    rfl
  · rintro _ ⟨⟩ i hi
    refine h.drained c hc i ?_
    simp only [Schedules, hphase] at hi ⊢
    exact .inr (hi.resolve_left (by simp))

/-- The marks are merged, so nothing is lost with the checkpoint. -/
theorem Owes.failCheckpoint (h : s.Owes) (hst : s.failCheckpoint written = some t) : t.Owes := by
  obtain ⟨-, c, hc, rfl⟩ := failCheckpoint_spec hst
  have hdirty : ∀ {i}, s.Marked i → i ∈ s.ns.dirtyInodes ∪ c.dirty := by
    rintro i (hi | ⟨c', hc', hi⟩)
    · exact mem_union_iff.2 (.inl hi)
    · cases hc.symm.trans hc'
      exact mem_union_iff.2 (.inr (h.drained c hc i hi))
  refine ⟨fun i x hx hkind ↦ (h.file i x hx hkind).imp_right fun h ↦ ⟨h.1, .inl (hdirty h.2)⟩,
    fun d x hx hkind hcontent ↦ .inl (hdirty (h.directory d x hx hkind hcontent)),
    fun i op hop hchunks ↦ h.published i op (ops_of_failed hop).1 hchunks, fun i todo missed refs hop ↦ ?_, by simp,
    by simp⟩
  obtain ⟨hop, hne⟩ := ops_of_failed hop
  obtain ⟨_, hc', -, hi⟩ := h.capture i todo missed refs hop
  cases hc.symm.trans hc'
  exact absurd hi hne

end State

end Lchfs.Store
