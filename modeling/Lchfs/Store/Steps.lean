import Lchfs.Store.Evolution
import Lchfs.Store.Pool

/-!
# What the steps of a pool can do

The write path and the fsync path work on one inode under its lock. `Local` says what
such a step leaves alone; it is closed under composition, and every step of these
paths is built from parts that satisfy it.
-/

namespace Lchfs.Store

open Lchfs.Format Lchfs.Library
open List Option
open Function State Namespace

namespace State

/-- The step touches one file: its inode, its working state, its session, its operation
and its stamps, besides the record store. -/
structure Local (ino : Ino) (s t : State) : Prop where
  store : s.store.Evolves t.store
  delta : t.delta = s.delta
  shardSuperblock : t.shardSuperblock = s.shardSuperblock
  slot : t.slot = s.slot
  deltaLogs : t.deltaLogs = s.deltaLogs
  checkpoint : t.checkpoint = s.checkpoint
  publishedWatermarks : t.publishedWatermarks = s.publishedWatermarks
  mounted : t.mounted = s.mounted
  dirs : t.ns.dirs = s.ns.dirs
  nextIno : t.ns.nextIno = s.ns.nextIno
  generation : t.ns.generation = s.ns.generation
  inode : ∀ i, i ≠ ino → t.ns.inodes.lookup i = s.ns.inodes.lookup i
  kind : (t.ns.inodes.lookup ino).map (·.kind) = (s.ns.inodes.lookup ino).map (·.kind)
  nlink : (t.ns.inodes.lookup ino).map (·.nlink) = (s.ns.inodes.lookup ino).map (·.nlink)
  dirty : ∀ i ∈ s.ns.dirtyInodes, i ∈ t.ns.dirtyInodes
  fileState : ∀ i, i ≠ ino → t.fileState i = s.fileState i
  openFiles : ∀ i, i ≠ ino → t.openFiles i = s.openFiles i
  ops : ∀ i, i ≠ ino → t.ops i = s.ops i
  clock : s.ghost.clock ≤ t.ghost.clock
  memStamp : ∀ i, i ≠ ino → t.ghost.memStamp i = s.ghost.memStamp i
  nsStamp : ∀ i, i ≠ ino → t.ghost.nsStamp i = s.ghost.nsStamp i
  ackStamp : ∀ i, i ≠ ino → t.ghost.ackStamp i = s.ghost.ackStamp i
  snapStamp : t.ghost.snapStamp = s.ghost.snapStamp
  slotStamp : t.ghost.slotStamp = s.ghost.slotStamp
  replayed : t.ghost.replayed = s.ghost.replayed

variable {params : PoolParams} {ino : Ino} {s t u : State}
variable {offset : Nat} {buf : Bytes} {a : Action} {store : RecordStore} {shard : ShardId}

namespace Local

theorem refl (ino : Ino) (s : State) : s.Local ino s := by
  constructor <;> simp [Relation.ReflTransGen.refl]

theorem trans (hst : s.Local ino t) (htu : t.Local ino u) : s.Local ino u where
  store := hst.store.trans htu.store
  delta := htu.delta.trans hst.delta
  shardSuperblock := htu.shardSuperblock.trans hst.shardSuperblock
  slot := htu.slot.trans hst.slot
  deltaLogs := htu.deltaLogs.trans hst.deltaLogs
  checkpoint := htu.checkpoint.trans hst.checkpoint
  publishedWatermarks := htu.publishedWatermarks.trans hst.publishedWatermarks
  mounted := htu.mounted.trans hst.mounted
  dirs := htu.dirs.trans hst.dirs
  nextIno := htu.nextIno.trans hst.nextIno
  generation := htu.generation.trans hst.generation
  inode i hi := (htu.inode i hi).trans (hst.inode i hi)
  kind := htu.kind.trans hst.kind
  nlink := htu.nlink.trans hst.nlink
  dirty i hi := htu.dirty i (hst.dirty i hi)
  fileState i hi := (htu.fileState i hi).trans (hst.fileState i hi)
  openFiles i hi := (htu.openFiles i hi).trans (hst.openFiles i hi)
  ops i hi := (htu.ops i hi).trans (hst.ops i hi)
  clock := hst.clock.trans htu.clock
  memStamp i hi := (htu.memStamp i hi).trans (hst.memStamp i hi)
  nsStamp i hi := (htu.nsStamp i hi).trans (hst.nsStamp i hi)
  ackStamp i hi := (htu.ackStamp i hi).trans (hst.ackStamp i hi)
  snapStamp := htu.snapStamp.trans hst.snapStamp
  slotStamp := htu.slotStamp.trans hst.slotStamp
  replayed := htu.replayed.trans hst.replayed

theorem setStore (h : s.store.Evolves store) : s.Local ino (s.setStore store) := by
  constructor <;> simp [State.setStore, h]

theorem setFileState (s : State) (state : FileWorkingState) :
    s.Local ino (s.setFileState ino state) := by
  constructor <;> simp +contextual [State.setFileState, Relation.ReflTransGen.refl]

theorem closeSession (s : State) : s.Local ino (s.closeSession ino) := by
  constructor <;> simp +contextual [State.closeSession, Relation.ReflTransGen.refl]

theorem setOp (s : State) (op : Option Op) : s.Local ino (s.setOp ino op) := by
  constructor <;> simp +contextual [State.setOp, Relation.ReflTransGen.refl]

theorem openFile (s : State) (session : Option IncrementalWriteState) :
    s.Local ino { s with openFiles := update s.openFiles ino session } := by
  constructor <;> simp +contextual [Relation.ReflTransGen.refl]

theorem markDirty (s : State) : s.Local ino (s.markDirty ino) := by
  constructor <;> simp +contextual [State.markDirty, Namespace.markDirty,
    Relation.ReflTransGen.refl, mem_insert_iff]

theorem stampWrite (s : State) : s.Local ino (s.stampWrite ino) := by
  constructor <;> simp +contextual [State.stampWrite, Relation.ReflTransGen.refl]

theorem touch (s : State) (size : Nat) : s.Local ino { s with ns := s.ns.touch ino size } := by
  constructor <;> simp +contextual [Namespace.touch, Namespace.markDirty,
    Relation.ReflTransGen.refl, mem_insert_iff, Table.lookup_modify, comp_def]

theorem publishContent (s : State) (content : ContentRef) :
    s.Local ino (s.publishContent ino content) := by
  constructor <;> simp +contextual [State.publishContent, Namespace.setContent,
    Relation.ReflTransGen.refl, Table.lookup_modify, comp_def]

end Local

/-- The working state of a file is there, or it is made from the content. -/
inductive Hydrates (ino : Ino) (s : State) : State → Prop
  | present (h : (s.fileState ino).isSome) : Hydrates ino s s
  | set (state : FileWorkingState) : Hydrates ino s (s.setFileState ino state)

theorem hydrateFileState_hydrates (h : s.hydrateFileState ino = some t) : s.Hydrates ino t := by
  unfold hydrateFileState at h
  split at h
  · next hstate =>
    cases h
    exact .present (by simp [hstate])
  · simp at h
  · split at h
    · cases h
      exact .set _
    · split at h
      · simp at h
      · obtain ⟨_, _, rfl⟩ := map_eq_some_iff.1 h
        exact .set _
    · cases h
      exact .set _

theorem Local.hydrates (h : s.Hydrates ino t) : s.Local ino t := by
  cases h with
  | present => exact .refl ino s
  | set state => exact .setFileState s state

/-- How a write or a change of size begins: a session may have to become a working state first. -/
inductive Begins (params : PoolParams) (ino : Ino) : State → State → Prop
  | same (s : State) : Begins params ino s s
  | incremental (s : State) (buf : Bytes) (session : IncrementalWriteState) :
      Begins params ino s (s.beginIncremental params ino buf session)
  | rechunk {s u : State} (hu : s.Hydrates ino u) (state : FileWorkingState) :
      Begins params ino s (u.beginRechunk params ino state)
  | materialize {s t : State} (state : FileWorkingState)
      (h : Begins params ino ((s.setFileState ino state).closeSession ino) t) : Begins params ino s t

theorem Begins.of_materialize (hu : s.materializeSessionIntoFileState ino = some u)
    (h : Begins params ino u t) : Begins params ino s t := by
  unfold materializeSessionIntoFileState at hu
  split at hu
  · cases hu
    exact h
  · obtain ⟨_, _, rfl⟩ := map_eq_some_iff.1 hu
    exact .materialize _ h

theorem Begins.beginFallback {inode : InodeObject}
    (h : s.beginFallback params ino inode offset buf = some t) : Begins params ino s t := by
  unfold State.beginFallback at h
  split_ifs at h
  · obtain ⟨_, _, rfl⟩ := map_eq_some_iff.1 h
    exact .incremental s _ _
  · cases h
    exact .same s
  · obtain ⟨u, hu, h⟩ := bind_eq_some_iff.1 h
    obtain ⟨_, _, rfl⟩ := map_eq_some_iff.1 h
    exact .rechunk (hydrateFileState_hydrates hu) _

theorem Begins.beginWrite (h : s.beginWrite params ino offset buf = some t) : Begins params ino s t := by
  unfold State.beginWrite at h
  split at h
  · split_ifs at h
    split at h
    · split_ifs at h
      · cases h
        exact .incremental s _ _
      · obtain ⟨u, hu, h⟩ := bind_eq_some_iff.1 h
        exact .of_materialize hu (.beginFallback h)
    · exact .beginFallback h
  · simp at h

theorem Begins.beginSetSize {newSize : Nat} (h : s.beginSetSize params ino newSize = some t) :
    Begins params ino s t := by
  unfold State.beginSetSize at h
  split at h
  · split_ifs at h
    obtain ⟨u, hu, h⟩ := bind_eq_some_iff.1 h
    obtain ⟨v, hv, h⟩ := bind_eq_some_iff.1 h
    obtain ⟨_, _, rfl⟩ := map_eq_some_iff.1 h
    exact .of_materialize hu (.rechunk (hydrateFileState_hydrates hv) _)
  · simp at h

theorem Local.begins (h : Begins params ino s t) : s.Local ino t := by
  induction h with
  | same s => exact .refl ino s
  | incremental s => exact ((markDirty s).trans (.openFile _ _)).trans (.setOp _ _)
  | rechunk hu => exact (((hydrates hu).trans (.setFileState _ _)).trans (.markDirty _)).trans (.setOp _ _)
  | materialize _ _ ih => exact ((setFileState _ _).trans (.closeSession _)).trans ih

theorem Local.endWrite (s : State) (size : Nat) : s.Local ino (s.endWrite ino size) := by
  unfold State.endWrite
  split_ifs
  · exact ((touch s size).trans (.stampWrite _)).trans (.setOp _ _)
  · exact .setOp s _

theorem Local.finishPublish (s : State) (sessionChunks : Option (List ChunkRef))
    (content : ContentRef) : s.Local ino (s.finishPublish ino sessionChunks content) := by
  unfold State.finishPublish
  split
  · exact .setOp s _
  · exact (publishContent s content).trans (.setOp _ _)

theorem Local.finishWrite (h : s.finishWrite ino = some t) : s.Local ino t := by
  unfold State.finishWrite at h
  split at h
  · obtain ⟨_, _, rfl⟩ := map_eq_some_iff.1 h
    exact (openFile s _).trans (.endWrite _ _)
  · obtain ⟨_, _, rfl⟩ := map_eq_some_iff.1 h
    exact (setFileState s _).trans (.endWrite _ _)
  · simp at h

/-- The content of the working state or of the session is published, unless the inode is gone. -/
theorem fsyncPublish_eq_some (h : s.fsyncPublish params ino = some t) :
    (∃ chunks, s.ops ino = some (.dataSynced chunks)) ∧ (t = s.setOp ino none ∨
      ∃ u chunks content, s.Hydrates ino u ∧ t = u.finishPublish ino chunks content) := by
  unfold fsyncPublish at h
  split at h
  · next hop =>
    refine ⟨⟨_, hop⟩, ?_⟩
    split at h
    · cases h
      exact .inl rfl
    · next u hu => exact .inr ⟨u, _, _, hydrateFileState_hydrates hu, (some.inj h).symm⟩
  · next hop =>
    refine ⟨⟨_, hop⟩, ?_⟩
    split at h
    · cases h
      exact .inl rfl
    · exact .inr ⟨_, _, _, .set _, (some.inj h).symm⟩
  · simp at h

theorem Local.fsyncPublish (h : s.fsyncPublish params ino = some t) : s.Local ino t := by
  obtain ⟨-, rfl | ⟨u, _, _, hu, rfl⟩⟩ := fsyncPublish_eq_some h
  · exact .setOp s _
  · exact (hydrates hu).trans (.finishPublish u _ _)

theorem Local.acknowledge (s : State) (stamp : Nat) :
    s.Local ino { s with ghost.ackStamp := update s.ghost.ackStamp ino stamp } := by
  constructor <;> simp +contextual [Relation.ReflTransGen.refl]

theorem Local.finishFsync (h : s.finishFsync params ino = some t) : s.Local ino t := by
  unfold State.finishFsync at h
  split at h
  · split_ifs at h <;> cases h
    · exact ((closeSession s).trans (.acknowledge _ _)).trans (.setOp _ _)
    · exact (acknowledge s _).trans (.setOp _ _)
  · simp at h

/-- A step that makes no content newer and gets no fsync past its data barrier. -/
structure Unstamped (ino : Ino) (s t : State) : Prop where
  ghost : t.ghost = s.ghost
  op : ∀ op, t.ops ino = some op → op.isPublished = false ∨ s.ops ino = some op

namespace Unstamped

/-- The operation that a step starts or continues has not published. -/
theorem committing {goal : CommitGoal} {todo : List (Nat × Bytes)} {missed : Bool}
    {refs : List ChunkRef} (hghost : t.ghost = s.ghost)
    (hop : t.ops ino = some (.committing goal todo missed refs)) : s.Unstamped ino t := by
  refine ⟨hghost, fun _ h ↦ .inl ?_⟩
  cases hop.symm.trans h
  rfl

theorem begins (h : Begins params ino s t) : s.Unstamped ino t := by
  induction h with
  | same => exact ⟨rfl, fun _ hop ↦ .inr hop⟩
  | incremental => exact .committing rfl (update_self _ _ _)
  | rechunk hu => cases hu <;> exact .committing rfl (update_self _ _ _)
  | materialize _ _ ih => exact ⟨ih.ghost, ih.op⟩

end Unstamped

/-- The steps of an operation on a file up to its data barrier, the end of a write apart. -/
inductive Works (params : PoolParams) (ino : Ino) (s : State) : State → Prop
  | begins {t : State} (h : Begins params ino s t) : Works params ino s t
  | commit {goal : CommitGoal} {todo todo' : List (Nat × Bytes)} {missed missed' : Bool} {refs refs' : List ChunkRef}
      {store : RecordStore} (hop : s.ops ino = some (.committing goal todo missed refs))
      (hstore : s.store.Evolves store) :
      Works params ino s ((s.setStore store).setOp ino (some (.committing goal todo' missed' refs')))
  | fsync {todo : List (Nat × Bytes)} :
      Works params ino s ((s.markDirty ino).setOp ino (some (.committing .fsync todo false [])))
  | barrier {store : RecordStore} {chunks : Option (List ChunkRef)} (hstore : s.store.Evolves store) :
      Works params ino s ((s.setStore store).setOp ino (some (.dataSynced chunks)))

namespace Works

theorem prepareChunk (h : s.prepareChunk ino = some t) : s.Works params ino t := by
  unfold State.prepareChunk at h
  split at h
  · next hop => split at h <;> cases h <;> exact .commit hop .refl
  · simp at h

theorem commitChunk (h : s.commitChunk params ino = some t) : s.Works params ino t := by
  unfold State.commitChunk at h
  split at h
  · next hop =>
    cases h
    exact .commit hop (.single (.appendData _ _ _))
  · simp at h

theorem beginFsync (h : s.beginFsync ino = some t) : s.Works params ino t := by
  unfold State.beginFsync at h
  split at h
  · split_ifs at h
    cases h
    exact .fsync
  · simp at h

theorem fsyncBarrier (h : s.fsyncBarrier params ino = some t) : s.Works params ino t := by
  unfold State.fsyncBarrier at h
  split at h
  · cases h
    exact .barrier (.single (.fsyncData _ _))
  · simp at h

theorem isLocal (h : s.Works params ino t) : s.Local ino t := by
  cases h with
  | begins h => exact .begins h
  | commit _ hstore | barrier hstore => exact (Local.setStore hstore).trans (.setOp _ _)
  | fsync => exact (Local.markDirty s).trans (.setOp _ _)

theorem unstamped (h : s.Works params ino t) : s.Unstamped ino t := by
  cases h with
  | begins h => exact .begins h
  | commit | fsync => exact .committing rfl (update_self _ _ _)
  | barrier =>
    refine ⟨rfl, fun _ hop ↦ .inl ?_⟩
    cases (update_self ino _ s.ops).symm.trans hop
    rfl

end Works

/-- The end of a write: the operation is over, and an inode that still exists has a new
content. -/
theorem finishWrite_spec (h : s.finishWrite ino = some t) :
    (∃ goal refs, s.ops ino = some (.committing goal [] false refs)) ∧ t.ops ino = none ∧
      (t.ghost = s.ghost ∨ t.ghost = { s.ghost with
        clock := s.ghost.clock + 1
        memStamp := update s.ghost.memStamp ino (s.ghost.clock + 1) }) := by
  have hend : ∀ (u : State) (size : Nat), u.ghost = s.ghost → (u.endWrite ino size).ops ino = none ∧
      ((u.endWrite ino size).ghost = s.ghost ∨ (u.endWrite ino size).ghost = { s.ghost with
        clock := s.ghost.clock + 1
        memStamp := update s.ghost.memStamp ino (s.ghost.clock + 1) }) := by
    intro u _ hu
    unfold endWrite
    split_ifs
    · exact ⟨update_self _ _ _, .inr (by simp [setOp, stampWrite, hu])⟩
    · exact ⟨update_self _ _ _, .inl hu⟩
  unfold finishWrite at h
  split at h
  · next refs hop =>
    obtain ⟨_, _, rfl⟩ := map_eq_some_iff.1 h
    exact ⟨⟨_, refs, hop⟩, hend _ _ rfl⟩
  · next refs hop =>
    obtain ⟨_, _, rfl⟩ := map_eq_some_iff.1 h
    exact ⟨⟨_, refs, hop⟩, hend _ _ rfl⟩
  · simp at h

/-- The step at which an fsync's content becomes visible to a checkpoint. -/
theorem fsyncPublish_spec (h : s.fsyncPublish params ino = some t) :
    (∃ sessionChunks, s.ops ino = some (.dataSynced sessionChunks)) ∧
      (t.ghost = s.ghost ∧ t.ops ino = none ∨ t.ghost = { s.ghost with
          nsStamp := update s.ghost.nsStamp ino (s.ghost.memStamp ino) } ∧
        ∃ sessionChunks object,
          t.ops ino = some (.contentSet sessionChunks object (s.ghost.memStamp ino))) := by
  have hend : ∀ (u : State) (sessionChunks : Option (List ChunkRef)) (content : ContentRef),
      u.ghost = s.ghost → (u.finishPublish ino sessionChunks content).ghost = s.ghost ∧
        (u.finishPublish ino sessionChunks content).ops ino = none ∨
        (u.finishPublish ino sessionChunks content).ghost = { s.ghost with
          nsStamp := update s.ghost.nsStamp ino (s.ghost.memStamp ino) } ∧
        ∃ sessionChunks' object, (u.finishPublish ino sessionChunks content).ops ino =
          some (.contentSet sessionChunks' object (s.ghost.memStamp ino)) := by
    intro u sessionChunks content hu
    unfold finishPublish
    split
    · exact .inl ⟨hu, update_self _ _ _⟩
    · next inode _ =>
      refine .inr ⟨by simp [setOp, publishContent, hu], sessionChunks,
        { inode with content := content }, ?_⟩
      rw [← hu]
      exact update_self _ _ _
  obtain ⟨hop, rfl | ⟨u, _, _, hu, rfl⟩⟩ := fsyncPublish_eq_some h
  · exact ⟨hop, .inl ⟨rfl, update_self _ _ _⟩⟩
  · exact ⟨hop, hend u _ _ (by cases hu <;> rfl)⟩

theorem finishFsync_spec (h : s.finishFsync params ino = some t) :
    ∃ sessionChunks stamp, s.ops ino = some (.logged sessionChunks stamp) ∧ t.ops ino = none ∧
      t.ghost = { s.ghost with ackStamp := update s.ghost.ackStamp ino stamp } := by
  unfold finishFsync at h
  split at h
  · next sessionChunks stamp hop =>
    split_ifs at h <;> cases h <;>
      exact ⟨sessionChunks, stamp, hop, update_self _ _ _, rfl⟩
  · simp at h

/-- The actions that work on one file under its lock. -/
inductive FileAction (ino : Ino) : Action → Prop
  | beginWrite (offset : Nat) (buf : Bytes) : FileAction ino (.beginWrite ino offset buf)
  | beginSetSize (newSize : Nat) : FileAction ino (.beginSetSize ino newSize)
  | prepareChunk : FileAction ino (.prepareChunk ino)
  | commitChunk : FileAction ino (.commitChunk ino)
  | finishWrite : FileAction ino (.finishWrite ino)
  | beginFsync : FileAction ino (.beginFsync ino)
  | fsyncBarrier : FileAction ino (.fsyncBarrier ino)
  | fsyncPublish : FileAction ino (.fsyncPublish ino)
  | finishFsync : FileAction ino (.finishFsync ino)

section

variable (ha : FileAction ino a) (h : s.mountedStep params a = some t)

include ha h

/-- Only three of these actions stamp a content or get past the data barrier. -/
theorem FileAction.cases : s.Works params ino t ∨ s.finishWrite ino = some t ∨
    s.fsyncPublish params ino = some t ∨ s.finishFsync params ino = some t := by
  cases ha with
  | beginWrite => exact .inl (.begins (.beginWrite h))
  | beginSetSize => exact .inl (.begins (.beginSetSize h))
  | prepareChunk => exact .inl (.prepareChunk h)
  | commitChunk => exact .inl (.commitChunk h)
  | beginFsync => exact .inl (.beginFsync h)
  | fsyncBarrier => exact .inl (.fsyncBarrier h)
  | finishWrite => exact .inr (.inl h)
  | fsyncPublish => exact .inr (.inr (.inl h))
  | finishFsync => exact .inr (.inr (.inr h))

theorem FileAction.isLocal : s.Local ino t := by
  rcases ha.cases h with hworks | hfinish | hpublish | hfinish
  · exact hworks.isLocal
  · exact .finishWrite hfinish
  · exact .fsyncPublish hpublish
  · exact .finishFsync hfinish

/-- Such an action is on an inode that exists or has an operation under way. -/
theorem FileAction.inUse : (s.ns.inodes.lookup ino).isSome ∨ (s.ops ino).isSome := by
  by_contra hnone
  simp only [not_or, not_isSome_iff_eq_none] at hnone
  cases ha <;> simp [mountedStep, State.beginWrite, State.beginSetSize, State.prepareChunk,
    State.commitChunk, State.finishWrite, State.beginFsync, State.fsyncBarrier, State.fsyncPublish,
    State.finishFsync, hnone.1, hnone.2] at h

/-- Such an action starts on a file; later it is the inode's operation that goes on. -/
theorem FileAction.isFile :
    (∃ inode, s.ns.inodes.lookup ino = some inode ∧ inode.kind = .file) ∨ (s.ops ino).isSome := by
  rcases ha.inUse h with hinode | hop
  · cases hop : s.ops ino with
    | some => exact .inr rfl
    | none =>
      obtain ⟨inode, hinode⟩ := isSome_iff_exists.1 hinode
      refine .inl ⟨inode, hinode, ?_⟩
      by_contra hkind
      cases ha <;> simp [mountedStep, State.beginWrite, State.beginSetSize, State.prepareChunk,
        State.commitChunk, State.finishWrite, State.beginFsync, State.fsyncBarrier,
        State.fsyncPublish, State.finishFsync, hinode, hop, hkind] at h
  · exact .inr hop

end

theorem namespaceCall_spec {result : Except PoolError Namespace}
    (h : s.namespaceCall result = some t) : ∃ ns, result = .ok ns ∧ t = { s with ns := ns } := by
  unfold namespaceCall at h
  split at h
  · next ns => exact ⟨ns, rfl, (some.inj h).symm⟩
  · simp at h

theorem createEntry_spec {parent : Ino} {name : String} {kind : InodeKind} {target : String}
    (h : s.createEntry parent name kind target = some t) :
    ∃ ino ns, s.ns.createEntry parent name kind target = .ok (ino, ns) ∧ t = { s with
      ns := ns
      ghost.clock := s.ghost.clock + 1
      ghost.memStamp := update s.ghost.memStamp ino (s.ghost.clock + 1)
      ghost.nsStamp := update s.ghost.nsStamp ino (s.ghost.clock + 1) } := by
  unfold createEntry at h
  split at h
  · next ino ns hcreate => exact ⟨ino, ns, hcreate, (some.inj h).symm⟩
  · simp at h

theorem deltaCommit_spec (h : s.deltaCommit params ino = some t) :
    ∃ sessionChunks object stamp, s.ops ino = some (.contentSet sessionChunks object stamp) ∧
      (s.deltaLogs (params.shardOf ino)).holder = none ∧ t = { s with
        delta := update s.delta (params.shardOf ino)
          ((s.delta (params.shardOf ino)).append (s.deltaLogs (params.shardOf ino)).writer
            ⟨ino, object, (s.deltaLogs (params.shardOf ino)).localEpoch + 1, stamp⟩)
        deltaLogs := update s.deltaLogs (params.shardOf ino)
          { s.deltaLogs (params.shardOf ino) with writer := true, holder := some ino }
        ops := update s.ops ino (some (.logged sessionChunks stamp)) } := by
  unfold deltaCommit at h
  dsimp only at h
  split at h
  · next sessionChunks object stamp hop hholder =>
    exact ⟨sessionChunks, object, stamp, hop, hholder, (some.inj h).symm⟩
  · simp at h

theorem writeShardSuperblock_spec (h : s.writeShardSuperblock shard = some t) :
    (s.deltaLogs shard).holder.isSome ∧ t = { s with
      shardSuperblock := update s.shardSuperblock shard ((s.deltaLogs shard).localEpoch + 1)
      deltaLogs := update s.deltaLogs shard { s.deltaLogs shard with
          localEpoch := (s.deltaLogs shard).localEpoch + 1, holder := none } } := by
  unfold writeShardSuperblock at h
  dsimp only at h
  split at h
  · simp at h
  · next hholder => exact ⟨by simp [hholder], (some.inj h).symm⟩

theorem rollOver_spec (h : s.rollOver shard = some t) :
    (s.deltaLogs shard).holder = none ∧ (s.deltaLogs shard).writer = true ∧
      t = { s with delta := update s.delta shard (s.delta shard ++ [[]]) } := by
  unfold rollOver at h
  dsimp only at h
  split_ifs at h with hcond
  exact ⟨by simpa using hcond.1, hcond.2, (some.inj h).symm⟩

theorem beginCheckpoint_spec (h : s.beginCheckpoint = some t) :
    s.checkpoint = none ∧ ∃ c : Checkpoint, t = s.setCheckpoint (some c) ∧ c.phase = .barrier 0 ∧
      c.watermarks = [] ∧ c.dirty = [] ∧ c.work = [] ∧ c.capturing = none := by
  unfold beginCheckpoint at h
  split at h
  · simp at h
  · next hnone => exact ⟨hnone, _, (some.inj h).symm, rfl, rfl, rfl, rfl, rfl⟩

/-- What the steps of a checkpoint, captures apart, leave alone. -/
structure CheckpointFrame (s t : State) : Prop where
  delta : t.delta = s.delta
  shardSuperblock : t.shardSuperblock = s.shardSuperblock
  deltaLogs : t.deltaLogs = s.deltaLogs
  inodes : t.ns.inodes = s.ns.inodes
  dirs : t.ns.dirs = s.ns.dirs
  nextIno : t.ns.nextIno = s.ns.nextIno
  fileState : t.fileState = s.fileState
  openFiles : t.openFiles = s.openFiles
  ops : t.ops = s.ops
  clock : t.ghost.clock = s.ghost.clock
  memStamp : t.ghost.memStamp = s.ghost.memStamp
  nsStamp : t.ghost.nsStamp = s.ghost.nsStamp
  ackStamp : t.ghost.ackStamp = s.ghost.ackStamp
  replayed : t.ghost.replayed = s.ghost.replayed
  mounted : t.mounted = s.mounted

theorem checkpointStep_frame (h : s.checkpointStep params = some t) : s.CheckpointFrame t := by
  obtain ⟨c, _, h⟩ := bind_eq_some_iff.1 h
  cases hphase : c.phase <;> simp only [hphase] at h
  case watermark shard =>
    unfold checkpointWatermark at h
    dsimp only at h
    split_ifs at h <;> cases h <;> constructor <;> rfl
  case capture =>
    unfold checkpointSnapshot at h
    split_ifs at h
    cases h
    constructor <;> rfl
  all_goals cases h
  case barrier shard => unfold checkpointBarrier; split_ifs <;> constructor <;> rfl
  case flushIndex shard => unfold checkpointFlushIndex; split_ifs <;> constructor <;> rfl
  all_goals constructor <;> rfl

/-- A step of a checkpoint that neither takes the dirty set nor lists the work, takes no snapshot and
does not end the checkpoint. -/
structure Passes (s t : State) (c c' : Checkpoint) : Prop where
  checkpoint : t.checkpoint = some c'
  marks : t.ns.dirtyInodes = s.ns.dirtyInodes
  slot : t.slot = s.slot
  snapStamp : t.ghost.snapStamp = s.ghost.snapStamp
  work : c'.work = c.work
  capturing : c'.capturing = c.capturing
  inoSnapshot : c'.inoSnapshot = c.inoSnapshot
  phase : c.phase.rank < Phase.drain.rank ∧ c'.phase.rank ≤ Phase.drain.rank ∨
    Phase.inodes.rank ≤ c.phase.rank ∧ Phase.inodes.rank ≤ c'.phase.rank
  root : Phase.root.rank < c'.phase.rank →
    Phase.root.rank < c.phase.rank ∧ c'.root = c.root ∨ c'.root.inoMap = c.inoSnapshot

/-- The steps of a checkpoint, captures apart. -/
inductive CheckpointEffect (s : State) (c : Checkpoint) : State → Prop
  | pass {t : State} {c' : Checkpoint} (h : s.Passes t c c') : CheckpointEffect s c t
  | drain (hphase : c.phase = .drain) : CheckpointEffect s c (s.checkpointDrain c)
  | work (hphase : c.phase = .work) : CheckpointEffect s c
      (s.setCheckpoint (some { c with phase := .capture, work := s.dirtyWork c.dirty }))
  | snapshot (hphase : c.phase = .capture) (hwork : c.work = []) (hcapturing : c.capturing = none) :
      CheckpointEffect s c ({ s with ghost.snapStamp := s.ghost.nsStamp }.setCheckpoint
        (some { c with phase := .inodes, inoSnapshot := s.inoSnapshot }))
  | superblock (hphase : c.phase = .superblock) : CheckpointEffect s c (s.checkpointSuperblock c)

theorem checkpointStep_effect (h : s.checkpointStep params = some t) :
    ∃ c, s.checkpoint = some c ∧ s.CheckpointEffect c t := by
  obtain ⟨c, hc, h⟩ := bind_eq_some_iff.1 h
  refine ⟨c, hc, ?_⟩
  cases hphase : c.phase <;> simp only [hphase] at h
  case watermark shard =>
    unfold checkpointWatermark at h
    dsimp only at h
    split_ifs at h <;> cases h <;>
      exact .pass ⟨rfl, rfl, rfl, rfl, rfl, rfl, rfl, by simp [hphase], by simp⟩
  case capture =>
    obtain ⟨hcond, ⟨⟩⟩ := ite_none_right_eq_some.1 h
    exact .snapshot hphase (by simpa using hcond.1) (by simpa using hcond.2)
  all_goals cases h
  case drain => exact .drain hphase
  case work => exact .work hphase
  case superblock => exact .superblock hphase
  case root => exact .pass ⟨rfl, rfl, rfl, rfl, rfl, rfl, rfl, by simp [hphase], fun _ ↦ .inr rfl⟩
  case barrier shard =>
    unfold checkpointBarrier
    split_ifs <;> exact .pass ⟨rfl, rfl, rfl, rfl, rfl, rfl, rfl, by simp [hphase], by simp⟩
  case flushIndex shard =>
    unfold checkpointFlushIndex
    split_ifs <;> exact .pass ⟨rfl, rfl, rfl, rfl, rfl, rfl, rfl, by simp [hphase], by simp [hphase]⟩
  all_goals exact .pass ⟨rfl, rfl, rfl, rfl, rfl, rfl, rfl, by simp [hphase], by simp [hphase]⟩

/-- The work of a checkpoint is computed once, from inodes that exist. -/
theorem checkpointStep_work {c' : Checkpoint} {w : DirtyWork} (h : s.checkpointStep params = some t)
    (hc' : t.checkpoint = some c') (hw : w ∈ c'.work) :
    (∃ c, s.checkpoint = some c ∧ w ∈ c.work) ∨ (s.ns.inodes.lookup w.ino).isSome := by
  obtain ⟨c, hc, heffect⟩ := checkpointStep_effect h
  cases heffect with
  | pass h =>
    cases hc'.symm.trans h.checkpoint
    exact .inl ⟨c, hc, h.work ▸ hw⟩
  | superblock => cases hc'
  | work =>
    cases hc'
    simp only [dirtyWork, mem_filterMap, map_eq_some_iff] at hw
    obtain ⟨_, _, _, hinode, rfl⟩ := hw
    exact .inr (by simp [hinode])
  | drain | snapshot =>
    cases hc'
    exact .inl ⟨c, hc, hw⟩

/-- The first step on an inode of the dirty set. -/
theorem beginCapture_find (h : s.beginCapture ino = some t) :
    ∃ c w, s.checkpoint = some c ∧ c.phase = .capture ∧ c.capturing = none ∧
      c.work.find? (·.ino = ino) = some w ∧
      (w.kind = .directory ∧ t = s.captureDirectory (c.without ino) ino (w.dir.getD []) ∨
        w.kind = .symlink ∧ t = s.setCheckpoint (some (c.without ino)) ∨
        w.kind = .file ∧ s.ops ino = none ∧ t = s.lockCaptured (c.without ino) ino) := by
  obtain ⟨c, hc, h⟩ := bind_eq_some_iff.1 h
  split at h
  · simp at h
  · next hphase =>
    simp only [ne_eq, not_or, not_not, not_isSome_iff_eq_none] at hphase
    split at h
    · simp at h
    · next w hw =>
      refine ⟨c, w, hc, hphase.1, hphase.2, hw, ?_⟩
      split at h
      · next hkind => exact .inl ⟨hkind, (some.inj h).symm⟩
      · next hkind => exact .inr (.inl ⟨hkind, (some.inj h).symm⟩)
      · next hkind =>
        split at h
        · simp at h
        · next hop =>
          exact .inr (.inr ⟨hkind, by simpa using hop, (some.inj h).symm⟩)

theorem beginCapture_spec (h : s.beginCapture ino = some t) :
    ∃ c w, s.checkpoint = some c ∧ c.phase = .capture ∧ c.capturing = none ∧ w ∈ c.work ∧
      w.ino = ino ∧
      (w.kind = .directory ∧ t = s.captureDirectory (c.without ino) ino (w.dir.getD []) ∨
        w.kind = .symlink ∧ t = s.setCheckpoint (some (c.without ino)) ∨
        w.kind = .file ∧ s.ops ino = none ∧ t = s.lockCaptured (c.without ino) ino) := by
  obtain ⟨c, w, hc, hphase, hcapturing, hw, hcases⟩ := beginCapture_find h
  exact ⟨c, w, hc, hphase, hcapturing, mem_of_find?_eq_some hw,
    by simpa using find?_some hw, hcases⟩

/-- What the first step on an inode does: a directory is encoded and a file locked. -/
structure Captures (s : State) (c : Checkpoint) (w : DirtyWork) (t : State) : Prop where
  checkpoint : t.checkpoint = some { c.without w.ino with capturing := if w.kind = .file then some w.ino else none }
  inode : ∀ i x', t.ns.inodes.lookup i = some x' → ∃ x, s.ns.inodes.lookup i = some x ∧ x'.kind = x.kind ∧
    if i = w.ino ∧ w.kind = .directory then x'.content = .dirEntries (some (w.dir.getD [])) else x' = x
  ops : ∀ i op, t.ops i = some op → s.ops i = some op ∨
    i = w.ino ∧ w.kind = .file ∧ ∃ todo, op = .committing .capture todo false []
  ns : t.ns.dirs = s.ns.dirs ∧ t.ns.dirtyInodes = s.ns.dirtyInodes ∧ t.ns.nextIno = s.ns.nextIno
  files : t.fileState = s.fileState ∧ t.openFiles = s.openFiles
  ghost : t.ghost = s.ghost
  disk : t.mounted = s.mounted ∧ t.delta = s.delta ∧ t.slot = s.slot

theorem beginCapture_captures (h : s.beginCapture ino = some t) :
    ∃ c w, s.checkpoint = some c ∧ c.phase = .capture ∧ c.capturing = none ∧ w ∈ c.work ∧
      w.ino = ino ∧ s.Captures c w t := by
  obtain ⟨c, w, hc, hphase, hcapturing, hw, rfl, hcases⟩ := beginCapture_spec h
  refine ⟨c, w, hc, hphase, hcapturing, hw, rfl, ?_⟩
  rcases hcases with ⟨hkind, rfl⟩ | ⟨hkind, rfl⟩ | ⟨hkind, -, rfl⟩
  · refine ⟨?_, fun i x' hx' ↦ ?_, fun _ _ ↦ .inl, ⟨rfl, rfl, rfl⟩, ⟨rfl, rfl⟩, rfl, rfl, rfl, rfl⟩
    · simp [captureDirectory, setCheckpoint, hkind, ← hcapturing, Checkpoint.without]
    · simp only [captureDirectory, setCheckpoint, setContent, Table.lookup_modify] at hx'
      split_ifs at hx' with heq
      · obtain ⟨x, hx, rfl⟩ := map_eq_some_iff.1 hx'
        exact ⟨x, hx, rfl, by simp [heq, hkind]⟩
      · exact ⟨x', hx', rfl, by simp [heq]⟩
  · refine ⟨?_, fun i x hx ↦ ⟨x, hx, rfl, by simp [hkind]⟩, fun _ _ ↦ .inl, ⟨rfl, rfl, rfl⟩, ⟨rfl, rfl⟩, rfl, rfl,
      rfl, rfl⟩
    simp [setCheckpoint, hkind, ← hcapturing, Checkpoint.without]
  · refine ⟨by simp [lockCaptured, setCheckpoint, hkind], fun i x hx ↦ ⟨x, hx, rfl, by simp [hkind]⟩,
      fun i _ hop ↦ ?_, ⟨rfl, rfl, rfl⟩, ⟨rfl, rfl⟩, rfl, rfl, rfl, rfl⟩
    rcases of_update hop with ⟨heq, ⟨⟩⟩ | ⟨-, hop⟩
    · exact .inr ⟨heq, hkind, _, rfl⟩
    · exact .inl hop

theorem Local.captureContent (s : State) (content : ContentRef) :
    s.Local ino (s.captureContent ino content) := by
  unfold State.captureContent
  split
  · next chunks =>
    have hput := RecordStore.evolves_putMetaEncoded s.store (.indirectHashList chunks)
    exact (setStore hput).trans (.publishContent _ _)
  · exact .publishContent s content

theorem Local.captureFile (s : State) (sessionChunks : Option (List ChunkRef)) :
    s.Local ino (s.captureFile params ino sessionChunks) := by
  unfold State.captureFile
  split_ifs
  · exact .refl ino s
  · exact .captureContent s _

theorem Local.dropSession (s : State) (sessionChunks : Option (List ChunkRef)) :
    s.Local ino (s.dropSession ino sessionChunks) := by
  unfold State.dropSession
  split_ifs
  · exact .refl ino s
  · refine trans ?_ (.closeSession _)
    constructor <;> simp +contextual [Relation.ReflTransGen.refl]

theorem captureFile_ghost (s : State) (sessionChunks : Option (List ChunkRef)) :
    (s.captureFile params ino sessionChunks).ghost = s.ghost ∨
      (s.captureFile params ino sessionChunks).ghost = { s.ghost with
        nsStamp := update s.ghost.nsStamp ino (s.ghost.memStamp ino) } := by
  unfold captureFile captureContent
  split_ifs
  · exact .inl rfl
  · split <;> exact .inr rfl

theorem dropSession_ghost (s : State) (sessionChunks : Option (List ChunkRef)) :
    (s.dropSession ino sessionChunks).ghost = s.ghost := by
  unfold dropSession
  split_ifs <;> rfl

/-- A capture ends with a local step on its file. -/
theorem finishCapture_spec (h : s.finishCapture params ino = some t) :
    ∃ c refs, s.checkpoint = some c ∧ s.ops ino = some (.committing .capture [] false refs) ∧
      t = ((((s.captureFile params ino (finalizedChunks (s.openFiles ino) refs)).dropSession ino
        (finalizedChunks (s.openFiles ino) refs)).setOp ino none).setCheckpoint
          (some { c with capturing := none })) := by
  obtain ⟨c, hc, h⟩ := bind_eq_some_iff.1 h
  split at h
  · next refs hop => exact ⟨c, refs, hc, hop, (some.inj h).symm⟩
  · simp at h

theorem Local.capture (params : PoolParams) (ino : Ino) (s : State)
    (sessionChunks : Option (List ChunkRef)) :
    s.Local ino (((s.captureFile params ino sessionChunks).dropSession ino sessionChunks).setOp ino
      none) :=
  ((captureFile s sessionChunks).trans (.dropSession _ sessionChunks)).trans (.setOp _ none)

/-! ## The steps of a mounted pool -/

/-- The calls that edit the names of inodes that exist. -/
inductive Call (ns : Namespace) : Action → Namespace → Prop
  | unlink {parent : Ino} {name : String} {ns' : Namespace} (h : ns.unlink parent name = .ok ns') :
      Call ns (.unlink parent name) ns'
  | rmdir {parent : Ino} {name : String} {ns' : Namespace} (h : ns.rmdir parent name = .ok ns') :
      Call ns (.rmdir parent name) ns'
  | link {ino newParent : Ino} {newName : String} {ns' : Namespace} (h : ns.link ino newParent newName = .ok ns') :
      Call ns (.link ino newParent newName) ns'
  | rename {parent newParent : Ino} {name newName : String} {noReplace : Bool} {ns' : Namespace}
      (h : ns.rename parent name newParent newName noReplace = .ok ns') :
      Call ns (.rename parent name newParent newName noReplace) ns'

theorem Call.edited {ns ns' : Namespace} (h : Call ns a ns') : ns.Edited ns' := by
  cases h with
  | unlink h => exact .unlink h
  | rmdir h => exact .rmdir h
  | link h => exact .link h
  | rename h => exact .rename h

/-- What the steps on the record store and the logs leave alone. -/
structure Upkeep (s t : State) : Prop where
  store : s.store.Evolves t.store
  delta : ∀ shard, ∀ c ∈ (t.delta shard).commits, c ∈ (s.delta shard).commits
  slot : t.slot = s.slot
  ns : t.ns = s.ns
  fileState : t.fileState = s.fileState
  openFiles : t.openFiles = s.openFiles
  ops : t.ops = s.ops
  checkpoint : t.checkpoint = s.checkpoint
  mounted : t.mounted = s.mounted
  ghost : t.ghost = s.ghost

theorem Upkeep.setStore (h : s.store.Evolves store) : s.Upkeep (s.setStore store) :=
  ⟨h, fun _ _ ↦ id, rfl, rfl, rfl, rfl, rfl, rfl, rfl, rfl⟩

/-- The steps of a mounted pool, by what they work on. -/
inductive Effect (params : PoolParams) (s : State) : Action → State → Prop
  | names {a : Action} {ns : Namespace} (h : Call s.ns a ns) : Effect params s a { s with ns := ns }
  | create {t : State} {parent : Ino} {name : String} {kind : InodeKind} {target : String}
      (h : s.createEntry parent name kind target = some t) : Effect params s (.createEntry parent name kind target) t
  | file {a : Action} {t : State} {ino : Ino} (ha : FileAction ino a) (h : s.mountedStep params a = some t) :
      Effect params s a t
  | deltaCommit {t : State} {ino : Ino} (h : s.deltaCommit params ino = some t) : Effect params s (.deltaCommit ino) t
  | upkeep {a : Action} {t : State} (h : s.Upkeep t) : Effect params s a t
  | beginCheckpoint {t : State} (h : s.beginCheckpoint = some t) : Effect params s .beginCheckpoint t
  | checkpointStep {t : State} (h : s.checkpointStep params = some t) : Effect params s .checkpointStep t
  | beginCapture {t : State} {ino : Ino} (h : s.beginCapture ino = some t) : Effect params s (.beginCapture ino) t
  | finishCapture {t : State} {ino : Ino} (h : s.finishCapture params ino = some t) :
      Effect params s (.finishCapture ino) t

theorem mountedStep_effect (h : s.mountedStep params a = some t) (ha : a ≠ .crash) : s.Effect params a t := by
  cases a with
  | crash => exact absurd rfl ha
  | openPool => simp [mountedStep] at h
  | createEntry => exact .create h
  | unlink =>
    obtain ⟨_, hns, rfl⟩ := namespaceCall_spec h
    exact .names (.unlink hns)
  | rmdir =>
    obtain ⟨_, hns, rfl⟩ := namespaceCall_spec h
    exact .names (.rmdir hns)
  | link =>
    obtain ⟨_, hns, rfl⟩ := namespaceCall_spec h
    exact .names (.link hns)
  | rename =>
    obtain ⟨_, hns, rfl⟩ := namespaceCall_spec h
    exact .names (.rename hns)
  | beginWrite _ offset buf => exact .file (.beginWrite offset buf) h
  | beginSetSize _ newSize => exact .file (.beginSetSize newSize) h
  | prepareChunk => exact .file .prepareChunk h
  | commitChunk => exact .file .commitChunk h
  | finishWrite => exact .file .finishWrite h
  | beginFsync => exact .file .beginFsync h
  | fsyncBarrier => exact .file .fsyncBarrier h
  | fsyncPublish => exact .file .fsyncPublish h
  | finishFsync => exact .file .finishFsync h
  | deltaCommit => exact .deltaCommit h
  | writeShardSuperblock =>
    obtain ⟨_, rfl⟩ := writeShardSuperblock_spec h
    exact .upkeep ⟨.refl, fun _ _ ↦ id, rfl, rfl, rfl, rfl, rfl, rfl, rfl, rfl⟩
  | rollOver shard =>
    obtain ⟨_, _, rfl⟩ := rollOver_spec h
    refine .upkeep ⟨.refl, fun i c hc ↦ ?_, rfl, rfl, rfl, rfl, rfl, rfl, rfl, rfl⟩
    by_cases heq : i = shard
    · subst heq
      simpa only [update_self, DeltaSegments.commits_rollOver] using hc
    · simpa [heq] using hc
  | truncateDeltaLogs =>
    cases h
    refine .upkeep ⟨.refl, fun _ c hc ↦ ?_, rfl, rfl, rfl, rfl, rfl, rfl, rfl, rfl⟩
    simp only [truncateDeltaLogs] at hc
    split at hc
    · exact DeltaSegments.commits_truncateThrough_sublist.subset hc
    · exact hc
  | closeSegment =>
    cases h
    exact .upkeep (.setStore (.single (.closeSegment _ _)))
  | flushIndex =>
    cases h
    exact .upkeep (.setStore (.single (.flushIndex _ _)))
  | closeMetaWriter =>
    cases h
    exact .upkeep (.setStore (.single (.closeMetaWriter _)))
  | restripe =>
    obtain ⟨_, hstore, rfl⟩ := map_eq_some_iff.1 h
    exact .upkeep (.setStore (.single (.restripe hstore)))
  | removeMirror =>
    obtain ⟨_, hstore, rfl⟩ := map_eq_some_iff.1 h
    exact .upkeep (.setStore (.single (.removeMirror hstore)))
  | beginCheckpoint => exact .beginCheckpoint h
  | checkpointStep => exact .checkpointStep h
  | beginCapture => exact .beginCapture h
  | finishCapture => exact .finishCapture h

end State

end Lchfs.Store
