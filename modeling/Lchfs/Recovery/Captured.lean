import Lchfs.Recovery.InodeNumbers
import Lchfs.Recovery.ReplayOrder
import Lchfs.Store.Links

/-!
# What a checkpoint captures of the directories

A checkpoint takes the dirty set, copies the directories of that set at a later instant,
encodes the copies one by one and snapshots the inodes at the end. `planned` is what it is
going to publish for a directory if nothing else happens: the copy it has taken and not
encoded yet, or the entries recorded in the directory's content. A directory that is not
marked dirty is planned as it is.

The invariant assumes that a crash leaves no entry in the log, above the published
watermarks, other than of inodes that the published root has, with the same kind and the
same link count.
-/

namespace Lchfs.Store

open Lchfs.Format Lchfs.Library
open List Option Table Checkpoint Namespace

/-- The entries recorded in a directory's content. -/
def InodeObject.recorded (inode : InodeObject) : Option DirectoryObject :=
  match inode.kind, inode.content with
  | .directory, .dirEntries dir => some (dir.getD [])
  | _, _ => none

def recorded (inodes : Table Ino InodeObject) (d : Ino) : Option DirectoryObject :=
  (inodes.lookup d).bind InodeObject.recorded

/-- The copy of a directory that the checkpoint publishes and has not encoded yet. Before the
copies are taken, a directory of the drained set stands for itself. -/
def Checkpoint.copyOf (c : Checkpoint) (dirs : Ino → Option DirectoryObject) (d : Ino) :
    Option DirectoryObject :=
  match c.phase with
  | .work => if d ∈ c.dirty then dirs d else none
  | .capture => (c.work.find? (·.ino = d)).bind (·.dir)
  | _ => none

/-- The checkpoint has taken the dirty set and not yet snapshot the inodes. -/
def Checkpoint.inWindow (c : Checkpoint) : Bool :=
  c.phase = .work || c.phase = .capture

/-- No number is mapped twice, and every directory has entries for its content. -/
structure EncodesDirectories (m : InoMap) : Prop where
  nodup : (m.map (·.1)).Nodup
  encoded : ∀ entry ∈ m, entry.2.kind = .directory → ∃ dir, entry.2.content = .dirEntries dir

namespace RecoveredTree

variable {m : InoMap} {d ino : Ino} {inode : InodeObject} {t : RecoveredTree}

theorem dirs_load (t : RecoveredTree) (entry : Ino × InodeObject) (d : Ino) :
    (t.load entry).dirs d =
      if d = entry.1 then (InodeObject.recorded entry.2).or (t.dirs d) else t.dirs d := by
  cases hkind : entry.2.kind <;> cases hcontent : entry.2.content <;>
    by_cases heq : d = entry.1 <;> simp [load, InodeObject.recorded, hkind, hcontent, heq]

/-- Loading other inodes changes neither an inode nor its entries. -/
theorem foldl_load_of_ne (h : ∀ entry ∈ m, entry.1 ≠ d) :
    (m.foldl load t).inodes.lookup d = t.inodes.lookup d ∧ (m.foldl load t).dirs d = t.dirs d := by
  induction m generalizing t with
  | nil => exact ⟨rfl, rfl⟩
  | cons _ m ih =>
    obtain ⟨hne, h⟩ := forall_mem_cons.1 h
    rw [foldl_cons, (ih h).1, (ih h).2, lookup_load, dirs_load, if_neg hne.symm, if_neg hne.symm]
    exact ⟨rfl, rfl⟩

/-- The tree of a map: its inodes, with the entries their contents record. -/
theorem loaded_of_mem (hnodup : (m.map (·.1)).Nodup) (h : (ino, inode) ∈ m) :
    (m.foldl load empty).inodes.lookup ino = some inode ∧
      (m.foldl load empty).dirs ino = InodeObject.recorded inode := by
  obtain ⟨before, after, rfl⟩ := append_of_mem h
  rw [map_append, map_cons, nodup_append] at hnodup
  obtain ⟨_, hafter, hdisjoint⟩ := hnodup
  have hbefore : ∀ entry ∈ before, entry.1 ≠ ino := fun entry hentry ↦
    hdisjoint _ (mem_map_of_mem hentry) _ mem_cons_self
  have hafter : ∀ entry ∈ after, entry.1 ≠ ino := by
    rintro _ hentry rfl
    exact (nodup_cons.1 hafter).1 (mem_map_of_mem (f := (·.1)) hentry)
  rw [foldl_append, foldl_cons, (foldl_load_of_ne hafter).1, (foldl_load_of_ne hafter).2,
    lookup_load, dirs_load, if_pos rfl, if_pos rfl, (foldl_load_of_ne hbefore).2]
  exact ⟨rfl, or_none⟩

theorem loaded_of_not_mem (h : ∀ entry ∈ m, entry.1 ≠ d) :
    (m.foldl load empty).inodes.lookup d = none ∧ (m.foldl load empty).dirs d = none := by
  rw [(foldl_load_of_ne h).1, (foldl_load_of_ne h).2]
  exact ⟨lookup_empty d, rfl⟩

theorem lookup_loaded (hnodup : (m.map (·.1)).Nodup) :
    (m.foldl load empty).inodes.lookup ino = some inode ↔ (ino, inode) ∈ m := by
  refine ⟨fun h ↦ (mem_of_lookup_foldl_load h).resolve_right (by simp [empty]), fun h ↦ ?_⟩
  exact (loaded_of_mem hnodup h).1

/-- The directories of a loaded map are what its inodes record. -/
theorem dirs_loaded (hnodup : (m.map (·.1)).Nodup) (d : Ino) :
    (m.foldl load empty).dirs d = recorded (m.foldl load empty).inodes d := by
  by_cases h : ∃ entry ∈ m, entry.1 = d
  · obtain ⟨⟨d, _⟩, hmem, rfl⟩ := h
    rw [recorded, (loaded_of_mem hnodup hmem).1, (loaded_of_mem hnodup hmem).2]
    rfl
  · push Not at h
    rw [recorded, (loaded_of_not_mem h).1, (loaded_of_not_mem h).2]
    rfl

theorem dirs_foldl_replay (entries : List DeltaCommit) (t : RecoveredTree) :
    (entries.foldl replay t).dirs = t.dirs := by
  induction entries generalizing t with
  | nil => rfl
  | cons c _ ih => exact ih _

theorem mem_replayed_foldl_replay (entries : List DeltaCommit) (t : RecoveredTree) :
    ino ∈ (entries.foldl replay t).replayed ↔ ino ∈ t.replayed ∨ ∃ c ∈ entries, c.ino = ino := by
  induction entries generalizing t with
  | nil => simp
  | cons c _ ih =>
    rw [foldl_cons, ih]
    simp only [replay, mem_insert_iff, exists_mem_cons_iff, eq_comm (a := ino)]
    tauto

end RecoveredTree

namespace State

variable {params : PoolParams} {s t : State} {d ino : Ino}
variable {a : Action} {c : Checkpoint} {inode : InodeObject} {slot : SuperblockSlot}
  {c' : Checkpoint} {chunks : Option (List ChunkRef)} {object : InodeObject} {stamp : Nat}
  {dir : DirectoryObject}

/-- What is going to be published for a directory. -/
def planned (s : State) (d : Ino) : Option DirectoryObject :=
  (s.checkpoint.bind fun c ↦ c.copyOf s.ns.dirs d).or (recorded s.ns.inodes d)

/-- A crash finds, above the published watermarks, entries of the root's own inodes only,
with their kind and link count. -/
def RevisesRoot (params : PoolParams) (s : State) : Action → Prop
  | .crash => ∀ slot ∈ s.slot, ∀ c ∈ s.disk.replayed params,
      c.ino < slot.root.nextInoCounter ∧ ∃ entry ∈ slot.root.inoMap, entry.1 = c.ino ∧
        entry.2.kind = c.object.kind ∧ entry.2.nlink = c.object.nlink
  | _ => True

instance (s : State) (a : Action) : Decidable (RevisesRoot params s a) := by
  induction a using Action.casesOn <;> unfold RevisesRoot <;> infer_instance

theorem RevisesRoot.countsReplayed (h : RevisesRoot params s a) : CountsReplayed params s a := by
  cases a <;> try trivial
  exact fun slot hslot c hc ↦ (h slot hslot c hc).1

/-- What holds of the directories and of the operations on files. -/
structure TracksNamespace (s : State) : Prop where
  directory : ∀ d inode, s.ns.inodes.lookup d = some inode → inode.kind = .directory →
    (s.ns.dirs d).isSome
  encoded : ∀ d inode, s.ns.inodes.lookup d = some inode → inode.kind = .directory →
    ∃ dir, inode.content = .dirEntries dir
  clean : ∀ d inode dir, s.ns.inodes.lookup d = some inode → inode.kind = .directory →
    s.ns.dirs d = some dir → d ∉ s.ns.dirtyInodes → s.planned d = some dir
  ops : ∀ ino, (s.ops ino).isSome → ∀ inode, s.ns.inodes.lookup ino = some inode →
    inode.kind = .file
  contentSet : ∀ ino chunks object stamp, s.ops ino = some (.contentSet chunks object stamp) →
    object.kind = .file

/-- What holds of the running checkpoint. -/
structure TracksCheckpoint (s : State) (c : Checkpoint) : Prop where
  work : ∀ w ∈ c.work, (∀ inode, s.ns.inodes.lookup w.ino = some inode → inode.kind = w.kind) ∧
    (w.dir.isSome ↔ w.kind = .directory)
  snapshot : Phase.inodes.rank ≤ c.phase.rank → EncodesDirectories c.inoSnapshot
  root : Phase.root.rank < c.phase.rank → c.root.inoMap = c.inoSnapshot

/-- The invariant of runs that meet `RevisesRoot`. -/
structure Tracks (params : PoolParams) (s : State) : Prop where
  ns : s.mounted = true → s.TracksNamespace
  checkpoint : s.mounted = true → ∀ c, s.checkpoint = some c → s.TracksCheckpoint c
  logged : ∀ shard, ∀ c ∈ (s.delta shard).commits, c.object.kind = .file
  slot : ∀ slot, s.slot = some slot → EncodesDirectories slot.root.inoMap
  disk : s.mounted = false → ∀ slot, s.slot = some slot → ∀ c ∈ s.disk.replayed params,
    ∃ entry ∈ slot.root.inoMap, entry.1 = c.ino ∧ entry.2.kind = c.object.kind ∧
      entry.2.nlink = c.object.nlink

theorem recorded_eq_none {inodes : Table Ino InodeObject}
    (h : ∀ inode, inodes.lookup d = some inode → inode.kind ≠ .directory) :
    recorded inodes d = none := by
  cases hd : inodes.lookup d with
  | none => simp [recorded, hd]
  | some inode =>
    have hkind := h inode hd
    simp only [recorded, hd, bind_some, InodeObject.recorded]
    split
    · next hdir _ => exact absurd hdir hkind
    · rfl

theorem Local.lookup (hst : s.Local ino t) {i : Ino} {x' : InodeObject}
    (h : t.ns.inodes.lookup i = some x') :
    ∃ x, s.ns.inodes.lookup i = some x ∧ x.kind = x'.kind ∧ x.nlink = x'.nlink ∧
      (i ≠ ino → x = x') := by
  by_cases heq : i = ino
  · subst heq
    have hkind := hst.kind
    have hnlink := hst.nlink
    rw [h, map_some] at hkind hnlink
    obtain ⟨x, hx, hxkind⟩ := map_eq_some_iff.1 hkind.symm
    rw [hx, map_some] at hnlink
    exact ⟨x, hx, hxkind, (some.inj hnlink).symm, fun hne ↦ absurd rfl hne⟩
  · exact ⟨x', (hst.inode i heq).symm.trans h, rfl, rfl, fun _ ↦ rfl⟩

/-- A step on a file changes no directory's content. -/
theorem Local.recorded (hst : s.Local ino t)
    (hfile : ∀ inode, s.ns.inodes.lookup ino = some inode → inode.kind = .file) (d : Ino) :
    Store.recorded t.ns.inodes d = Store.recorded s.ns.inodes d := by
  by_cases heq : d = ino
  · subst heq
    rw [recorded_eq_none, recorded_eq_none]
    · intro inode hinode
      simp [hfile inode hinode]
    · intro _ hinode'
      obtain ⟨inode, hinode, hkind, _⟩ := hst.lookup hinode'
      simp [← hkind, hfile inode hinode]
  · simp only [Store.recorded, hst.inode d heq]

theorem planned_congr (hcheckpoint : t.checkpoint = s.checkpoint) (hdirs : t.ns.dirs d = s.ns.dirs d)
    (hrecorded : recorded t.ns.inodes d = recorded s.ns.inodes d) : t.planned d = s.planned d := by
  simp only [planned, hcheckpoint, hrecorded, copyOf, hdirs]

theorem Local.planned (hst : s.Local ino t)
    (hfile : ∀ inode, s.ns.inodes.lookup ino = some inode → inode.kind = .file) (d : Ino) :
    t.planned d = s.planned d :=
  planned_congr hst.checkpoint (congrFun hst.dirs d) (hst.recorded hfile d)

theorem TracksNamespace.of_local (h : s.TracksNamespace) (hst : s.Local ino t)
    (hfile : ∀ inode, s.ns.inodes.lookup ino = some inode → inode.kind = .file)
    (hcontentSet : ∀ chunks object stamp, t.ops ino = some (.contentSet chunks object stamp) →
      object.kind = .file) : t.TracksNamespace := by
  have hne : ∀ {d : Ino} {inode' : InodeObject}, t.ns.inodes.lookup d = some inode' →
      inode'.kind = .directory → d ≠ ino := by
    rintro d _ hd hkind rfl
    obtain ⟨inode, hinode, hkind', _⟩ := hst.lookup hd
    simp [hfile inode hinode, hkind] at hkind'
  refine ⟨fun d inode' hd hkind ↦ ?_, fun d inode' hd hkind ↦ ?_, fun d inode' dir hd hkind hdir hclean ↦ ?_,
    fun i hi inode' hinode' ↦ ?_, fun i chunks object stamp hi ↦ ?_⟩
  · rw [hst.dirs]
    exact h.directory d inode' (hst.inode d (hne hd hkind) ▸ hd) hkind
  · exact h.encoded d inode' (hst.inode d (hne hd hkind) ▸ hd) hkind
  · rw [hst.planned hfile d]
    exact h.clean d inode' dir (hst.inode d (hne hd hkind) ▸ hd) hkind (hst.dirs ▸ hdir)
      fun hmem ↦ hclean (hst.dirty d hmem)
  · obtain ⟨inode, hinode, hkind, _⟩ := hst.lookup hinode'
    by_cases heq : i = ino
    · subst heq
      exact hkind ▸ hfile inode hinode
    · exact hkind ▸ h.ops i (hst.ops i heq ▸ hi) inode hinode
  · by_cases heq : i = ino
    · subst heq
      exact hcontentSet chunks object stamp hi
    · exact h.contentSet i chunks object stamp (hst.ops i heq ▸ hi)

theorem TracksCheckpoint.of_kinds (h : s.TracksCheckpoint c)
    (hkind : ∀ i x', t.ns.inodes.lookup i = some x' →
      (∃ x, s.ns.inodes.lookup i = some x ∧ x.kind = x'.kind) ∨ s.ns.nextIno ≤ i)
    (hbound : ∀ w ∈ c.work, w.ino < s.ns.nextIno) (hwork : ∀ w ∈ c'.work, w ∈ c.work)
    (hphase : c'.phase = c.phase) (hsnapshot : c'.inoSnapshot = c.inoSnapshot)
    (hroot : c'.root = c.root) : t.TracksCheckpoint c' := by
  refine ⟨fun w hw ↦ ⟨fun x' hx' ↦ ?_, (h.work w (hwork w hw)).2⟩, ?_, ?_⟩
  · rcases hkind w.ino x' hx' with ⟨x, hx, heq⟩ | hnew
    · exact heq ▸ (h.work w (hwork w hw)).1 x hx
    · exact absurd (hbound w (hwork w hw)) (Nat.not_lt.2 hnew)
  · rw [hphase, hsnapshot]
    exact h.snapshot
  · rw [hphase, hsnapshot, hroot]
    exact h.root

theorem finishPublish_contentSet {u : State} {sessionChunks : Option (List ChunkRef)}
    {content : ContentRef} (h : (u.finishPublish ino sessionChunks content).ops ino =
      some (.contentSet chunks object stamp)) :
    ∃ inode, u.ns.inodes.lookup ino = some inode ∧ object.kind = inode.kind := by
  unfold finishPublish at h
  split at h
  · simp [setOp] at h
  · next inode hinode =>
    simp only [setOp, publishContent, Function.update_self, some.injEq, Op.contentSet.injEq] at h
    exact ⟨inode, hinode, by rw [← h.2.1]⟩

/-- The object an fsync logs is of the kind of its inode. -/
theorem FileAction.contentSet (ha : FileAction ino a) (h : s.mountedStep params a = some t)
    (hop : t.ops ino = some (.contentSet chunks object stamp)) :
    s.ops ino = some (.contentSet chunks object stamp) ∨
      ∃ inode, s.ns.inodes.lookup ino = some inode ∧ object.kind = inode.kind := by
  rcases ha.cases h with hworks | hfinish | hpublish | hfinish
  · exact .inl ((hworks.unstamped.op _ hop).resolve_left (by simp [Op.isPublished]))
  · simp [(finishWrite_spec hfinish).2.1] at hop
  · obtain ⟨-, rfl | ⟨u, _, _, hu, rfl⟩⟩ := fsyncPublish_eq_some hpublish
    · simp [setOp] at hop
    · obtain ⟨x, hx, hkind⟩ := finishPublish_contentSet hop
      obtain ⟨inode, hinode, hinodeKind, _⟩ := (Local.hydrates hu).lookup hx
      exact .inr ⟨inode, hinode, hkind.trans hinodeKind.symm⟩
  · obtain ⟨_, _, _, hnone, _⟩ := finishFsync_spec hfinish
    simp [hnone] at hop

theorem TracksNamespace.isFile (h : s.TracksNamespace) (ha : FileAction ino a)
    (hst : s.mountedStep params a = some t) (hinode : s.ns.inodes.lookup ino = some inode) : inode.kind = .file := by
  rcases ha.isFile hst with ⟨x, hx, hkind⟩ | hop
  · cases hinode.symm.trans hx
    exact hkind
  · exact h.ops ino hop inode hinode

section

variable (h : s.Tracks params)

include h

theorem Tracks.of_local (hnum : s.Numbered params) (hm : s.mounted = true)
    (hst : s.Local ino t) (hns : t.TracksNamespace) : t.Tracks params := by
  refine ⟨fun _ ↦ hns, fun _ c hc ↦ ?_, ?_, ?_, fun hm' ↦ ?_⟩
  · rw [hst.checkpoint] at hc
    refine (h.checkpoint hm c hc).of_kinds (fun i _ hx' ↦ .inl ?_) (hnum.work hm c hc)
      (fun _ hw ↦ hw) rfl rfl rfl
    obtain ⟨x, hx, hkind, _⟩ := hst.lookup hx'
    exact ⟨x, hx, hkind⟩
  · rw [hst.delta]
    exact h.logged
  · rw [hst.slot]
    exact h.slot
  · simp [hst.mounted, hm] at hm'

theorem Tracks.fileAction (hnum : s.Numbered params)
    (hm : s.mounted = true) (ha : FileAction ino a) (hst : s.mountedStep params a = some t) : t.Tracks params := by
  have hns := h.ns hm
  refine h.of_local hnum hm (ha.isLocal hst) (hns.of_local (ha.isLocal hst)
    (fun _ ↦ hns.isFile ha hst) fun chunks object stamp hop ↦ ?_)
  rcases ha.contentSet hst hop with hop | ⟨_, hinode, hkind⟩
  · exact hns.contentSet ino chunks object stamp hop
  · exact hkind.trans (hns.isFile ha hst hinode)

/-- A step that leaves the namespace, the checkpoint and the slot alone. -/
theorem Tracks.of_eq (hm : s.mounted = true) (hmounted : t.mounted = s.mounted)
    (hns : t.ns = s.ns) (hcheckpoint : t.checkpoint = s.checkpoint) (hslot : t.slot = s.slot)
    (hops : ∀ ino, (t.ops ino).isSome → (s.ops ino).isSome)
    (hcontentSet : ∀ ino chunks object stamp, t.ops ino = some (.contentSet chunks object stamp) →
        s.ops ino = some (.contentSet chunks object stamp))
    (hdelta : ∀ shard, ∀ c ∈ (t.delta shard).commits, c ∈ (s.delta shard).commits ∨
      c.object.kind = .file) : t.Tracks params := by
  have hstate := h.ns hm
  refine ⟨fun _ ↦ ⟨?_, ?_, ?_, ?_, ?_⟩, fun _ c hc ↦ ⟨?_, ?_, ?_⟩, ?_, ?_, fun hm' ↦ ?_⟩
  · exact hns ▸ hstate.directory
  · exact hns ▸ hstate.encoded
  · intro d inode dir hd hkind hdir hclean
    rw [planned_congr hcheckpoint (by rw [hns]) (by rw [hns])]
    rw [hns] at hd hdir hclean
    exact hstate.clean d inode dir hd hkind hdir hclean
  · intro ino hop
    rw [hns]
    exact hstate.ops ino (hops ino hop)
  · intro ino chunks object stamp hop
    exact hstate.contentSet ino chunks object stamp (hcontentSet ino chunks object stamp hop)
  · rw [hns]
    exact (h.checkpoint hm c (hcheckpoint ▸ hc)).work
  · exact (h.checkpoint hm c (hcheckpoint ▸ hc)).snapshot
  · exact (h.checkpoint hm c (hcheckpoint ▸ hc)).root
  · intro shard c hc
    exact (hdelta shard c hc).elim (h.logged shard c) id
  · rw [hslot]
    exact h.slot
  · simp [hmounted, hm] at hm'

/-- A call that edits names, creates one inode at most, and marks what it changes. -/
theorem Tracks.namespaceCall {ns : Namespace} {ghost : Ghost} (hnum : s.Numbered params) (hm : s.mounted = true)
    (hold : ∀ i x', ns.inodes.lookup i = some x' →
      (∃ x, s.ns.inodes.lookup i = some x ∧ x'.kind = x.kind ∧ x'.size = x.size ∧ x'.content = x.content) ∨
        i = s.ns.nextIno ∧ i ∈ ns.dirtyInodes ∧ (x'.kind = .directory → ∃ dir, x'.content = .dirEntries dir))
    (hmarks : s.ns.Marks ns) (hlisted : ns.DirectoriesListed) :
    { s with ns := ns, ghost := ghost }.Tracks params := by
  have hstate := h.ns hm
  refine ⟨fun _ ↦ ⟨hlisted, fun d x' hd hkind ↦ ?_, fun d x' dir hd hkind hdir hclean ↦ ?_,
    fun i hi x' hx' ↦ ?_, hstate.contentSet⟩, fun _ c hc ↦ ?_, h.logged, h.slot,
    fun hm' ↦ absurd (hm.symm.trans hm') (by simp)⟩
  · rcases hold d x' hd with ⟨x, hx, hxkind, _, hcontent⟩ | ⟨_, _, hnew⟩
    · obtain ⟨dir, hdir⟩ := hstate.encoded d x hx (hxkind ▸ hkind)
      exact ⟨dir, hcontent.trans hdir⟩
    · exact hnew hkind
  · obtain ⟨x, hx, hxkind, _, hcontent⟩ := (hold d x' hd).resolve_right fun hnew ↦ hclean hnew.2.1
    have hold : s.ns.dirs d = some dir := (hmarks.dirs d dir hdir).resolve_left hclean
    have hplanned := hstate.clean d x dir hx (hxkind ▸ hkind) hold
      fun hmem ↦ hclean (hmarks.dirty d hmem (isSome_iff_exists.2 ⟨dir, hdir⟩))
    rw [← hplanned]
    refine planned_congr rfl (hdir.trans hold.symm) ?_
    simp only [recorded, hd, hx, bind_some, InodeObject.recorded, hxkind, hcontent]
  · rcases hold i x' hx' with ⟨x, hx, hxkind, _⟩ | ⟨hnew, _⟩
    · exact hxkind.trans (hstate.ops i hi x hx)
    · exact absurd hnew (Nat.ne_of_lt (hnum.ops hm i hi))
  · refine (h.checkpoint hm c hc).of_kinds (fun i x' hx' ↦ ?_) (hnum.work hm c hc)
      (fun _ hw ↦ hw) rfl rfl rfl
    rcases hold i x' hx' with ⟨x, hx, hxkind, _⟩ | ⟨hnew, _⟩
    · exact .inl ⟨x, hx, hxkind.symm⟩
    · exact .inr hnew.ge

theorem Tracks.createEntry {parent : Ino} {name : String} {kind : InodeKind} {target : String}
    (hnum : s.Numbered params) (hm : s.mounted = true)
    (hst : s.createEntry parent name kind target = some t) : t.Tracks params := by
  obtain ⟨_, _, hcreate, rfl⟩ := createEntry_spec hst
  refine h.namespaceCall hnum hm (fun i x' hx' ↦ ?_) (.createEntry hcreate)
    (.createEntry (h.ns hm).directory hcreate)
  obtain ⟨rfl, _, _, hlookup, hdirty, _⟩ := createEntry_ok hcreate
  rw [hlookup] at hx'
  split_ifs at hx' with heq
  · cases hx'
    refine .inr ⟨heq, heq ▸ hdirty, fun hkind ↦ ⟨none, ?_⟩⟩
    cases kind <;> simp [newInode] at hkind ⊢
  · exact .inl ⟨x', hx', rfl, rfl, rfl⟩

end

theorem find?_dirtyWork (s : State) (dirty : List Ino) (d : Ino) :
    (s.dirtyWork dirty).find? (·.ino = d) = if d ∈ dirty then (s.ns.inodes.lookup d).map fun inode ↦
        ⟨d, inode.kind, if inode.kind = .directory then s.ns.dirs d else none⟩ else none := by
  induction dirty with
  | nil => rfl
  | cons ino _ ih =>
    unfold dirtyWork at ih ⊢
    by_cases heq : d = ino
    · subst heq
      cases hd : s.ns.inodes.lookup d <;> simp [hd, ih]
    · have hne : ino ≠ d := Ne.symm heq
      cases hino : s.ns.inodes.lookup ino <;> simp [hino, ih, heq, hne]

/-- Outside the window of a checkpoint, a directory is published as its content records it. -/
theorem planned_eq_recorded (h : ∀ c, s.checkpoint = some c → c.inWindow = false) (d : Ino) :
    s.planned d = recorded s.ns.inodes d := by
  cases hc : s.checkpoint with
  | none => simp [planned, hc]
  | some c =>
    have hphase : c.copyOf s.ns.dirs d = none := by
      cases hphase : c.phase <;> simp_all [copyOf, inWindow]
    simp [planned, hc, hphase]

/-- The copies are of the directories as they are. -/
theorem planned_work (hc : s.checkpoint = some c) (hphase : c.phase = .work)
    (hd : s.ns.inodes.lookup d = some inode) (hkind : inode.kind = .directory)
    (hdir : s.ns.dirs d = some dir) :
    (s.setCheckpoint (some { c with phase := .capture, work := s.dirtyWork c.dirty })).planned d =
      s.planned d := by
  simp only [planned, setCheckpoint, hc, bind_some, copyOf, hphase,
    find?_dirtyWork, hd, map_some, hkind, if_true, hdir]
  split_ifs <;> rfl

theorem Passes.inWindow (h : s.Passes t c c') : c.inWindow = false ∧ c'.inWindow = false := by
  have hphase := h.phase
  constructor
  · cases hc : c.phase <;> simp_all [Checkpoint.inWindow]
  · cases hc' : c'.phase <;> simp_all [Checkpoint.inWindow]

/-- A step of the checkpoint plans a directory as it is or as before. -/
theorem checkpointStep_planned (h : s.checkpointStep params = some t)
    (hd : s.ns.inodes.lookup d = some inode) (hkind : inode.kind = .directory)
    (hdir : s.ns.dirs d = some dir) : t.planned d = some dir ∨
      t.planned d = s.planned d ∧ (d ∈ s.ns.dirtyInodes → d ∈ t.ns.dirtyInodes) := by
  have hinodes := (checkpointStep_frame h).inodes
  obtain ⟨c, hc, heffect⟩ := checkpointStep_effect h
  have hout : c.inWindow = false → (∀ c', t.checkpoint = some c' → c'.inWindow = false) →
      t.planned d = s.planned d := by
    intro hs ht
    rw [planned_eq_recorded ht, planned_eq_recorded fun c' hc' ↦ by simp_all, hinodes]
  cases heffect with
  | pass h =>
    refine .inr ⟨hout h.inWindow.1 fun _ hc' ↦ ?_, fun hmem ↦ h.marks ▸ hmem⟩
    cases hc'.symm.trans h.checkpoint
    exact h.inWindow.2
  | drain hphase =>
    by_cases hmem : d ∈ s.ns.dirtyInodes
    · left
      simp [planned, checkpointDrain, setCheckpoint, copyOf, hmem, hdir]
    · right
      refine ⟨?_, fun hmem' ↦ absurd hmem' hmem⟩
      simp [planned, checkpointDrain, setCheckpoint, copyOf, hmem, hc, hphase]
  | work hphase => exact .inr ⟨planned_work hc hphase hd hkind hdir, id⟩
  | snapshot hphase hwork =>
    refine .inr ⟨?_, id⟩
    simp [planned, setCheckpoint, copyOf, hc, hphase, hwork]
  | superblock hphase =>
    exact .inr ⟨hout (by simp [inWindow, hphase]) (by simp [checkpointSuperblock, setCheckpoint]), id⟩

theorem mem_inoSnapshot {entry : Ino × InodeObject} :
    entry ∈ s.inoSnapshot ↔ s.ns.inodes.lookup entry.1 = some entry.2 := by
  rw [inoSnapshot, mem_insertionSort, ← Table.mem_toList]

theorem TracksNamespace.encodesDirectories (h : s.TracksNamespace) :
    EncodesDirectories s.inoSnapshot := by
  refine ⟨?_, fun entry hentry ↦ h.encoded entry.1 entry.2 (mem_inoSnapshot.1 hentry)⟩
  rw [inoSnapshot, ((perm_insertionSort _ _).map _).nodup_iff]
  exact nodup_toList s.ns.inodes

theorem TracksNamespace.of_frame (h : s.TracksNamespace) (hframe : s.CheckpointFrame t)
    (hclean : ∀ d inode dir, s.ns.inodes.lookup d = some inode → inode.kind = .directory →
      s.ns.dirs d = some dir → d ∉ t.ns.dirtyInodes → t.planned d = some dir) :
    t.TracksNamespace := by
  refine ⟨?_, ?_, ?_, ?_, ?_⟩
  · rw [hframe.inodes, hframe.dirs]
    exact h.directory
  · rw [hframe.inodes]
    exact h.encoded
  · rw [hframe.inodes, hframe.dirs]
    exact hclean
  · rw [hframe.inodes, hframe.ops]
    exact h.ops
  · rw [hframe.ops]
    exact h.contentSet

theorem TracksNamespace.checkpointStep (h : s.TracksNamespace)
    (hst : s.checkpointStep params = some t) : t.TracksNamespace := by
  refine h.of_frame (checkpointStep_frame hst) fun d inode dir hd hkind hdir hclean ↦ ?_
  rcases checkpointStep_planned hst hd hkind hdir with hplanned | ⟨hplanned, hdirty⟩
  · exact hplanned
  · rw [hplanned]
    exact h.clean d inode dir hd hkind hdir fun hmem ↦ hclean (hdirty hmem)

theorem TracksCheckpoint.dirtyWork (h : s.TracksNamespace) {dirty : List Ino} {w : DirtyWork}
    (hw : w ∈ s.dirtyWork dirty) :
    (∀ inode, s.ns.inodes.lookup w.ino = some inode → inode.kind = w.kind) ∧
      (w.dir.isSome ↔ w.kind = .directory) := by
  obtain ⟨ino, _, hwork⟩ := mem_filterMap.1 hw
  obtain ⟨inode, hinode, rfl⟩ := map_eq_some_iff.1 hwork
  refine ⟨fun _ hinode' ↦ by simp_all, ?_⟩
  by_cases hkind : inode.kind = .directory
  · simp [hkind, h.directory ino inode hinode hkind]
  · simp [hkind]

/-- The phases after the snapshot keep it; the root is made from it. -/
theorem Tracks.checkpointStep (h : s.Tracks params) (hm : s.mounted = true)
    (hst : s.checkpointStep params = some t) : t.Tracks params := by
  have hns := h.ns hm
  have hframe := checkpointStep_frame hst
  have hlogged : ∀ shard, ∀ c ∈ (t.delta shard).commits, c.object.kind = .file := by
    rw [hframe.delta]
    exact h.logged
  have hmounted : t.mounted = false → ∀ slot, t.slot = some slot → ∀ c ∈ t.disk.replayed params,
      ∃ entry ∈ slot.root.inoMap, entry.1 = c.ino ∧ entry.2.kind = c.object.kind ∧
        entry.2.nlink = c.object.nlink := by
    intro hm'
    simp [hframe.mounted, hm] at hm'
  have htns := hns.checkpointStep hst
  obtain ⟨c, hc, heffect⟩ := checkpointStep_effect hst
  have hold := h.checkpoint hm c hc
  cases heffect with
  | pass hpass =>
    refine ⟨fun _ ↦ htns, fun _ c' hc' ↦ ?_, hlogged, hpass.slot ▸ h.slot, hmounted⟩
    cases hc'.symm.trans hpass.checkpoint
    refine ⟨?_, fun hle ↦ ?_, fun hlt ↦ ?_⟩
    · rw [hframe.inodes, hpass.work]
      exact hold.work
    · rw [hpass.inoSnapshot]
      exact hold.snapshot (hpass.phase.elim (fun hearly ↦ absurd (hle.trans hearly.2) (by simp)) And.left)
    · rw [hpass.inoSnapshot]
      rcases hpass.root hlt with ⟨hrank, hroot⟩ | hroot
      · exact hroot ▸ hold.root hrank
      · exact hroot
  | superblock hphase =>
    refine ⟨fun _ ↦ htns, fun _ c' hc' ↦ by simp [checkpointSuperblock, setCheckpoint] at hc', hlogged,
      fun _ hslot ↦ ?_, hmounted⟩
    cases hslot
    have hroot : c.root.inoMap = c.inoSnapshot := hold.root (by simp [hphase])
    exact hroot ▸ hold.snapshot (by simp [hphase])
  | drain =>
    refine ⟨fun _ ↦ htns, fun _ c' hc' ↦ ?_, hlogged, h.slot, hmounted⟩
    cases hc'
    exact ⟨hold.work, fun hle ↦ by simp at hle, fun hlt ↦ by simp at hlt⟩
  | work =>
    refine ⟨fun _ ↦ htns, fun _ c' hc' ↦ ?_, hlogged, h.slot, hmounted⟩
    cases hc'
    exact ⟨fun w hw ↦ TracksCheckpoint.dirtyWork hns hw, fun hle ↦ by simp at hle,
      fun hlt ↦ by simp at hlt⟩
  | snapshot =>
    refine ⟨fun _ ↦ htns, fun _ _ hc' ↦ ?_, hlogged, h.slot, hmounted⟩
    cases hc'
    exact ⟨hold.work, fun _ ↦ hns.encodesDirectories, fun hlt ↦ by simp at hlt⟩

theorem find?_without (c : Checkpoint) (ino d : Ino) : (c.without ino).work.find? (·.ino = d) =
      if d = ino then none else c.work.find? (·.ino = d) := by
  simp only [without]
  induction c.work with
  | nil => simp
  | cons w =>
    by_cases hw : w.ino = ino <;> by_cases hd : w.ino = d <;> by_cases heq : d = ino <;>
      simp_all

theorem copyOf_without {dirs : Ino → Option DirectoryObject} (hphase : c.phase = .capture) :
    (c.without ino).copyOf dirs d = if d = ino then none else c.copyOf dirs d := by
  have hphase' : (c.without ino).phase = .capture := hphase
  simp only [copyOf, hphase, hphase', find?_without]
  split_ifs <;> rfl

/-- Encoding the copy of a directory does not change what is planned for it. -/
theorem beginCapture_planned (hst : s.beginCapture ino = some t)
    (hcheckpoint : ∀ c, s.checkpoint = some c → s.TracksCheckpoint c)
    (hd : s.ns.inodes.lookup d = some inode) (hkind : inode.kind = .directory) : t.planned d = s.planned d := by
  obtain ⟨c, w, hc, hphase, _, hfind, hcases⟩ := beginCapture_find hst
  obtain rfl : w.ino = ino := by simpa using find?_some hfind
  have hw := (hcheckpoint c hc).work w (mem_of_find?_eq_some hfind)
  have hself : d = w.ino → w.kind = .directory := fun heq ↦
    (hw.1 inode (heq ▸ hd)).symm.trans hkind
  rcases hcases with ⟨hwkind, rfl⟩ | ⟨hwkind, rfl⟩ | ⟨hwkind, _, rfl⟩
  · simp only [planned, captureDirectory, setCheckpoint, hc, bind_some, copyOf_without hphase]
    by_cases heq : d = w.ino
    · obtain ⟨_, hdir⟩ := isSome_iff_exists.1 (hw.2.2 hwkind)
      subst heq
      simp [setContent, recorded, InodeObject.recorded, hd, hkind, hdir,
        copyOf, hphase, hfind]
    · simp [heq, setContent, recorded, lookup_modify_of_ne heq]
  · have hne : d ≠ w.ino := fun heq ↦ by simp [hself heq] at hwkind
    simp [planned, setCheckpoint, hc, copyOf_without hphase, hne]
  · have hne : d ≠ w.ino := fun heq ↦ by simp [hself heq] at hwkind
    have hcopy : copyOf { c.without w.ino with capturing := some w.ino } s.ns.dirs d =
        (c.without w.ino).copyOf s.ns.dirs d := rfl
    simp [planned, lockCaptured, setOp, setCheckpoint, hc, hcopy, copyOf_without hphase, hne]

section

variable (h : s.Tracks params) (hnum : s.Numbered params) (hm : s.mounted = true)

include h hnum hm

theorem Tracks.beginCapture (hst : s.beginCapture ino = some t) : t.Tracks params := by
  have hns := h.ns hm
  have hplanned : ∀ d inode, s.ns.inodes.lookup d = some inode → inode.kind = .directory →
      t.planned d = s.planned d := fun d _ ↦ beginCapture_planned hst (h.checkpoint hm)
  obtain ⟨c, w, hc, _, -, hw, rfl, hcaptures⟩ := beginCapture_captures hst
  have hold := h.checkpoint hm c hc
  refine ⟨fun _ ↦ ⟨fun d x' hd hdir ↦ ?_, fun d x' hd hdir ↦ ?_, fun d x' dir hd hdir hdirs hclean ↦ ?_,
    fun i hi x' hx' ↦ ?_, fun i chunks object stamp hi ↦ ?_⟩, fun _ _ hc' ↦ ?_, hcaptures.disk.2.1 ▸ h.logged,
    hcaptures.disk.2.2 ▸ h.slot, fun hm' ↦ by simp [hcaptures.disk.1, hm] at hm'⟩
  · obtain ⟨x, hx, hsame, -⟩ := hcaptures.inode d x' hd
    rw [hcaptures.ns.1]
    exact hns.directory d x hx (hsame.symm.trans hdir)
  · obtain ⟨x, hx, hsame, hcontent⟩ := hcaptures.inode d x' hd
    split_ifs at hcontent
    · exact ⟨_, hcontent⟩
    · exact hcontent ▸ hns.encoded d x hx (hsame.symm.trans hdir)
  · obtain ⟨x, hx, hsame, -⟩ := hcaptures.inode d x' hd
    rw [hplanned d x hx (hsame.symm.trans hdir)]
    exact hns.clean d x dir hx (hsame.symm.trans hdir) (hcaptures.ns.1 ▸ hdirs) (hcaptures.ns.2.1 ▸ hclean)
  · obtain ⟨x, hx, hsame, -⟩ := hcaptures.inode i x' hx'
    obtain ⟨op, hop⟩ := isSome_iff_exists.1 hi
    rcases hcaptures.ops i op hop with hop | ⟨rfl, hkind, -⟩
    · exact hsame.trans (hns.ops i (by simp [hop]) x hx)
    · exact hsame.trans (((hold.work w hw).1 x hx).trans hkind)
  · rcases hcaptures.ops i _ hi with hop | ⟨-, -, _, hop⟩
    · exact hns.contentSet i chunks object stamp hop
    · cases hop
  · cases hcaptures.checkpoint.symm.trans hc'
    refine hold.of_kinds (fun i x' hx' ↦ .inl ?_) (hnum.work hm c hc) (fun _ hw' ↦ mem_of_mem_filter hw') rfl rfl rfl
    obtain ⟨x, hx, hsame, -⟩ := hcaptures.inode i x' hx'
    exact ⟨x, hx, hsame.symm⟩

theorem Tracks.finishCapture (hst : s.finishCapture params ino = some t) : t.Tracks params := by
  obtain ⟨c, refs, hc, hop, rfl⟩ := finishCapture_spec hst
  have hns := h.ns hm
  have hlocal := Local.capture params ino s (finalizedChunks (s.openFiles ino) refs)
  have hu := h.of_local hnum hm hlocal (hns.of_local hlocal (hns.ops ino (by simp [hop]))
    fun _ _ _ hop ↦ by simp [setOp] at hop)
  have hmu := hlocal.mounted.trans hm
  revert hu hmu
  have hcu := hlocal.checkpoint.trans hc
  generalize ((s.captureFile params ino (finalizedChunks (s.openFiles ino) refs)).dropSession ino
    (finalizedChunks (s.openFiles ino) refs)).setOp ino none = u at hcu ⊢
  intro hu hmu
  have hnsu := hu.ns hmu
  refine ⟨fun _ ↦ ⟨hnsu.directory, hnsu.encoded, fun d x dir hd hdir hdirs hclean ↦ ?_, hnsu.ops,
    hnsu.contentSet⟩, fun _ _ hc' ↦ ?_, hu.logged, hu.slot, fun hm' ↦ absurd (hmu.symm.trans hm') (by simp)⟩
  · rw [← hnsu.clean d x dir hd hdir hdirs hclean]
    simp [planned, setCheckpoint, hcu, copyOf]
  · cases hc'
    have hold := hu.checkpoint hmu c hcu
    exact { hold with }

theorem Tracks.mountedStep (hst : s.mountedStep params a = some t) (ha : a ≠ .crash) : t.Tracks params := by
  cases mountedStep_effect hst ha with
  | names hcall =>
    have hedits := Edits.of_edited hcall.edited
    exact h.namespaceCall hnum hm (fun i x' hx' ↦ .inl (hedits.inode i x' hx')) (.of_edited hcall.edited)
      (.edited (h.ns hm).directory hcall.edited)
  | create hcreate => exact h.createEntry hnum hm hcreate
  | file hfile hst => exact h.fileAction hnum hm hfile hst
  | @deltaCommit _ ino hcommit =>
    obtain ⟨sessionChunks, object, stamp, hop, _, rfl⟩ := deltaCommit_spec hcommit
    refine h.of_eq hm rfl rfl rfl rfl (fun i hi ↦ ?_) (fun i _ object stamp hi ↦ ?_)
      fun shard c hc ↦ ?_
    · by_cases heq : i = ino
      · simp [heq, hop]
      · simpa [heq] using hi
    · rcases of_update hi with ⟨-, ⟨⟩⟩ | ⟨-, hi⟩
      exact hi
    · by_cases heq : shard = params.shardOf ino
      · subst heq
        simp only [Function.update_self] at hc
        refine (DeltaSegments.mem_commits_append hc).imp_right ?_
        rintro rfl
        exact (h.ns hm).contentSet ino sessionChunks object stamp hop
      · exact .inl (by simpa [heq] using hc)
  | upkeep hupkeep =>
    exact h.of_eq hm hupkeep.mounted hupkeep.ns hupkeep.checkpoint hupkeep.slot (fun _ hi ↦ hupkeep.ops ▸ hi)
      (fun _ _ _ _ hi ↦ hupkeep.ops ▸ hi) fun shard c hc ↦ .inl (hupkeep.delta shard c hc)
  | beginCheckpoint hbegin =>
    obtain ⟨hnone, c, rfl, hphase, _, _, hwork, _⟩ := beginCheckpoint_spec hbegin
    have hns := h.ns hm
    refine ⟨fun _ ↦ ⟨hns.directory, hns.encoded, fun d x dir hd hdir hdirs hclean ↦ ?_, hns.ops,
      hns.contentSet⟩, fun _ _ hc' ↦ ?_, h.logged, h.slot,
      fun hm' ↦ absurd (hm.symm.trans hm') (by simp)⟩
    · rw [← hns.clean d x dir hd hdir hdirs hclean]
      simp [planned, setCheckpoint, hnone, copyOf, hphase]
    · cases hc'
      exact ⟨by simp [hwork], by simp [hphase], by simp [hphase]⟩
  | checkpointStep hstep => exact h.checkpointStep hm hstep
  | beginCapture hcapture => exact h.beginCapture hnum hm hcapture
  | finishCapture hcapture => exact h.finishCapture hnum hm hcapture

end

/-- The directories of an opened pool are those of the root. -/
theorem Opens.dirs (hopens : s.Opens params t slot) :
    t.ns.dirs = (slot.root.inoMap.foldl RecoveredTree.load .empty).dirs := by
  rw [hopens.eq]
  exact RecoveredTree.dirs_foldl_replay _ _

/-- The replay changes no kind and no link count. -/
theorem Opens.kind_nlink (h : s.Tracks params) (hm : s.mounted = false)
    (hopens : s.Opens params t slot) (ino : Ino) : (t.ns.inodes.lookup ino).map (fun x ↦ (x.kind, x.nlink)) =
      ((slot.root.inoMap.foldl RecoveredTree.load .empty).inodes.lookup ino).map fun x ↦ (x.kind, x.nlink) := by
  rw [hopens.eq]
  change (((s.disk.replayed params).foldl RecoveredTree.replay _).inodes.lookup ino).map _ = _
  rcases RecoveredTree.exists_isLast (s.disk.replayed params) ino with hnone | ⟨c, hlast⟩
  · rw [RecoveredTree.lookup_foldl_replay_of_ne hnone]
  · obtain ⟨⟨i, x⟩, hentry, hi, hkind, hnlink⟩ := h.disk hm slot hopens.published c hlast.mem
    obtain rfl : i = ino := hi.trans hlast.1
    rw [hlast.lookup_foldl_replay,
      (RecoveredTree.loaded_of_mem (h.slot slot hopens.published).nodup hentry).1, map_some,
      map_some, ← hkind, ← hnlink]

/-- A directory of an opened pool is the root's. -/
theorem Opens.lookup_directory (hslot : EncodesDirectories slot.root.inoMap)
    (hlogged : ∀ shard, ∀ c ∈ (s.delta shard).commits, c.object.kind = .file)
    (hopens : s.Opens params t slot) (hd : t.ns.inodes.lookup d = some inode)
    (hkind : inode.kind = .directory) : (d, inode) ∈ slot.root.inoMap := by
  rw [hopens.eq] at hd
  change ((s.disk.replayed params).foldl RecoveredTree.replay _).inodes.lookup d = _ at hd
  rcases RecoveredTree.exists_isLast (s.disk.replayed params) d with hnone | ⟨c, hlast⟩
  · rw [RecoveredTree.lookup_foldl_replay_of_ne hnone] at hd
    exact (RecoveredTree.lookup_loaded hslot.nodup).1 hd
  · rw [hlast.lookup_foldl_replay] at hd
    cases hd
    obtain ⟨_, shard, _, hc, _⟩ := mem_replayed.1 hlast.mem
    simp [hlogged shard c hc] at hkind

theorem Opens.tracksNamespace (hslot : EncodesDirectories slot.root.inoMap)
    (hlogged : ∀ shard, ∀ c ∈ (s.delta shard).commits, c.object.kind = .file)
    (hopens : s.Opens params t slot) : t.TracksNamespace := by
  have hrecorded : ∀ {d : Ino} {inode : InodeObject}, t.ns.inodes.lookup d = some inode →
      inode.kind = .directory →
        (∃ dir, inode.content = .dirEntries dir) ∧ t.ns.dirs d = InodeObject.recorded inode := by
    intro d _ hd hkind
    have hmem := hopens.lookup_directory hslot hlogged hd hkind
    rw [hopens.dirs]
    exact ⟨hslot.encoded _ hmem hkind, (RecoveredTree.loaded_of_mem hslot.nodup hmem).2⟩
  have hops : ∀ ino, t.ops ino = none := by rw [hopens.eq]; exact fun _ ↦ rfl
  refine ⟨fun d inode hd hkind ↦ ?_, fun d inode hd hkind ↦ (hrecorded hd hkind).1,
    fun d _ dir hd hkind hdir _ ↦ ?_, fun ino hop ↦ by simp [hops] at hop,
    fun _ _ _ _ hop ↦ by simp [hops] at hop⟩
  · obtain ⟨⟨_, hdir⟩, hdirs⟩ := hrecorded hd hkind
    simp [hdirs, InodeObject.recorded, hkind, hdir]
  · rw [planned_eq_recorded (by simp [hopens.frame.1]), ← hdir, (hrecorded hd hkind).2, recorded, hd]
    rfl

theorem Opens.tracks (h : s.Tracks params) (hopens : s.Opens params t slot) : t.Tracks params := by
  obtain ⟨hcheckpoint, hslot, hdelta⟩ := hopens.frame
  exact ⟨fun _ ↦ hopens.tracksNamespace (h.slot slot hopens.published) h.logged,
    fun _ c hc ↦ by simp [hcheckpoint] at hc, hdelta ▸ h.logged, hslot ▸ h.slot,
    fun hm' ↦ by simp [hopens.eq, mountedState] at hm'⟩

theorem tracks_create : State.create.Tracks params := by
  have hlookup : ∀ {d : Ino} {inode : InodeObject}, State.create.ns.inodes.lookup d = some inode →
      d = rootDirIno ∧ inode.content = .dirEntries none := by
    intro d _ hd
    simp only [create, Namespace.create, Table.lookup_insert_eq, Table.lookup_empty] at hd
    split_ifs at hd with heq
    exact ⟨heq, by simp [← some.inj hd]⟩
  refine ⟨fun _ ↦ ⟨fun d inode hd _ ↦ ?_, fun d inode hd _ ↦ ⟨none, (hlookup hd).2⟩,
    fun d _ _ hd _ _ hclean ↦ ?_, by simp [create], by simp [create]⟩, by simp [create],
    by simp [create, DeltaSegments.commits], by simp [create], by simp [create]⟩
  · simp [(hlookup hd).1, create, Namespace.create]
  · exact absurd (by simp [(hlookup hd).1, create, Namespace.create]) hclean

theorem Tracks.step (hloc : s.Located) (hnum : s.Numbered params)
    (h : s.Tracks params) (hC : RevisesRoot params s a) (hst : s.step params a = some t) : t.Tracks params := by
  cases hloc.takes hst with
  | fails hm hfail =>
    obtain ⟨_, rfl, -⟩ := hfail
    have hunmounted : ∀ {P : Prop}, s.mounted = true → P := fun hm' ↦ by simp [hm] at hm'
    exact ⟨hunmounted, hunmounted, h.logged, h.slot, h.disk⟩
  | opens _ hopens => exact hopens.tracks h
  | crash =>
    exact ⟨fun hm' ↦ by simp [crash] at hm', fun hm' ↦ by simp [crash] at hm', h.logged, h.slot,
      fun _ slot hslot c hc ↦ (hC slot hslot c hc).2⟩
  | mounted hm ha hst => exact h.mountedStep hnum hm hst ha

theorem tracks_of_reachable (h : (pool params).ReachableUnder (RevisesRoot params) s) :
    s.Tracks params :=
  h.invariant (fun _ hs ↦ hs ▸ tracks_create) fun _ _ _ hreach hs hC hst ↦
    hs.step (located_of_reachable hreach)
      (numbered_of_reachable (hreach.mono fun _ _ hC ↦ hC.countsReplayed)) hC hst

end State

end Lchfs.Store
