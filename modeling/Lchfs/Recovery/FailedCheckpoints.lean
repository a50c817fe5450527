import Lchfs.Recovery.Attempts
import Lchfs.Recovery.Window

/-!
# What a checkpoint publishes after others failed

While a checkpoint runs, every inode that has been there since it began is still to be captured,
or its inode object says what the namespace held at some instant since then. The snapshot is
taken when nothing is left to capture.
-/

namespace Lchfs.Store

open Lchfs.Format Lchfs.Library
open List Option State Checkpoint Namespace

namespace State

variable {params : PoolParams} {s t : State} {ino : Ino} {slot : SuperblockSlot} {a : Action}
  {written : List Hash32}

/-! ## Mounts -/

theorem Opens.encoded (hloc : s.Located) (hm : s.mounted = false) (h : s.Opens params t slot) :
    ∀ entry ∈ slot.root.inoMap, entry.2.kind = .directory → entry.2.content ≠ .dirEntries none := by
  obtain ⟨r, hr⟩ := h.recovered
  have hdisk : (s.mountDisk slot).On s.store := ⟨rfl, rfl⟩
  exact (recover_tree hdisk hloc.store (hloc.idle hm) h.sound (hloc.slot slot h.published)
    (hloc.sound_mountLocations hm h.sound _ hdisk) hr).2.2

/-- A working state that a replayed entry leaves is never dropped. -/
theorem isSome_fileState_foldl_replay {entries : List DeltaCommit} {tree : RecoveredTree} {c : DeltaCommit}
    (hc : c ∈ entries) (hleaves : leavesFileState c = true) :
    ((entries.foldl RecoveredTree.replay tree).fileState c.ino).isSome := by
  have hkeep : ∀ (entries : List DeltaCommit) (tree : RecoveredTree), (tree.fileState c.ino).isSome →
      ((entries.foldl RecoveredTree.replay tree).fileState c.ino).isSome := by
    intro entries
    induction entries with
    | nil => exact fun _ h ↦ h
    | cons d _ ih =>
      intro _ h
      refine ih _ ?_
      by_cases heq : c.ino = d.ino
      · rw [heq, RecoveredTree.fileState_replay]
        rw [heq] at h
        cases RecoveredTree.workingState d.object <;> simp [h]
      · rwa [RecoveredTree.fileState_replay_ne heq]
  obtain ⟨_, after, rfl⟩ := append_of_mem hc
  rw [foldl_append, foldl_cons]
  refine hkeep after _ ?_
  rw [RecoveredTree.fileState_replay]
  obtain ⟨_, hstate⟩ := isSome_iff_exists.1 ((RecoveredTree.isSome_workingState c).trans hleaves)
  simp [hstate]

theorem Opens.owes (hloc : s.Located) (hm : s.mounted = false)
    (hslot : EncodesDirectories slot.root.inoMap)
    (hlogged : ∀ shard, ∀ c ∈ (s.delta shard).commits, c.object.kind = .file)
    (h : s.Opens params t slot) : t.Owes := by
  have hcheckpoint : t.checkpoint = none := by rw [h.eq]; rfl
  have hops : ∀ i, t.ops i = none := by rw [h.eq]; exact fun _ ↦ rfl
  refine ⟨fun i x _ _ ↦ ?_, fun d x hx hkind hcontent ↦ ?_, by simp [hops], by simp [hops], by simp [hcheckpoint],
    by simp [hcheckpoint]⟩
  · by_cases hleaves : ∃ c ∈ s.disk.replayed params, c.ino = i ∧ leavesFileState c = true
    · obtain ⟨c, hc, rfl, hleaves⟩ := hleaves
      rw [h.eq]
      refine .inr ⟨.inr (isSome_fileState_foldl_replay hc hleaves), .inl ?_⟩
      exact (RecoveredTree.mem_replayed_foldl_replay _ _).2 (.inr ⟨c, hc, rfl⟩)
    · left
      rw [h.eq]
      refine (recoveredStamps_of_ne _ fun c hc heq ↦ hleaves ?_).symm
      exact ⟨c, mem_of_mem_filter hc, heq, (mem_filter.1 hc).2⟩
  · exact absurd hcontent (h.encoded hloc hm _ (h.lookup_directory hslot hlogged hx hkind) hkind)

/-! ## The states of a pool whose checkpoints may fail -/

/-- What holds in every state of a run. -/
structure Founded (params : PoolParams) (s : State) : Prop where
  located : s.Located
  numbered : s.Numbered params
  ns : s.mounted = true → s.TracksNamespace
  checkpoint : s.mounted = true → ∀ c, s.checkpoint = some c → s.TracksCheckpoint c
  logged : ∀ shard, ∀ c ∈ (s.delta shard).commits, c.object.kind = .file
  slot : ∀ slot, s.slot = some slot → EncodesDirectories slot.root.inoMap
  owes : s.mounted = true → s.Owes

theorem Founded.tracks (h : s.Founded params) (hm : s.mounted = true) : s.Tracks params :=
  ⟨h.ns, h.checkpoint, h.logged, h.slot, fun hm' ↦ by simp [hm] at hm'⟩

theorem Owes.mountedStep (h : s.Owes) (htracks : s.Tracks params) (hm : s.mounted = true)
    (hst : s.mountedStep params a = some t) (ha : a ≠ .crash) : t.Owes := by
  cases mountedStep_effect hst ha with
  | names hcall => exact h.names (.of_edited hcall.edited)
  | create hcreate => exact h.createEntry hcreate
  | file hfile hstep => exact h.fileAction (htracks.ns hm) hfile hstep
  | deltaCommit hcommit => exact h.deltaCommit hcommit
  | upkeep hupkeep =>
    obtain ⟨-, -, -, hns, hfile, hopen, hops, hcheckpoint, -, hghost⟩ := hupkeep
    exact h.background ⟨hns, hfile, hopen, hcheckpoint, hghost⟩ fun i op hop ↦
      ⟨op, hops ▸ hop, rfl, fun _ _ _ _ ↦ rfl⟩
  | beginCheckpoint hbegin => exact h.beginCheckpoint hbegin
  | checkpointStep hstep => exact h.checkpointStep hstep
  | beginCapture hcapture => exact h.beginCapture (htracks.checkpoint hm) hcapture
  | finishCapture hcapture => exact h.finishCapture (htracks.ns hm) hcapture

theorem Founded.step (h : s.Founded params) (hC : CountsReplayed params s a)
    (hst : s.step params a = some t) : t.Founded params := by
  have hloc := h.located.step hst
  have hnum := h.numbered.step h.located hC hst
  cases h.located.takes hst with
  | fails hm hfail =>
    obtain ⟨_, rfl, -⟩ := hfail
    have hunmounted : ∀ {P : Prop}, s.mounted = true → P := fun hm' ↦ by simp [hm] at hm'
    exact ⟨hloc, hnum, hunmounted, hunmounted, h.logged, h.slot, hunmounted⟩
  | opens hm hopens =>
    have hslot := h.slot _ hopens.published
    obtain ⟨hcheckpoint, hsame, hdelta⟩ := hopens.frame
    exact ⟨hloc, hnum, fun _ ↦ hopens.tracksNamespace hslot h.logged, fun _ c hc ↦ by simp [hcheckpoint] at hc,
      hdelta ▸ h.logged, hsame ▸ h.slot, fun _ ↦ hopens.owes h.located hm hslot h.logged⟩
  | crash =>
    have hunmounted : ∀ {P : Prop}, s.crash.mounted = true → P := fun hm' ↦ by simp [crash] at hm'
    exact ⟨hloc, hnum, hunmounted, hunmounted, h.logged, h.slot, hunmounted⟩
  | mounted hm ha hst =>
    have htracks := (h.tracks hm).mountedStep h.numbered hm hst ha
    exact ⟨hloc, hnum, htracks.ns, htracks.checkpoint, htracks.logged, htracks.slot,
      fun _ ↦ (h.owes hm).mountedStep (h.tracks hm) hm hst ha⟩

/-- The drained marks are back, so what is clean after the failure is recorded as it is. -/
theorem TracksNamespace.failCheckpoint (h : s.TracksNamespace) (howes : s.Owes)
    (hst : s.failCheckpoint written = some t) : t.TracksNamespace := by
  obtain ⟨-, c, hc, rfl⟩ := failCheckpoint_spec hst
  refine ⟨h.directory, h.encoded, fun d inode dir hd hkind hdir hclean ↦ ?_, fun i hi ↦ h.ops i ?_,
    fun i chunks object stamp hi ↦ h.contentSet i chunks object stamp (ops_of_failed hi).1⟩
  · obtain ⟨hmem, hdrained⟩ : d ∉ s.ns.dirtyInodes ∧ d ∉ c.dirty := by
      simpa only [mem_union_iff, not_or] using hclean
    have hcopy : c.copyOf s.ns.dirs d = none := by
      unfold copyOf
      split
      · exact if_neg hdrained
      · next hphase =>
        cases hw : c.work.find? (·.ino = d) with
        | none => rfl
        | some w =>
          refine absurd (howes.drained c hc d ?_) hdrained
          simp only [Schedules, hphase]
          exact .inr ⟨w, mem_of_find?_eq_some hw, by simpa using find?_some hw⟩
      · rfl
    rw [← h.clean d inode dir hd hkind hdir hmem]
    simp [planned, hc, hcopy]
  · obtain ⟨_, hop⟩ := isSome_iff_exists.1 hi
    simp [(ops_of_failed hop).1]

theorem Founded.failCheckpoint (h : s.Founded params) (hst : s.failCheckpoint written = some t) :
    t.Founded params := by
  obtain ⟨hm, c, _, ht⟩ := failCheckpoint_spec hst
  have hns := (h.ns hm).failCheckpoint (h.owes hm) hst
  have howes := (h.owes hm).failCheckpoint hst
  subst ht
  refine ⟨h.located.keepsRoots ⟨RecordStore.evolves_putMetaObjects _ _, hm, rfl, by simp⟩,
    h.numbered.shrink hm rfl le_rfl (fun _ hi ↦ .inl hi) (fun i hi ↦ .inl ?_) (by simp), fun _ ↦ hns, by simp,
    h.logged, h.slot, fun _ ↦ howes⟩
  obtain ⟨_, hop⟩ := isSome_iff_exists.1 hi
  simp [(ops_of_failed hop).1]

theorem founded_create : State.create.Founded params := by
  have htracks : State.create.Tracks params := tracks_create
  refine ⟨located_create, numbered_create, htracks.ns, htracks.checkpoint, htracks.logged, htracks.slot, fun _ ↦ ?_⟩
  refine ⟨fun i x hx _ ↦ .inl rfl, fun d x hx _ _ ↦ .inl ?_, by simp [create], by simp [create], by simp [create],
    by simp [create]⟩
  simp only [create, Namespace.create, Table.lookup_insert_eq, Table.lookup_empty] at hx
  split_ifs at hx with heq
  simp [heq, create, Namespace.create]

end State

namespace Attempt

variable {params : PoolParams} {w w' : Attempt}
variable {since : List State} {t : State} {a : Store.Action}

theorem founded_of_reachable (h : (attempting params).ReachableUnder (CountsReplayed params) w) :
    w.state.Founded params := by
  refine h.invariant (I := fun w ↦ w.state.Founded params) (fun _ hw ↦ ?_) fun w a w' _ hw hC hst ↦ ?_
  · subst hw
    exact founded_create
  cases a with
  | pool a =>
    have hpool : w.state.step params a = some w'.state := by
      cases a <;> obtain ⟨t, ht, rfl⟩ := map_eq_some_iff.1 hst <;> exact ht
    exact hw.step hC hpool
  | fail =>
    obtain ⟨t, ht, rfl⟩ := map_eq_some_iff.1 hst
    exact hw.failCheckpoint ht

/-! ## What the running checkpoint publishes -/

/-- The inode has been there since the checkpoint began. -/
def Kept (since : List State) (ino : Ino) : Prop :=
  ∀ u ∈ since, (u.ns.inodes.lookup ino).isSome

/-- What is recorded of an inode is what the namespace held at an instant since the checkpoint began: a
file's content is that in memory, a directory's the encoded entries. -/
structure Current (since : List State) (stamp : Nat) (ino : Ino) (inode : InodeObject) : Prop where
  file : inode.kind = .file → ∃ u ∈ since, stamp = u.ghost.memStamp ino
  directory : inode.kind = .directory → ∃ u ∈ since, ∃ dir, u.ns.dirs ino = some dir ∧
    inode.content = .dirEntries (some dir)

/-- Every inode object of the map is one the namespace held since the checkpoint began, and every inode
that has been there all the time is in the map with a current content. -/
structure Publishes (since : List State) (stamps : Ino → Nat) (m : InoMap) : Prop where
  held : ∀ entry ∈ m, ∃ u ∈ since, u.ns.inodes.lookup entry.1 = some entry.2
  kept : ∀ ino, Kept since ino → ∃ inode, (ino, inode) ∈ m ∧ Current since (stamps ino) ino inode

/-- The checkpoint is still going to capture the inode. -/
def Awaits (c : Checkpoint) (s : State) (ino : Ino) : Prop :=
  c.phase.rank ≤ Phase.drain.rank ∧ ino ∈ s.ns.dirtyInodes ∨ c.Schedules ino

structure Fresh (w : Attempt) (c : Checkpoint) : Prop where
  now : w.state ∈ w.since
  current : c.phase.rank ≤ Phase.capture.rank → ∀ ino inode, Kept w.since ino →
    w.state.ns.inodes.lookup ino = some inode →
      Awaits c w.state ino ∨ Current w.since (w.state.ghost.nsStamp ino) ino inode
  copies : ∀ x ∈ c.work, ∀ dir, x.dir = some dir → ∃ u ∈ w.since, u.ns.dirs x.ino = some dir
  snapshot : Phase.inodes.rank ≤ c.phase.rank → Publishes w.since w.state.ghost.snapStamp c.inoSnapshot

theorem Kept.tail {ino : Ino} (h : Kept (t :: since) ino) : Kept since ino :=
  fun u hu ↦ h u (mem_cons_of_mem t hu)

theorem Current.cons {stamp : Nat} {ino : Ino} {inode : InodeObject}
    (h : Current since stamp ino inode) (t : State) : Current (t :: since) stamp ino inode := by
  refine ⟨fun hkind ↦ ?_, fun hkind ↦ ?_⟩
  · obtain ⟨u, hu, hstamp⟩ := h.file hkind
    exact ⟨u, mem_cons_of_mem t hu, hstamp⟩
  · obtain ⟨u, hu, hdir⟩ := h.directory hkind
    exact ⟨u, mem_cons_of_mem t hu, hdir⟩

theorem Publishes.cons {stamps : Ino → Nat} {m : InoMap} (h : Publishes since stamps m)
    (t : State) : Publishes (t :: since) stamps m := by
  refine ⟨fun entry hentry ↦ ?_, fun ino hino ↦ ?_⟩
  · obtain ⟨u, hu, hlookup⟩ := h.held entry hentry
    exact ⟨u, mem_cons_of_mem t hu, hlookup⟩
  · obtain ⟨inode, hmem, hcurrent⟩ := h.kept ino hino.tail
    exact ⟨inode, hmem, hcurrent.cons t⟩

theorem exists_cons {P : State → Prop} (h : ∃ u ∈ since, P u) (t : State) : ∃ u ∈ t :: since, P u := by
  obtain ⟨u, hu, hP⟩ := h
  exact ⟨u, mem_cons_of_mem t hu, hP⟩

/-- A step that leaves the checkpoint and the content of directories alone. -/
theorem Fresh.of_same {s : State} {c : Checkpoint} (h : Fresh ⟨s, since⟩ c)
    (hinode : ∀ ino inode', t.ns.inodes.lookup ino = some inode' → (s.ns.inodes.lookup ino).isSome →
      ∃ inode, s.ns.inodes.lookup ino = some inode ∧ inode'.kind = inode.kind ∧
        (inode.kind = .directory → inode'.content = inode.content))
    (hstamp : ∀ ino, (s.ns.inodes.lookup ino).isSome →
      t.ghost.nsStamp ino = s.ghost.nsStamp ino ∨ t.ghost.nsStamp ino = t.ghost.memStamp ino)
    (hdirty : ∀ ino ∈ s.ns.dirtyInodes, (t.ns.inodes.lookup ino).isSome → ino ∈ t.ns.dirtyInodes)
    (hsnap : t.ghost.snapStamp = s.ghost.snapStamp) : Fresh ⟨t, t :: since⟩ c := by
  refine ⟨mem_cons_self, fun hphase ino inode' hkept hlookup ↦ ?_,
    fun x hx dir hdir ↦ exists_cons (h.copies x hx dir hdir) t, fun hphase ↦ ?_⟩
  · have hsome := hkept.tail s h.now
    obtain ⟨inode, hold, hkind, hcontent⟩ := hinode ino inode' hlookup hsome
    rcases h.current hphase ino inode hkept.tail hold with hawaits | hcurrent
    · refine .inl (hawaits.imp_left fun hmem ↦ ⟨hmem.1, hdirty ino hmem.2 ?_⟩)
      exact isSome_iff_exists.2 ⟨inode', hlookup⟩
    · refine .inr ⟨fun hfile ↦ ?_, fun hdirectory ↦ ?_⟩
      · rcases hstamp ino hsome with hsame | hnew
        · change ∃ u ∈ t :: since, t.ghost.nsStamp ino = _
          rw [hsame]
          exact exists_cons (hcurrent.file (hkind ▸ hfile)) t
        · exact ⟨t, mem_cons_self, hnew⟩
      · have hdir := hkind ▸ hdirectory
        rw [hcontent hdir]
        exact exists_cons (hcurrent.directory hdir) t
  · change Publishes (t :: since) t.ghost.snapStamp c.inoSnapshot
    rw [hsnap]
    exact (h.snapshot hphase).cons t

section Steps

variable {s t : State} {since : List State} {c c' : Checkpoint}
variable {ino : Ino}

/-- When a checkpoint begins, what is not dirty is recorded as it is. -/
theorem Fresh.beginCheckpoint (h : s.Founded params) (hm : s.mounted = true) (hst : s.beginCheckpoint = some t)
    (hc' : t.checkpoint = some c') : Fresh ⟨t, [t]⟩ c' := by
  obtain ⟨hnone, c, rfl, hphase, -, -, hwork, -⟩ := beginCheckpoint_spec hst
  cases hc'
  have hns := h.ns hm
  have howes := h.owes hm
  have hdirty : ∀ {i}, s.Marked i → i ∈ s.ns.dirtyInodes := by
    rintro i (hi | ⟨c', hc', -⟩)
    · exact hi
    · simp [hnone] at hc'
  refine ⟨mem_cons_self, fun _ ino inode _ hlookup ↦ ?_, by simp [hwork], by simp [hphase]⟩
  change s.ns.inodes.lookup ino = some inode at hlookup
  by_cases hmem : ino ∈ s.ns.dirtyInodes
  · exact .inl (.inl ⟨by simp [hphase], hmem⟩)
  · refine .inr ⟨fun hkind ↦ ⟨_, mem_cons_self, ?_⟩, fun hkind ↦ ⟨_, mem_cons_self, ?_⟩⟩
    · exact (howes.file ino inode hlookup hkind).resolve_right fun hmarked ↦ hmem (hdirty hmarked.2)
    · obtain ⟨dir, hdir⟩ := isSome_iff_exists.1 (hns.directory ino inode hlookup hkind)
      obtain ⟨content, hcontent⟩ := hns.encoded ino inode hlookup hkind
      refine ⟨dir, hdir, ?_⟩
      have hplanned := hns.clean ino inode dir hlookup hkind hdir hmem
      rw [planned_eq_recorded (by simp [hnone]), recorded, hlookup, bind_some] at hplanned
      cases content with
      | none => exact absurd (hdirty (howes.directory ino inode hlookup hkind hcontent)) hmem
      | some =>
        simp only [InodeObject.recorded, hkind, hcontent, getD_some, some.injEq] at hplanned
        rw [hcontent, hplanned]

theorem Fresh.fileAction (h : Fresh ⟨s, since⟩ c) (hs : s.Founded params) (hm : s.mounted = true)
    (ha : FileAction ino a) (hst : s.mountedStep params a = some t) :
    Fresh ⟨t, t :: since⟩ c := by
  have hlocal := ha.isLocal hst
  have hcontinues := ha.continues hst ((hs.owes hm).published ino)
  refine h.of_same (fun i _ hx' _ ↦ ?_) (fun i _ ↦ ?_) (fun i hi _ ↦ hlocal.dirty i hi) hlocal.snapStamp
  · obtain ⟨x, hx, hkind, -, hother⟩ := hlocal.lookup hx'
    refine ⟨x, hx, hkind.symm, fun hdirectory ↦ ?_⟩
    have hne : i ≠ ino := by
      rintro rfl
      simp [(hs.ns hm).isFile ha hst hx] at hdirectory
    rw [hother hne]
  · by_cases heq : i = ino
    · exact heq ▸ hcontinues.nsStamp
    · exact .inl (hlocal.nsStamp i heq)

theorem Fresh.createEntry {parent : Ino} {name : String} {kind : InodeKind} {target : String}
    (h : Fresh ⟨s, since⟩ c) (hs : s.Founded params) (hm : s.mounted = true)
    (hst : s.createEntry parent name kind target = some t) : Fresh ⟨t, t :: since⟩ c := by
  obtain ⟨_, _, hcreate, rfl⟩ := createEntry_spec hst
  obtain ⟨rfl, -, -, hlookup, -, hdirty⟩ := createEntry_ok hcreate
  -- the new number belongs to no inode yet
  have hne : ∀ {i}, (s.ns.inodes.lookup i).isSome → i ≠ s.ns.nextIno := fun hi ↦
    Nat.ne_of_lt (hs.numbered.inUse hm _ (.inl hi))
  refine h.of_same (fun i x' hx' hsome ↦ ?_) (fun i hsome ↦ .inl ?_) (fun i hi _ ↦ hdirty i hi) rfl
  · rw [hlookup, if_neg (hne hsome)] at hx'
    exact ⟨x', hx', rfl, fun _ ↦ rfl⟩
  · exact Function.update_of_ne (hne hsome) _ _

/-- Nothing is left to capture: the snapshot has what is current. -/
theorem Fresh.publishes (h : Fresh ⟨s, since⟩ c) (hphase : c.phase = .capture) (hwork : c.work = [])
    (hcapturing : c.capturing = none) : Publishes since s.ghost.nsStamp s.inoSnapshot := by
  refine ⟨fun _ hentry ↦ ⟨s, h.now, mem_inoSnapshot.1 hentry⟩, fun ino hkept ↦ ?_⟩
  obtain ⟨inode, hlookup⟩ := isSome_iff_exists.1 (hkept s h.now)
  refine ⟨inode, mem_inoSnapshot.2 hlookup, ?_⟩
  refine (h.current (by simp [hphase]) ino inode hkept hlookup).resolve_left ?_
  rintro (⟨hrank, -⟩ | hschedules)
  · simp [hphase] at hrank
  · simp [Schedules, hphase, hwork, hcapturing] at hschedules

section

variable (h : Fresh ⟨s, since⟩ c) (hc : s.checkpoint = some c)

include h hc

theorem Fresh.checkpointStep
    (hst : s.checkpointStep params = some t) (hc' : t.checkpoint = some c') : Fresh ⟨t, t :: since⟩ c' := by
  have hframe := checkpointStep_frame hst
  -- an inode that is not awaited stays current
  have hcurrent : ∀ {ino inode}, c.phase.rank ≤ Phase.capture.rank → Kept (t :: since) ino →
      t.ns.inodes.lookup ino = some inode → (Awaits c s ino → Awaits c' t ino) →
        Awaits c' t ino ∨ Current (t :: since) (t.ghost.nsStamp ino) ino inode := by
    intro ino inode hphase hkept hlookup hawaits
    rw [hframe.nsStamp]
    exact (h.current hphase ino inode hkept.tail (hframe.inodes ▸ hlookup)).imp hawaits fun h ↦ h.cons t
  have hcopies : ∀ x ∈ c.work, ∀ dir, x.dir = some dir → ∃ u ∈ t :: since, u.ns.dirs x.ino = some dir :=
    fun x hx dir hdir ↦ exists_cons (h.copies x hx dir hdir) t
  obtain ⟨_, hc₀, heffect⟩ := checkpointStep_effect hst
  cases hc.symm.trans hc₀
  cases heffect with
  | superblock => cases hc'
  | drain hphase =>
    cases hc'
    refine ⟨mem_cons_self, fun _ ino inode hkept hlookup ↦ ?_, hcopies, by simp⟩
    refine hcurrent (by simp [hphase]) hkept hlookup ?_
    rintro (⟨-, hmem⟩ | hschedules)
    · exact .inr hmem
    · simp [Schedules, hphase] at hschedules
  | work hphase =>
    cases hc'
    refine ⟨mem_cons_self, fun _ ino inode hkept hlookup ↦ ?_, fun x hx dir hdir ↦ ?_, by simp⟩
    · refine hcurrent (by simp [hphase]) hkept hlookup ?_
      rintro (⟨hrank, -⟩ | hschedules)
      · simp [hphase] at hrank
      · simp only [Schedules, hphase] at hschedules
        exact .inr (.inr (exists_dirtyWork hschedules (hkept.tail s h.now)))
    · exact ⟨_, mem_cons_self, (mem_dirtyWork hx).2 dir hdir⟩
  | snapshot hphase hwork hcapturing =>
    cases hc'
    exact ⟨mem_cons_self, fun hphase' ↦ by simp at hphase', hcopies, fun _ ↦
      (h.publishes hphase hwork hcapturing).cons _⟩
  | pass hpass =>
    cases hc'.symm.trans hpass.checkpoint
    refine ⟨mem_cons_self, fun hphase' _ _ hkept hlookup ↦ ?_, hpass.work ▸ hcopies, fun hphase' ↦ ?_⟩
    · obtain ⟨hold, hearly⟩ := hpass.phase.resolve_right fun hlate ↦ absurd (hlate.2.trans hphase') (by simp)
      refine hcurrent (hold.le.trans (by simp)) hkept hlookup ?_
      rintro (⟨-, hmem⟩ | hschedules)
      · exact .inl ⟨hearly, hpass.marks ▸ hmem⟩
      · cases (Schedules.inWindow hschedules).symm.trans hpass.inWindow.1
    · change Publishes (t :: since) t.ghost.snapStamp c'.inoSnapshot
      rw [hpass.snapStamp, hpass.inoSnapshot]
      refine (h.snapshot ?_).cons t
      exact hpass.phase.elim (fun hearly ↦ absurd (hphase'.trans hearly.2) (by simp)) And.left

theorem Fresh.beginCapture
    (htracks : s.TracksCheckpoint c) (hst : s.beginCapture ino = some t) (hc' : t.checkpoint = some c') :
    Fresh ⟨t, t :: since⟩ c' := by
  obtain ⟨_, w, hc₀, hphase, hcapturing, hw, rfl, hcaptures⟩ := beginCapture_captures hst
  cases hc.symm.trans hc₀
  cases hcaptures.checkpoint.symm.trans hc'
  obtain ⟨hkind, hdir⟩ := htracks.work w hw
  refine ⟨mem_cons_self, fun _ i x' hkept hx' ↦ ?_, fun x hx dir hdir ↦
    exists_cons (h.copies x (mem_of_mem_filter hx) dir hdir) t, fun hlate ↦ absurd hlate (by simp [without, hphase])⟩
  obtain ⟨x, hx, hsame, hcontent⟩ := hcaptures.inode i x' hx'
  by_cases heq : i = w.ino
  · subst heq
    rw [hkind x hx] at hsame
    cases hwork : w.kind with
    | file => exact .inl (.inr (by simp [Schedules, without, hphase]))
    | symlink => exact .inr ⟨by simp [hsame, hwork], by simp [hsame, hwork]⟩
    | directory =>
      obtain ⟨dir, hcopy⟩ := isSome_iff_exists.1 (hdir.2 hwork)
      refine .inr ⟨by simp [hsame, hwork], fun _ ↦ ?_⟩
      obtain ⟨u, hu, hentries⟩ := exists_cons (h.copies w hw dir hcopy) t
      exact ⟨u, hu, dir, hentries, by simpa [hwork, hcopy] using hcontent⟩
  · rw [if_neg fun hboth ↦ heq hboth.1] at hcontent
    subst hcontent
    rcases h.current (by simp [hphase]) i x' hkept.tail hx with (⟨hearly, -⟩ | hschedules) | hcurrent
    · simp [hphase] at hearly
    · exact .inl (.inr (schedules_without hschedules hphase heq _ hcapturing))
    · exact .inr (hcaptures.ghost ▸ hcurrent.cons t)

theorem Fresh.finishCapture (howes : s.Owes)
    (hns : s.TracksNamespace) (hst : s.finishCapture params ino = some t) (hc' : t.checkpoint = some c') :
    Fresh ⟨t, t :: since⟩ c' := by
  obtain ⟨_, refs, hc₀, hop, ht⟩ := finishCapture_spec hst
  cases hc.symm.trans hc₀
  obtain ⟨_, hc₁, hphase, hcapturing⟩ := howes.capture ino _ _ _ hop
  cases hc.symm.trans hc₁
  have hlocal := Local.capture params ino s (finalizedChunks (s.openFiles ino) refs)
  obtain rfl : { c with capturing := none } = c' := by
    rw [ht] at hc'
    exact some.inj hc'
  refine ⟨mem_cons_self, fun _ i _ hkept hx' ↦ ?_, fun x hx dir hdir ↦ exists_cons (h.copies x hx dir hdir) t,
    fun hlate ↦ by simp [hphase] at hlate⟩
  have hx'' := hx'
  rw [ht] at hx''
  obtain ⟨x, hx, hsame, -, hother⟩ := hlocal.lookup hx''
  by_cases heq : i = ino
  · subst heq
    have hfile := hns.ops i (by simp [hop]) x hx
    refine .inr ⟨fun _ ↦ ⟨t, mem_cons_self, ?_⟩, fun hdirectory ↦ ?_⟩
    · have hstamp := nsStamp_capture params refs howes hx hfile
      rw [ht]
      simpa [setCheckpoint, setOp, dropSession_ghost] using hstamp
    · simp [← hsame, hfile] at hdirectory
  · obtain rfl := hother heq
    rcases h.current (by simp [hphase]) i x hkept.tail hx with (⟨hearly, -⟩ | hschedules) | hcurrent
    · simp [hphase] at hearly
    · refine .inl (.inr ?_)
      simp only [Schedules, hphase, hcapturing] at hschedules ⊢
      exact .inr (hschedules.resolve_left fun hi ↦ heq (some.inj hi).symm)
    · refine .inr ?_
      have hstamp : t.ghost.nsStamp i = s.ghost.nsStamp i := by
        rw [ht]
        exact hlocal.nsStamp i heq
      change Current (t :: since) (t.ghost.nsStamp i) i x
      rw [hstamp]
      exact hcurrent.cons t

end

end Steps

/-- Every step but a failure and the begin of a checkpoint. -/
theorem Fresh.step {s : State} {c' : Checkpoint}
    (h : ∀ c, s.checkpoint = some c → Fresh ⟨s, since⟩ c) (hs : s.Founded params)
    (hm : s.mounted = true) (hst : s.mountedStep params a = some t) (hcrash : a ≠ .crash)
    (hbegin : a ≠ .beginCheckpoint) (hc' : t.checkpoint = some c') : Fresh ⟨t, t :: since⟩ c' := by
  cases mountedStep_effect hst hcrash with
  | names hcall =>
    have hedits := Edits.of_edited hcall.edited
    refine (h c' hc').of_same (fun i x' hx' _ ↦ ?_) (fun _ _ ↦ .inl rfl) hedits.dirty rfl
    obtain ⟨x, hx, hkind, -, hcontent⟩ := hedits.inode i x' hx'
    exact ⟨x, hx, hkind, fun _ ↦ hcontent⟩
  | create hcreate =>
    obtain ⟨_, _, _, rfl⟩ := createEntry_spec hcreate
    exact (h c' hc').createEntry hs hm hcreate
  | file hfile hstep =>
    exact (h c' ((hfile.isLocal hstep).checkpoint ▸ hc')).fileAction hs hm hfile hstep
  | deltaCommit hcommit =>
    obtain ⟨_, _, _, _, _, rfl⟩ := deltaCommit_spec hcommit
    exact (h c' hc').of_same (fun i x hx _ ↦ ⟨x, hx, rfl, fun _ ↦ rfl⟩) (fun _ _ ↦ .inl rfl) (fun _ hi _ ↦ hi) rfl
  | upkeep hback =>
    refine (h c' (hback.checkpoint ▸ hc')).of_same (fun i x hx _ ↦ ⟨x, hback.ns ▸ hx, rfl, fun _ ↦ rfl⟩)
      (fun _ _ ↦ .inl (by rw [hback.ghost])) (fun _ hi _ ↦ hback.ns ▸ hi) (by rw [hback.ghost])
  | beginCheckpoint => exact absurd rfl hbegin
  | checkpointStep hstep =>
    obtain ⟨c, hc, -⟩ := checkpointStep_effect hstep
    exact (h c hc).checkpointStep hc hstep hc'
  | beginCapture hcapture =>
    obtain ⟨c, -, hc, -⟩ := beginCapture_spec hcapture
    exact (h c hc).beginCapture hc (hs.checkpoint hm c hc) hcapture hc'
  | finishCapture hcapture =>
    obtain ⟨c, -, hc, -⟩ := finishCapture_spec hcapture
    exact (h c hc).finishCapture hc (hs.owes hm) (hs.ns hm) hcapture hc'

theorem fresh_of_reachable (h : (attempting params).ReachableUnder (CountsReplayed params) w) :
    w.state.mounted = true → ∀ c, w.state.checkpoint = some c → w.Fresh c := by
  refine h.invariant (I := fun w ↦ w.state.mounted = true → ∀ c, w.state.checkpoint = some c → w.Fresh c)
    (fun _ hw ↦ ?_) fun w a w' hreach hw _ hst hm' c' hc' ↦ ?_
  · subst hw
    simp [State.create]
  have hs := founded_of_reachable hreach
  -- outside a checkpoint there is nothing to show
  have hidle : w'.state.checkpoint = none → w'.Fresh c' := fun hnone ↦ by simp [hnone] at hc'
  cases a with
  | fail =>
    obtain ⟨t, ht, rfl⟩ := map_eq_some_iff.1 hst
    obtain ⟨-, c, -, rfl⟩ := State.failCheckpoint_spec ht
    exact hidle rfl
  | pool a =>
    by_cases hbegin : a = .beginCheckpoint
    · subst hbegin
      obtain ⟨t, ht, rfl⟩ := map_eq_some_iff.1 hst
      obtain ⟨hm, ht⟩ := State.step_mounted ht (by simp)
      exact Fresh.beginCheckpoint hs hm ht hc'
    · obtain ⟨t, ht, rfl⟩ : ∃ t, w.state.step params a = some t ∧ w' = ⟨t, t :: w.since⟩ := by
        cases a <;> first | exact absurd rfl hbegin | obtain ⟨t, ht, rfl⟩ := map_eq_some_iff.1 hst; exact ⟨t, ht, rfl⟩
      cases hs.located.takes ht with
      | fails hm hfail =>
        obtain ⟨_, rfl, -⟩ := hfail
        simp [hm] at hm'
      | opens _ hopens => exact hidle hopens.frame.1
      | crash => exact hidle rfl
      | mounted hm ha ht => exact Fresh.step (hw hm) hs hm ht ha hbegin hc'

/-- The root that a checkpoint writes to the superblock, after any number of others failed: every inode
object is one the namespace held since this checkpoint began, and every inode that has been there all the
time is published with a content that memory held, or with the entries its directory had, at an instant
since this checkpoint began. -/
theorem published_after_failures {c : Checkpoint} {slot : SuperblockSlot}
    (h : (attempting params).ReachableUnder (CountsReplayed params) w) (hc : w.state.checkpoint = some c)
    (hphase : c.phase = .superblock) (hst : w.step params (.pool .checkpointStep) = some w')
    (hslot : w'.state.slot = some slot) :
    Publishes w'.since w'.state.ghost.slotStamp slot.root.inoMap := by
  obtain ⟨t, ht, rfl⟩ := map_eq_some_iff.1 hst
  obtain ⟨hm, ht⟩ := State.step_mounted ht (by simp)
  obtain rfl : w.state.checkpointSuperblock c = t := by
    simpa [State.mountedStep, State.checkpointStep, hc, hphase] using ht
  obtain rfl : ⟨c.generation, c.root, c.rootLocation⟩ = slot := by
    simpa [State.checkpointSuperblock, State.setCheckpoint] using hslot
  have hrank : Phase.inodes.rank ≤ c.phase.rank := by simp [hphase]
  have hroot : c.root.inoMap = c.inoSnapshot :=
    ((founded_of_reachable h).checkpoint hm c hc).root (by simp [hphase])
  dsimp only
  rw [hroot]
  exact ((fresh_of_reachable h hm c hc).snapshot hrank).cons _

/-- A checkpoint fails after it has encoded the root directory. Another file is created, and the next
checkpoint is about to write the superblock. -/
def failedRun : List Action :=
  [.pool (.createEntry rootDirIno "a" .file ""), .pool (.createEntry rootDirIno "d" .directory ""),
    .pool .beginCheckpoint] ++ List.replicate 6 (.pool .checkpointStep) ++
    [.pool (.beginCapture 1), .fail [], .pool (.createEntry 3 "b" .file ""), .pool .beginCheckpoint] ++
    List.replicate 6 (.pool .checkpointStep) ++
    [.pool (.beginCapture 1), .pool (.beginCapture 2), .pool (.finishCapture 2), .pool (.beginCapture 3),
      .pool (.beginCapture 4), .pool (.finishCapture 4)] ++ List.replicate 8 (.pool .checkpointStep)

theorem published_after_failures_failedRun :
    ∃ w w' slot, (attempting (smallPool 1)).ReachableUnder (CountsReplayed (smallPool 1)) w ∧
      w.step (smallPool 1) (.pool .checkpointStep) = some w' ∧ w'.state.slot = some slot ∧
      slot.root.inoMap.map (·.1) = [1, 2, 3, 4] ∧
      Publishes w'.since w'.state.ghost.slotStamp slot.root.inoMap := by
  obtain ⟨w, w', hw, hw', ⟨c, hc, hphase⟩, slot, hslot, hinos⟩ : ∃ w w',
      (attempting (smallPool 1)).ReachableUnder (CountsReplayed (smallPool 1)) w ∧
      w.step (smallPool 1) (.pool .checkpointStep) = some w' ∧ (∃ c ∈ w.state.checkpoint, c.phase = .superblock) ∧
      ∃ slot ∈ w'.state.slot, slot.root.inoMap.map (·.1) = [1, 2, 3, 4] :=
    Machine.exists_step_of_run rfl failedRun (by decide +kernel)
  exact ⟨w, w', slot, hw, hw', hslot, hinos, published_after_failures hw hc hphase hw' hslot⟩

/-- A file is logged and replayed under the number the mount hands out next, an fsync of it is under way,
and a new directory takes the number. A checkpoint has taken the dirty set. -/
def replayedNumberRun : List Store.Action :=
  checkpointRun 1 [.beginCapture 1] ++
    (.createEntry rootDirIno "a" .file "" :: .beginFsync 2 :: fsyncRun (smallPool 1) 2) ++
    [.crash, .openPool, .beginFsync 2, .fsyncBarrier 2, .createEntry rootDirIno "d" .directory "",
      .beginCheckpoint] ++ List.replicate 6 .checkpointStep

/-- A checkpoint that encodes the directory before the fsync sets the content of its inode. -/
def overtakenRun : List Store.Action :=
  .beginCheckpoint :: List.replicate 6 .checkpointStep ++ [.beginCapture 1, .beginCapture 2, .fsyncPublish 2] ++
    List.replicate 8 .checkpointStep

/-- The mount replayed a file with the number it hands out next, an fsync of the file is under way, and a
new directory takes the number. A checkpoint fails; the next one encodes the directory, and before it
copies the inodes the fsync sets the content of the directory's inode to that of the file. -/
theorem directory_lost_after_failure : ∃ w w' slot, (attempting (smallPool 1)).Reachable w ∧
      w.state.checkpoint.map (·.phase) = some .superblock ∧
      w.step (smallPool 1) (.pool .checkpointStep) = some w' ∧ w'.state.slot = some slot ∧
      ¬Publishes w'.since w'.state.ghost.slotStamp slot.root.inoMap := by
  obtain ⟨w, w', hw, hw', hphase, hkept, slot, hslot, hentry⟩ : ∃ w w', (attempting (smallPool 1)).Reachable w ∧
      w.step (smallPool 1) (.pool .checkpointStep) = some w' ∧
      w.state.checkpoint.map (·.phase) = some .superblock ∧ (∀ u ∈ w'.since, (u.ns.inodes.lookup 2).isSome) ∧
      ∃ slot ∈ w'.state.slot, ∀ entry ∈ slot.root.inoMap, entry.1 = 2 →
        entry.2.kind = .directory ∧ entry.2.content = .inline [] :=
    Machine.exists_step_of_run rfl (replayedNumberRun.map .pool ++ .fail [] :: overtakenRun.map .pool)
      (by decide +kernel)
  refine ⟨w, w', slot, hw, hphase, hw', hslot, fun hpublishes ↦ ?_⟩
  obtain ⟨_, hmem, hcurrent⟩ := hpublishes.kept 2 hkept
  obtain ⟨hkind, hcontent⟩ := hentry _ hmem rfl
  obtain ⟨_, _, _, _, hdir⟩ := hcurrent.directory hkind
  rw [hcontent] at hdir
  cases hdir

end Attempt

end Lchfs.Store
