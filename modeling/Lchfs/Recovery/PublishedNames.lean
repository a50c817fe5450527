import Lchfs.Recovery.Window

/-!
# Published and recovered names

What the invariant of `Lchfs.Recovery.Window` says about the tree that a checkpoint
publishes and about the namespace that a mount recovers. Names that are removed in the
window of a checkpoint, and entries of the log whose link counts are not those of the
root, break it; each has a run that shows how.
-/

namespace Lchfs.Store

open Lchfs.Format Lchfs.Library
open List Option

/-- Takes out names one after another; a call that fails changes nothing. -/
def Namespace.unlinkAll (ns : Namespace) (places : List (Ino × String)) : Namespace :=
  places.foldl (fun ns place ↦ (ns.unlink place.1 place.2).toOption.getD ns) ns

variable {ns : Namespace}

theorem Namespace.Consistent.unlinkAll {exact : Bool} (h : Consistent exact [] ns.inodes ns.dirs)
    (places : List (Ino × String)) :
    Consistent exact [] (ns.unlinkAll places).inodes (ns.unlinkAll places).dirs := by
  induction places generalizing ns with
  | nil => exact h
  | cons place _ ih =>
    refine ih ?_
    dsimp only
    cases hok : ns.unlink place.1 place.2 with
    | error => exact h
    | ok => exact h.unlink hok

theorem Namespace.Consistent.names_of_mem {exact : Bool} {held : List DirEntry}
    {inodes : Table Ino InodeObject} {dirs : Ino → Option DirectoryObject} {d : Ino}
    {dir : DirectoryObject} {e : DirEntry} (h : Consistent exact held inodes dirs)
    (hd : dirs d = some dir) (he : e ∈ dir) : Names inodes e :=
  h.entry (d, e.name) e ((entryAt_eq_some h.names).2 ⟨dir, hd, he, rfl⟩)

namespace State

variable {params : PoolParams} {s t : State}

/-- The recovered namespace is consistent, and stays so whatever names are removed: an inode
goes with its last name and not before. -/
theorem recovered_names_consistent (h : (pool params).ReachableUnder (StableNames true params) s)
    (hopen : s.openPool params = some t) (hm : t.mounted = true) (places : List (Ino × String)) :
    (∀ d dir, (t.ns.unlinkAll places).dirs d = some dir → ∀ e ∈ dir, ∃ inode,
      (t.ns.unlinkAll places).inodes.lookup e.ino = some inode ∧ inode.kind = e.kind) ∧
    ∀ ino inode, (t.ns.unlinkAll places).inodes.lookup ino = some inode → inode.kind ≠ .directory →
        inode.nlink = (t.ns.unlinkAll places).linkCount ino ∧ 0 < inode.nlink := by
  have hreach : (pool params).ReachableUnder (StableNames true params) t :=
    h.step (a := .openPool) ⟨trivial, fun _ ↦ rfl⟩ hopen
  have hcons := ((windowed_of_reachable hreach).ns hm).unlinkAll places
  refine ⟨fun d _ hd e he ↦ hcons.names_of_mem hd he, fun ino inode hino hkind ↦
    ⟨?_, hcons.nlink_pos ino inode hino hkind⟩⟩
  have hlinks := hcons.links ino inode hino
  rw [Namespace.LinkCount, if_neg hkind] at hlinks
  rw [Namespace.linkCount_eq_references hcons]
  simpa using hlinks.symm

/-- A file with two names is checkpointed, written through an fsync and recovered. -/
def linkedReplayRun : List Action :=
  .createEntry rootDirIno "a" .file "" :: .link 2 rootDirIno "b" ::
    checkpointRun 1 [.beginCapture 1, .beginCapture 2, .finishCapture 2] ++
    (.beginFsync 2 :: fsyncRun (smallPool 1) 2) ++ [.crash]

theorem recovered_names_consistent_linkedReplayRun :
    ∃ s t, (pool (smallPool 1)).runUnder (StableNames true (smallPool 1)) .create linkedReplayRun =
        some s ∧ s.openPool (smallPool 1) = some t ∧ t.mounted = true ∧
      t.ghost.replayed.map (·.ino) = [2] ∧ (t.ns.unlinkAll [(rootDirIno, "a")]).linkCount 2 = 1 ∧
      (∀ d dir, (t.ns.unlinkAll [(rootDirIno, "a")]).dirs d = some dir → ∀ e ∈ dir, ∃ inode,
        (t.ns.unlinkAll [(rootDirIno, "a")]).inodes.lookup e.ino = some inode ∧
          inode.kind = e.kind) ∧
      ∀ ino inode, (t.ns.unlinkAll [(rootDirIno, "a")]).inodes.lookup ino = some inode →
        inode.kind ≠ .directory →
          inode.nlink = (t.ns.unlinkAll [(rootDirIno, "a")]).linkCount ino ∧ 0 < inode.nlink := by
  obtain ⟨s, hs, t, ht, hm, hreplayed, hcount⟩ : ∃ s, (pool (smallPool 1)).runUnder (StableNames true (smallPool 1))
      .create linkedReplayRun = some s ∧ ∃ t ∈ s.openPool (smallPool 1), t.mounted = true ∧
        t.ghost.replayed.map (·.ino) = [2] ∧ (t.ns.unlinkAll [(rootDirIno, "a")]).linkCount 2 = 1 :=
    Machine.exists_run (by decide +kernel)
  exact ⟨s, t, hs, ht, hm, hreplayed, hcount, recovered_names_consistent (.of_run rfl hs) ht hm [(rootDirIno, "a")]⟩

/-- One of a file's two names is removed after the checkpoint and the file is synced: the
mount brings both names back over the smaller link count, and removing one of them
releases the inode under the other. -/
theorem replayed_link_count_releases_named_inode :
    ∃ s t, (pool (smallPool 1)).Reachable s ∧ s.openPool (smallPool 1) = some t ∧
      t.mounted = true ∧ (t.ns.inodes.lookup 2).map (·.nlink) = some 1 ∧ t.ns.linkCount 2 = 2 ∧
      (t.ns.unlinkAll [(rootDirIno, "a")]).inodes.lookup 2 = none ∧
      ((t.ns.unlinkAll [(rootDirIno, "a")]).dirs rootDirIno).map (·.map (·.ino)) = some [2] := by
  exact Machine.exists_step_of_run rfl (.createEntry rootDirIno "a" .file "" :: .link 2 rootDirIno "b" ::
    checkpointRun 1 [.beginCapture 1, .beginCapture 2, .finishCapture 2] ++
    (.unlink rootDirIno "b" :: .beginFsync 2 :: fsyncRun (smallPool 1) 2) ++ [.crash]) (by decide +kernel)

end State

/-- A pool, and the inodes that have had a name ever since the running checkpoint began. -/
structure Watched where
  state : State
  linked : List Ino

/-- The inodes that a directory entry names. -/
def Namespace.namedInos (ns : Namespace) : List Ino :=
  ns.inodes.toList.flatMap fun entry ↦ ((ns.dirs entry.1).getD []).map (·.ino)

namespace Watched

/-- Every step forgets the inodes without a name; a checkpoint that begins starts over. -/
def watch (linked : List Ino) (t : State) : Action → List Ino
  | .beginCheckpoint => t.ns.namedInos
  | _ => linked.filter (· ∈ t.ns.namedInos)

def step (params : PoolParams) (w : Watched) (a : Action) : Option Watched :=
  (w.state.step params a).map fun t ↦ ⟨t, watch w.linked t a⟩

end Watched

/-- The machine of a pool whose names are watched. -/
def watched (params : PoolParams) : Machine Watched Action where
  init w := w = ⟨.create, []⟩
  step w a := w.step params a

namespace Watched

open State

variable {params : PoolParams} {exact : Bool} {w w' : Watched} {d ino : Ino}
variable {a : Action} {i : Ino}

theorem step_spec (h : w.step params a = some w') : w.state.step params a = some w'.state ∧
      ∀ i ∈ w'.linked, i ∈ w'.state.ns.namedInos ∧ (a = .beginCheckpoint ∨ i ∈ w.linked) := by
  obtain ⟨t, ht, rfl⟩ := map_eq_some_iff.1 h
  refine ⟨ht, fun i hi ↦ ?_⟩
  cases a
  case beginCheckpoint => exact ⟨hi, .inl rfl⟩
  all_goals
    obtain ⟨hmem, hnamed⟩ := mem_filter.1 hi
    exact ⟨by simpa using hnamed, .inr hmem⟩

theorem reachable_state {C : State → Action → Prop}
    (h : (watched params).ReachableUnder (fun w ↦ C w.state) w) :
    (pool params).ReachableUnder C w.state := by
  induction h with
  | init hw =>
    obtain rfl := hw
    exact .init rfl
  | step _ hC hst ih => exact .step ih hC (step_spec hst).1

theorem mem_namedInos (h : Namespace.Consistent exact [] ns.inodes ns.dirs) :
    ino ∈ ns.namedInos ↔ ∃ d dir e, ns.dirs d = some dir ∧ e ∈ dir ∧ e.ino = ino := by
  simp only [Namespace.namedInos, List.mem_flatMap, List.mem_map]
  constructor
  · rintro ⟨⟨d, _⟩, _, e, he, rfl⟩
    cases hd : ns.dirs d with
    | none => simp [hd] at he
    | some dir => exact ⟨d, dir, e, hd, by simpa [hd] using he, rfl⟩
  · rintro ⟨d, _, e, hd, he, rfl⟩
    obtain ⟨inode, hinode, _⟩ := (h.directory d).1 (by simp [hd])
    exact ⟨(d, inode), Table.mem_toList.2 hinode, e, by simpa [hd] using he, rfl⟩

/-- Some directory of the map has an entry of the inode. -/
def Lists (m : InoMap) (ino : Ino) : Prop :=
  ∃ entry ∈ m, ∃ dir, InodeObject.recorded entry.2 = some dir ∧ ∃ e ∈ dir, e.ino = ino

/-- The watched inodes are in directories that are going to be published. -/
structure Keeps (w : Watched) : Prop where
  window : w.state.mounted = true → w.state.inWindow = true → ∀ i ∈ w.linked, ∃ d dir copy e,
    w.state.ns.dirs d = some dir ∧ w.state.planned d = some copy ∧ e ∈ copy ∧ e.ino = i
  snapshot : w.state.mounted = true → ∀ c, w.state.checkpoint = some c →
    Phase.inodes.rank ≤ c.phase.rank → ∀ i ∈ w.linked, Lists c.inoSnapshot i

theorem Keeps.window_step (htracks : w.state.Tracks params) (hnum : w.state.Numbered params)
    (hwindowed : w.state.Windowed exact) (h : w.Keeps) (hm : w.state.mounted = true)
    (hst : w.state.mountedStep params a = some w'.state) (hcrash : a ≠ .crash)
    (ha : w.state.inWindow = true → a.changesNames exact = false)
    (hwindow : w'.state.inWindow = true) (hnamed : i ∈ w'.state.ns.namedInos)
    (hold : i ∈ w.linked) :
    ∃ d dir copy e, w'.state.ns.dirs d = some dir ∧ w'.state.planned d = some copy ∧ e ∈ copy ∧ e.ino = i := by
  by_cases hs : w.state.inWindow = true
  · obtain ⟨d, dir, copy, e, hd, hcopy, he, rfl⟩ := h.window hm hs i hold
    have hadvances := Advances.mountedStep htracks hnum (hwindowed.ns hm) hm hst hcrash (ha hs)
    obtain ⟨dir', hd', hcovers, hplanned⟩ := hadvances.old d dir hd
    rcases hplanned with hplanned | hplanned
    · exact ⟨d, dir', copy, e, hd', hplanned.trans hcopy, he, rfl⟩
    · obtain ⟨copy', hcopy', hcovers'⟩ := hwindowed.window hm hs d dir hd
      obtain rfl : copy' = copy := by simpa [hcopy] using hcopy'.symm
      exact ⟨d, dir', dir', e, hd', hplanned, hcovers.subset (hcovers'.subset he), rfl⟩
  · obtain ⟨hstep, hdirty⟩ := window_opens hst hcrash hwindow hs
    have hcons := consistent_mountedStep hnum (hwindowed.ns hm) hm hst hcrash
    obtain ⟨d, dir, e, hd, he, rfl⟩ := (mem_namedInos hcons).1 hnamed
    have hd' := (checkpointStep_frame hstep).dirs ▸ hd
    exact ⟨d, dir, dir, e, hd, planned_of_drain htracks (hwindowed.ns hm) hm hstep hdirty hd', he, rfl⟩

/-- A watched inode is in the snapshot that ends the window. -/
theorem Keeps.lists_inoSnapshot {c : Checkpoint} (hwindowed : w.state.Windowed exact) (h : w.Keeps)
    (hm : w.state.mounted = true) (hc : w.state.checkpoint = some c) (hphase : c.phase = .capture)
    (hwork : c.work = []) (hi : i ∈ w.linked) : Lists w.state.inoSnapshot i := by
  have hwindow : w.state.inWindow = true := by simp [inWindow, hc, Checkpoint.inWindow, hphase]
  obtain ⟨d, _, copy, e, hd, hcopy, he, rfl⟩ := h.window hm hwindow i hi
  obtain ⟨inode, hinode, _⟩ := ((hwindowed.ns hm).directory d).1 (by simp [hd])
  have hrecorded : InodeObject.recorded inode = some copy := by
    simpa [planned, hc, Checkpoint.copyOf, hphase, hwork, recorded, hinode] using hcopy
  exact ⟨(d, inode), mem_inoSnapshot.2 hinode, copy, hrecorded, e, he, rfl⟩

theorem Keeps.step (hreach : (pool params).ReachableUnder (StableNames exact params) w.state)
    (h : w.Keeps) (hC : StableNames exact params w.state a) (hst : w.step params a = some w') : w'.Keeps := by
  have htracks := tracks_of_reachable (hreach.mono fun _ _ hC ↦ hC.1)
  have hnum := numbered_of_reachable (hreach.mono fun _ _ hC ↦ hC.1.countsReplayed)
  have hwindowed := windowed_of_reachable hreach
  obtain ⟨hst, hlinked⟩ := step_spec hst
  have hidle : w'.state.checkpoint = none → w'.Keeps := fun hnone ↦
    ⟨fun _ hwindow ↦ by simp [inWindow, hnone] at hwindow, fun _ c hc ↦ by simp [hnone] at hc⟩
  generalize ht : w'.state = t at hst hlinked
  cases (located_of_reachable hreach).takes hst with
  | fails hm hfail =>
    obtain ⟨_, rfl, -⟩ := hfail
    exact ⟨fun hm' ↦ by simp [ht, hm] at hm', fun hm' ↦ by simp [ht, hm] at hm'⟩
  | opens _ hopens => exact hidle (ht ▸ hopens.frame.1)
  | crash => exact hidle (by rw [ht]; rfl)
  | mounted hm hcrash hst =>
    subst ht
    refine ⟨fun _ hwindow i hi ↦ ?_, fun _ c' hc' hrank i hi ↦ ?_⟩
    · obtain ⟨hnamed, rfl | hold⟩ := hlinked i hi
      · obtain ⟨_, c, heq, hphase, _⟩ := beginCheckpoint_spec hst
        simp [inWindow, heq, setCheckpoint, Checkpoint.inWindow, hphase] at hwindow
      · exact h.window_step htracks hnum hwindowed hm hst hcrash hC.2 hwindow hnamed hold
    · obtain ⟨_, rfl | hold⟩ := hlinked i hi
      · obtain ⟨_, c, heq, hphase, _⟩ := beginCheckpoint_spec hst
        obtain rfl : c' = c := by simpa [heq, setCheckpoint] using hc'.symm
        simp [hphase] at hrank
      · obtain ⟨c, hc, ⟨hle, hsnapshot⟩ | ⟨hphase, hwork, hsnapshot⟩⟩ := mountedStep_snapshot hst hcrash hc' hrank
        · exact hsnapshot ▸ h.snapshot hm c hc hle i hold
        · exact hsnapshot ▸ h.lists_inoSnapshot hwindowed hm hc hphase hwork hold

theorem keeps_of_reachable
    (h : (watched params).ReachableUnder (fun w ↦ StableNames exact params w.state) w) : w.Keeps := by
  induction h with
  | init hw =>
    obtain rfl := hw
    exact ⟨fun _ hwindow ↦ by simp [inWindow, create] at hwindow, fun _ c hc ↦ by simp [create] at hc⟩
  | step hreach hC hst ih => exact ih.step (reachable_state hreach) hC hst

/-- The root that a checkpoint writes to the superblock is a consistent tree: every entry
names one of its inodes, of the same kind, and whatever had a name all through the
checkpoint is in one of its directories. -/
theorem published_tree_consistent {c : Checkpoint} {slot : SuperblockSlot}
    (h : (watched params).ReachableUnder (fun w ↦ StableNames false params w.state) w)
    (hc : w.state.checkpoint = some c) (hphase : c.phase = .superblock)
    (hst : w.step params .checkpointStep = some w') (hslot : w'.state.slot = some slot) :
    (∀ d ∈ slot.root.inoMap, ∀ dir, InodeObject.recorded d.2 = some dir → ∀ e ∈ dir,
      ∃ inode, (e.ino, inode) ∈ slot.root.inoMap ∧ inode.kind = e.kind) ∧
    ∀ ino ∈ w'.linked, ∃ d ∈ slot.root.inoMap, ∃ dir, InodeObject.recorded d.2 = some dir ∧
      ∃ e ∈ dir, e.ino = ino := by
  have hreach := reachable_state h
  have htracks := tracks_of_reachable (hreach.mono fun _ _ hC ↦ hC.1)
  obtain ⟨hpool, hlinked⟩ := step_spec hst
  obtain ⟨hm, hpool⟩ := step_mounted hpool (by simp)
  have hnext : w'.state = w.state.checkpointSuperblock c := by
    simpa [State.mountedStep, State.checkpointStep, hc, hphase] using hpool.symm
  obtain rfl : ⟨c.generation, c.root, c.rootLocation⟩ = slot := by
    simpa [hnext, checkpointSuperblock, setCheckpoint] using hslot
  have hroot : c.root.inoMap = c.inoSnapshot :=
    (htracks.checkpoint hm c hc).root (by simp [hphase])
  have hrank : Phase.inodes.rank ≤ c.phase.rank := by simp [hphase]
  have hnodup := ((htracks.checkpoint hm c hc).snapshot hrank).nodup
  have htree := (windowed_of_reachable hreach).snapshot hm c hc hrank
  dsimp only
  rw [hroot]
  refine ⟨fun _ hd _ hdir e he ↦ ?_, fun ino hino ↦ ?_⟩
  · have hdirs := (RecoveredTree.loaded_of_mem hnodup hd).2.trans hdir
    obtain ⟨x, hx, hkind⟩ := htree.names_of_mem hdirs he
    exact ⟨x, (RecoveredTree.lookup_loaded hnodup).1 hx, hkind⟩
  · obtain ⟨_, hbegin | hold⟩ := hlinked ino hino
    · simp at hbegin
    · exact (keeps_of_reachable h).snapshot hm c hc hrank ino hold

/-- A checkpoint up to its superblock, with a file created between the copies of the
directories and the snapshot. -/
def createInWindowRun : List Action :=
  .createEntry rootDirIno "a" .file "" :: .beginCheckpoint :: List.replicate 6 .checkpointStep ++
    [.createEntry rootDirIno "b" .file "", .beginCapture 1, .beginCapture 2, .finishCapture 2] ++
    List.replicate 8 .checkpointStep

theorem published_tree_consistent_createInWindowRun : ∃ w w' slot, (watched (smallPool 1)).runUnder
        (fun w ↦ StableNames false (smallPool 1) w.state) ⟨.create, []⟩ createInWindowRun = some w ∧
      w.step (smallPool 1) .checkpointStep = some w' ∧ w'.state.slot = some slot ∧
      w'.linked = [2] ∧ slot.root.inoMap.map (·.1) = [1, 2, 3] ∧
      (∀ d ∈ slot.root.inoMap, ∀ dir, InodeObject.recorded d.2 = some dir → ∀ e ∈ dir,
        ∃ inode, (e.ino, inode) ∈ slot.root.inoMap ∧ inode.kind = e.kind) ∧
      ∀ ino ∈ w'.linked, ∃ d ∈ slot.root.inoMap, ∃ dir, InodeObject.recorded d.2 = some dir ∧
        ∃ e ∈ dir, e.ino = ino := by
  obtain ⟨w, hw, ⟨c, hc, hphase⟩, w', hw', hlinked, slot, hslot, hinos⟩ : ∃ w, (watched (smallPool 1)).runUnder
      (fun w ↦ StableNames false (smallPool 1) w.state) ⟨.create, []⟩ createInWindowRun = some w ∧
      (∃ c ∈ w.state.checkpoint, c.phase = .superblock) ∧ ∃ w' ∈ w.step (smallPool 1) .checkpointStep,
        w'.linked = [2] ∧ ∃ slot ∈ w'.state.slot, slot.root.inoMap.map (·.1) = [1, 2, 3] :=
    Machine.exists_run (by decide +kernel)
  exact ⟨w, w', slot, hw, hw', hslot, hlinked, hinos, published_tree_consistent (.of_run rfl hw) hc hphase hw' hslot⟩

/-- A file moves out of a directory of the drained set, before that directory is copied, and
into a clean one: it has a name all the time, and the published tree has none for it. -/
theorem renamed_file_missing_from_published_tree :
    ∃ w w' slot, (watched (smallPool 1)).Reachable w ∧
      w.state.checkpoint.map (·.phase) = some .superblock ∧
      w.step (smallPool 1) .checkpointStep = some w' ∧ w'.state.slot = some slot ∧
      3 ∈ w'.linked ∧ ∀ d ∈ slot.root.inoMap, ∀ dir, InodeObject.recorded d.2 = some dir →
        ∀ e ∈ dir, e.ino ≠ 3 := by
  obtain ⟨w, w', hw, hw', hphase, hlinked, slot, hslot, hnone⟩ : ∃ w w', (watched (smallPool 1)).Reachable w ∧
      w.step (smallPool 1) .checkpointStep = some w' ∧ w.state.checkpoint.map (·.phase) = some .superblock ∧
      3 ∈ w'.linked ∧ ∃ slot ∈ w'.state.slot, ∀ d ∈ slot.root.inoMap, ∀ dir ∈ InodeObject.recorded d.2,
        ∀ e ∈ dir, e.ino ≠ 3 :=
    Machine.exists_step_of_run rfl (.createEntry rootDirIno "d" .directory "" ::
      .createEntry rootDirIno "a" .file "" ::
      checkpointRun 1 [.beginCapture 1, .beginCapture 2, .beginCapture 3, .finishCapture 3] ++
      (.createEntry rootDirIno "x" .file "" :: .beginCheckpoint :: List.replicate 5 .checkpointStep) ++
      [.rename rootDirIno "a" 2 "a" false, .checkpointStep, .beginCapture 1, .beginCapture 4,
        .finishCapture 4] ++ List.replicate 8 .checkpointStep) (by decide +kernel)
  exact ⟨w, w', slot, hw, hphase, hw', hslot, hlinked, hnone⟩

end Watched

end Lchfs.Store
