import Lchfs.Recovery.Captured

/-!
# Names while a checkpoint runs

Between the drain of the dirty set and the snapshot of the inodes, a checkpoint publishes
directories of one instant with inodes of another. As long as no name is removed in that
window, every published directory misses at most entries that were added in it, and the
published tree is consistent. If no name is added either, the published link counts are
the numbers of published entries, and so are those that a mount recovers.
-/

namespace Lchfs.Store

open Lchfs.Format Lchfs.Library
open List Option
open Function Checkpoint Namespace

variable {exact : Bool} {dirs : Ino → Option DirectoryObject}

/-- The call removes a name or, with `exact`, adds one. -/
def Action.changesNames (exact : Bool) : Action → Bool
  | .unlink .. => true
  | .rmdir .. => true
  | .rename .. => true
  | .createEntry .. => exact
  | .link .. => exact
  | _ => false

/-- A copy of a directory: the same entries or, without `exact`, some of them. -/
def Covers (exact : Bool) (copy dir : DirectoryObject) : Prop :=
  if exact then copy = dir else copy.Subperm dir

theorem Covers.refl (exact : Bool) (dir : DirectoryObject) : Covers exact dir dir := by
  unfold Covers
  split_ifs
  · rfl
  · exact .refl dir

theorem Covers.trans {a b c : DirectoryObject} (hab : Covers exact a b)
    (hbc : Covers exact b c) : Covers exact a c := by
  unfold Covers at *
  split_ifs at *
  · exact hab.trans hbc
  · exact hab.trans hbc

theorem Covers.subset {copy dir : DirectoryObject} (h : Covers exact copy dir) : copy ⊆ dir := by
  unfold Covers at h
  split_ifs at h
  · exact h ▸ List.Subset.refl dir
  · exact h.subset

/-- Copies of the directories are covered by the link counts, and exact copies exactly. -/
theorem Namespace.Consistent.copies {inodes : Table Ino InodeObject}
    {copies : Ino → Option DirectoryObject} (h : Consistent exact [] inodes dirs)
    (hsome : ∀ d dir, dirs d = some dir → ∃ copy, copies d = some copy ∧ Covers exact copy dir)
    (hnone : ∀ d, dirs d = none → copies d = none) : Consistent exact [] inodes copies := by
  cases exact with
  | false => exact h.restrict (by simpa [Covers] using hsome) hnone
  | true =>
    have heq : copies = dirs := by
      funext d
      cases hd : dirs d with
      | none => exact hnone d hd
      | some dir => simpa [Covers] using hsome d dir hd
    exact heq ▸ h

/-- The tree of a map is consistent. -/
def TreeConsistent (exact : Bool) (m : InoMap) : Prop :=
  Namespace.Consistent exact [] (m.foldl RecoveredTree.load .empty).inodes
    (m.foldl RecoveredTree.load .empty).dirs

namespace State

variable {params : PoolParams} {exact : Bool} {s t : State} {d ino : Ino}
variable {dir : DirectoryObject} {a : Action} {parent : Ino}

/-- A checkpoint is between its drain and its snapshot. -/
def inWindow (s : State) : Bool := s.checkpoint.any (·.inWindow)

/-- No name is removed, nor with `exact` added, in the window of a checkpoint. -/
def StableNames (exact : Bool) (params : PoolParams) (s : State) (a : Action) : Prop :=
  RevisesRoot params s a ∧ (s.inWindow = true → a.changesNames exact = false)

instance (s : State) (a : Action) : Decidable (StableNames exact params s a) := by
  unfold StableNames
  infer_instance

/-- The directories go on from one state to the next, each planned as before or as it is. -/
structure Advances (exact : Bool) (s t : State) : Prop where
  old : ∀ d dir, s.ns.dirs d = some dir → ∃ dir', t.ns.dirs d = some dir' ∧ Covers exact dir dir' ∧
    (t.planned d = s.planned d ∨ t.planned d = some dir')
  new : ∀ d dir, t.ns.dirs d = some dir → s.ns.dirs d = none → t.planned d = some dir

theorem Advances.of_dirs (hdirs : t.ns.dirs = s.ns.dirs)
    (hplanned : ∀ d dir, s.ns.dirs d = some dir →
      t.planned d = s.planned d ∨ t.planned d = some dir) : s.Advances exact t := by
  refine ⟨fun d dir hd ↦ ⟨dir, hdirs ▸ hd, .refl exact dir, hplanned d dir hd⟩, fun d _ hd hnone ↦ ?_⟩
  simp [hdirs, hnone] at hd

/-- Adding an entry to one directory. -/
theorem Advances.of_addEntry {e : DirEntry} (hparent : dirs parent = some dir)
    (hdirs : t.ns.dirs = update dirs parent (some (sortEntries (dir ++ [e]))))
    (hold : ∀ d dir, s.ns.dirs d = some dir → dirs d = some dir)
    (hplanned : ∀ d dir dir', s.ns.dirs d = some dir → t.ns.dirs d = some dir' →
      t.planned d = s.planned d ∨ t.planned d = some dir')
    (hnew : ∀ d dir, t.ns.dirs d = some dir → s.ns.dirs d = none → t.planned d = some dir) :
    s.Advances false t := by
  refine ⟨fun d old hd ↦ ?_, hnew⟩
  by_cases heq : d = parent
  · subst heq
    obtain rfl : old = dir := by simpa [hparent] using (hold d old hd).symm
    have hd' : t.ns.dirs d = some (sortEntries (old ++ [e])) := by simp [hdirs]
    refine ⟨_, hd', ?_, hplanned d old _ hd hd'⟩
    have hsub : old.Subperm (old ++ [e]) := (sublist_append_left old [e]).subperm
    simpa [Covers] using hsub.trans (perm_sortEntries _).symm.subperm
  · have hd' : t.ns.dirs d = some old := by simp [hdirs, heq, hold d old hd]
    exact ⟨old, hd', .refl false old, hplanned d old old hd hd'⟩

/-- What is planned for a directory whose content stays. -/
theorem planned_of_recorded (hcheckpoint : t.checkpoint = s.checkpoint)
    (hrecorded : recorded t.ns.inodes d = recorded s.ns.inodes d) (hdir : t.ns.dirs d = some dir) :
    t.planned d = s.planned d ∨ t.planned d = some dir := by
  simp only [planned, hcheckpoint, hrecorded]
  cases s.checkpoint with
  | none => exact .inl rfl
  | some =>
    simp only [bind_some, copyOf]
    split
    · split_ifs
      · exact .inr (by simp [hdir])
      · exact .inl rfl
    · exact .inl rfl
    · exact .inl rfl

theorem Advances.link {ns : Namespace} {newParent : Ino} {newName : String}
    (hok : s.ns.link ino newParent newName = .ok ns) : s.Advances false { s with ns := ns } := by
  obtain ⟨inode, hinode, _, hparent, _, rfl⟩ := link_ok hok
  obtain ⟨dir, hdir⟩ := isSome_iff_exists.1 hparent
  have hrecorded : ∀ d, recorded (s.ns.inodes.insert ino { inode with nlink := inode.nlink + 1 }) d =
      recorded s.ns.inodes d := by
    intro d
    simp only [recorded, Table.lookup_insert_eq]
    split_ifs with heq
    · rw [heq, hinode]
      rfl
    · rfl
  have hdirs : (addEntry newParent ⟨newName, ino, inode.kind⟩ s.ns).dirs =
      update s.ns.dirs newParent
        (some (sortEntries (dir ++ [⟨newName, ino, inode.kind⟩]))) := by
    simp [addEntry, hdir]
  refine .of_addEntry hdir hdirs (fun _ _ hd ↦ hd)
    (fun d _ dir' _ hd' ↦ planned_of_recorded rfl (hrecorded d) hd') fun d dir' hd' hnone ↦ ?_
  have hd' : (addEntry newParent ⟨newName, ino, inode.kind⟩ s.ns).dirs d = some dir' := hd'
  by_cases heq : d = newParent
  · simp [heq, hdir] at hnone
  · simp [hdirs, heq, hnone] at hd'

theorem Advances.createEntry {name : String} {kind : InodeKind} {target : String}
    (hcons : Namespace.Consistent exact [] s.ns.inodes s.ns.dirs) (hnum : s.Numbered params)
    (hm : s.mounted = true) (hst : s.createEntry parent name kind target = some t) :
    s.Advances false t := by
  obtain ⟨_, _, hcreate, rfl⟩ := createEntry_spec hst
  obtain ⟨hparent, _, rfl, rfl⟩ := Namespace.createEntry_eq hcreate
  obtain ⟨dir, hdir⟩ := isSome_iff_exists.1 hparent
  have hfresh : s.ns.inodes.lookup s.ns.nextIno = none := by
    rw [← not_isSome_iff_eq_none]
    exact fun hsome ↦ Nat.lt_irrefl _ (hnum.inUse hm _ (.inl hsome))
  have hnone : s.ns.dirs s.ns.nextIno = none := by
    rw [← not_isSome_iff_eq_none, hcons.directory]
    simp [hfresh]
  have hne : parent ≠ s.ns.nextIno := by
    rintro rfl
    simp [hnone] at hdir
  let dirs := if kind = InodeKind.directory then update s.ns.dirs s.ns.nextIno (some []) else s.ns.dirs
  have hdirsOf : ∀ d, d ≠ s.ns.nextIno → dirs d = s.ns.dirs d := by
    intro d hd
    simp only [dirs]
    split_ifs <;> simp [hd]
  have hdirs : update dirs parent (some (Namespace.sortEntries
      ((dirs parent).getD [] ++ [⟨name, s.ns.nextIno, kind⟩]))) =
      update dirs parent
        (some (Namespace.sortEntries (dir ++ [⟨name, s.ns.nextIno, kind⟩]))) := by
    rw [hdirsOf parent hne, hdir, getD_some]
  have hrecorded : ∀ d, d ≠ s.ns.nextIno →
      recorded (s.ns.inodes.insert s.ns.nextIno (Namespace.newInode kind target)) d =
        recorded s.ns.inodes d := by
    intro d hd
    simp [recorded, hd]
  have hold : ∀ d old, s.ns.dirs d = some old → d ≠ s.ns.nextIno := by
    rintro d _ hd rfl
    simp [hnone] at hd
  refine .of_addEntry ((hdirsOf parent hne).trans hdir) hdirs
    (fun d old hd ↦ (hdirsOf d (hold d old hd)).trans hd)
    (fun d old dir' hd hd' ↦ planned_of_recorded rfl (hrecorded d (hold d old hd)) hd')
    fun d dir' hd' hd ↦ ?_
  -- only the new inode can be a directory that was none before
  have hd' : update dirs parent (some (Namespace.sortEntries
      ((dirs parent).getD [] ++ [⟨name, s.ns.nextIno, kind⟩]))) d = some dir' := hd'
  have hdparent : d ≠ parent := by
    rintro rfl
    simp [hdir] at hd
  rw [update_of_ne hdparent] at hd'
  obtain rfl : d = s.ns.nextIno := by
    by_contra hdne
    rw [hdirsOf d hdne] at hd'
    simp [hd] at hd'
  obtain ⟨hkind, rfl⟩ : kind = .directory ∧ dir' = [] := by
    simp only [dirs] at hd'
    split_ifs at hd' with hkind
    · exact ⟨hkind, by simpa using hd'.symm⟩
    · simp [hnone] at hd'
  subst hkind
  have hnew : recorded (s.ns.inodes.insert s.ns.nextIno (Namespace.newInode .directory target))
      s.ns.nextIno = some [] := by
    simp [recorded, Namespace.newInode, InodeObject.recorded]
  simp only [planned, Namespace.markDirty, Namespace.addEntry, hnew]
  cases hc : s.checkpoint with
  | none => simp
  | some c =>
    simp only [bind_some, Checkpoint.copyOf]
    split
    · split_ifs
      · simp [update_of_ne hdparent]
      · rfl
    · have hfind : c.work.find? (·.ino = s.ns.nextIno) = none := by
        rw [find?_eq_none]
        intro w hw
        simpa using Nat.ne_of_lt (hnum.work hm c hc w hw)
      simp [hfind]
    · rfl

theorem Advances.finishCapture (htracks : s.Tracks params) (hm : s.mounted = true)
    (hst : s.finishCapture params ino = some t) : s.Advances exact t := by
  obtain ⟨c, refs, hc, hop, rfl⟩ := finishCapture_spec hst
  have hlocal := Local.capture params ino s (finalizedChunks (s.openFiles ino) refs)
  have hplanned := hlocal.planned ((htracks.ns hm).ops ino (by simp [hop]))
  have hdirs := hlocal.dirs
  have hcheckpoint := hlocal.checkpoint.trans hc
  revert hplanned hdirs hcheckpoint
  generalize ((s.captureFile params ino (finalizedChunks (s.openFiles ino) refs)).dropSession ino
    (finalizedChunks (s.openFiles ino) refs)).setOp ino none = u
  intro hplanned hdirs hcheckpoint
  refine .of_dirs hdirs fun d _ _ ↦ .inl ?_
  rw [← hplanned d]
  simp [planned, setCheckpoint, hcheckpoint, copyOf]

/-- A step that removes no name lets the directories go on. -/
theorem Advances.mountedStep (htracks : s.Tracks params) (hnum : s.Numbered params)
    (hcons : Consistent exact [] s.ns.inodes s.ns.dirs) (hm : s.mounted = true)
    (hst : s.mountedStep params a = some t) (hcrash : a ≠ .crash)
    (ha : a.changesNames exact = false) : s.Advances exact t := by
  have hsame : ∀ {u : State}, u.ns = s.ns → u.checkpoint = s.checkpoint → s.Advances exact u :=
    fun hns hcheckpoint ↦ .of_dirs (by rw [hns]) fun d _ _ ↦
      .inl (planned_congr hcheckpoint (by rw [hns]) (by rw [hns]))
  have hdirectory : ∀ {d : Ino} {dir : DirectoryObject}, s.ns.dirs d = some dir →
      ∃ inode, s.ns.inodes.lookup d = some inode ∧ inode.kind = .directory :=
    fun hd ↦ (hcons.directory _).1 (by simp [hd])
  cases mountedStep_effect hst hcrash with
  | names hcall =>
    cases hcall with
    | link hns =>
      obtain rfl : exact = false := ha
      exact .link hns
    | unlink | rmdir | rename => simp [Action.changesNames] at ha
  | create hcreate =>
    obtain rfl : exact = false := ha
    exact .createEntry hcons hnum hm hcreate
  | file hfile hst =>
    exact .of_dirs (hfile.isLocal hst).dirs fun d _ _ ↦
      .inl ((hfile.isLocal hst).planned (fun _ ↦ (htracks.ns hm).isFile hfile hst) d)
  | deltaCommit hcommit =>
    obtain ⟨_, _, _, _, _, rfl⟩ := deltaCommit_spec hcommit
    exact hsame rfl rfl
  | upkeep hupkeep => exact hsame hupkeep.ns hupkeep.checkpoint
  | beginCheckpoint hbegin =>
    obtain ⟨hnone, c, rfl, hphase, _⟩ := beginCheckpoint_spec hbegin
    refine .of_dirs rfl fun d _ _ ↦ .inl ?_
    simp [planned, setCheckpoint, hnone, copyOf, hphase]
  | checkpointStep hstep =>
    refine .of_dirs (checkpointStep_frame hstep).dirs fun d dir hd ↦ ?_
    obtain ⟨_, hinode, hkind⟩ := hdirectory hd
    rcases checkpointStep_planned hstep hinode hkind hd with hplanned | ⟨hplanned, _⟩
    · exact .inr hplanned
    · exact .inl hplanned
  | beginCapture hcapture =>
    refine .of_dirs ?_ fun d _ hd ↦ ?_
    · obtain ⟨c, w, _, _, _, _, _, ⟨_, rfl⟩ | ⟨_, rfl⟩ | ⟨_, _, rfl⟩⟩ := beginCapture_spec hcapture <;> rfl
    · obtain ⟨inode, hinode, hkind⟩ := hdirectory hd
      exact .inl (beginCapture_planned hcapture (htracks.checkpoint hm) hinode hkind)
  | finishCapture hcapture => exact .finishCapture htracks hm hcapture

/-- Every other step leaves the slot, the phase and the snapshot alone. -/
theorem mountedStep_phase (hst : s.mountedStep params a = some t) (hcrash : a ≠ .crash)
    (hstep : a ≠ .checkpointStep) : t.slot = s.slot ∧ ∀ c', t.checkpoint = some c' → c'.phase = .barrier 0 ∨
      ∃ c, s.checkpoint = some c ∧ c'.phase = c.phase ∧ c'.inoSnapshot = c.inoSnapshot := by
  have hsame : ∀ {u : State}, u.slot = s.slot → u.checkpoint = s.checkpoint →
      u.slot = s.slot ∧ ∀ c', u.checkpoint = some c' → c'.phase = .barrier 0 ∨
        ∃ c, s.checkpoint = some c ∧ c'.phase = c.phase ∧ c'.inoSnapshot = c.inoSnapshot :=
    fun hslot hcheckpoint ↦ ⟨hslot, fun c' hc' ↦ .inr ⟨c', hcheckpoint ▸ hc', rfl, rfl⟩⟩
  cases mountedStep_effect hst hcrash with
  | names => exact hsame rfl rfl
  | create hcreate =>
    obtain ⟨_, _, _, rfl⟩ := createEntry_spec hcreate
    exact hsame rfl rfl
  | file hfile hst => exact hsame (hfile.isLocal hst).slot (hfile.isLocal hst).checkpoint
  | deltaCommit hcommit =>
    obtain ⟨_, _, _, _, _, rfl⟩ := deltaCommit_spec hcommit
    exact hsame rfl rfl
  | upkeep hupkeep => exact hsame hupkeep.slot hupkeep.checkpoint
  | beginCheckpoint hbegin =>
    obtain ⟨_, c, rfl, hphase, _⟩ := beginCheckpoint_spec hbegin
    exact ⟨rfl, fun c' hc' ↦ .inl (some.inj hc' ▸ hphase)⟩
  | checkpointStep => exact absurd rfl hstep
  | beginCapture hcapture =>
    obtain ⟨c, w, hc, _, _, _, _, ⟨_, rfl⟩ | ⟨_, rfl⟩ | ⟨_, _, rfl⟩⟩ := beginCapture_spec hcapture <;>
      exact ⟨rfl, fun c' hc' ↦ .inr ⟨c, hc, some.inj hc' ▸ ⟨rfl, rfl⟩⟩⟩
  | finishCapture hcapture =>
    obtain ⟨c, _, hc, _, rfl⟩ := finishCapture_spec hcapture
    exact ⟨(Local.capture params _ s _).slot, fun _ hc' ↦
      .inr ⟨c, hc, some.inj hc' ▸ ⟨rfl, rfl⟩⟩⟩

/-- The snapshot of a checkpoint is taken once, when nothing is left to capture. -/
theorem mountedStep_snapshot {c' : Checkpoint} (hst : s.mountedStep params a = some t) (hcrash : a ≠ .crash)
    (hc' : t.checkpoint = some c') (hrank : Phase.inodes.rank ≤ c'.phase.rank) : ∃ c, s.checkpoint = some c ∧
      (Phase.inodes.rank ≤ c.phase.rank ∧ c'.inoSnapshot = c.inoSnapshot ∨
        c.phase = .capture ∧ c.work = [] ∧ c'.inoSnapshot = s.inoSnapshot) := by
  by_cases hstep : a = .checkpointStep
  · subst hstep
    obtain ⟨c, hc, heffect⟩ := checkpointStep_effect hst
    refine ⟨c, hc, ?_⟩
    cases heffect with
    | pass h =>
      cases hc'.symm.trans h.checkpoint
      exact .inl ⟨h.phase.elim (fun hearly ↦ absurd (hrank.trans hearly.2) (by simp)) And.left, h.inoSnapshot⟩
    | superblock => cases hc'
    | drain | work =>
      cases hc'
      simp at hrank
    | snapshot hphase hwork =>
      cases hc'
      exact .inr ⟨hphase, hwork, rfl⟩
  · rcases (mountedStep_phase hst hcrash hstep).2 c' hc' with hphase | ⟨c, hc, hphase, hsnapshot⟩
    · simp [hphase] at hrank
    · exact ⟨c, hc, .inl ⟨hphase ▸ hrank, hsnapshot⟩⟩

theorem Local.kind_nlink (hst : s.Local ino t) (i : Ino) :
    (t.ns.inodes.lookup i).map (fun x ↦ (x.kind, x.nlink)) =
      (s.ns.inodes.lookup i).map fun x ↦ (x.kind, x.nlink) := by
  by_cases heq : i = ino
  · subst heq
    have hkind := hst.kind
    have hnlink := hst.nlink
    cases hs : s.ns.inodes.lookup i <;> cases ht : t.ns.inodes.lookup i <;> simp_all
  · rw [hst.inode i heq]

/-- Every step of a mounted pool keeps the namespace consistent. -/
theorem consistent_mountedStep (hnum : s.Numbered params)
    (h : Consistent exact [] s.ns.inodes s.ns.dirs) (hm : s.mounted = true)
    (hst : s.mountedStep params a = some t) (hcrash : a ≠ .crash) :
    Consistent exact [] t.ns.inodes t.ns.dirs := by
  cases mountedStep_effect hst hcrash with
  | names hcall =>
    cases hcall with
    | unlink hns => exact h.unlink hns
    | rmdir hns => exact h.rmdir hns
    | link hns => exact h.link hns
    | rename hns => exact h.rename hns
  | create hcreate =>
    obtain ⟨_, _, hns, rfl⟩ := createEntry_spec hcreate
    refine h.createEntry ?_ hns
    rw [← not_isSome_iff_eq_none]
    exact fun hsome ↦ Nat.lt_irrefl _ (hnum.inUse hm _ (.inl hsome))
  | file hfile hst => exact (hfile.isLocal hst).dirs ▸ h.congr (hfile.isLocal hst).kind_nlink
  | deltaCommit hcommit =>
    obtain ⟨_, _, _, _, _, rfl⟩ := deltaCommit_spec hcommit
    exact h
  | upkeep hupkeep =>
    rw [hupkeep.ns]
    exact h
  | beginCheckpoint hbegin =>
    obtain ⟨_, c, rfl, _⟩ := beginCheckpoint_spec hbegin
    exact h
  | checkpointStep hstep =>
    rw [(checkpointStep_frame hstep).inodes, (checkpointStep_frame hstep).dirs]
    exact h
  | beginCapture hcapture =>
    obtain ⟨c, w, _, _, _, _, _, ⟨_, rfl⟩ | ⟨_, rfl⟩ | ⟨_, _, rfl⟩⟩ := beginCapture_spec hcapture
    · refine h.congr fun i ↦ ?_
      simp only [captureDirectory, setCheckpoint, setContent, Table.lookup_modify]
      split_ifs <;> simp [comp_def]
    · exact h
    · exact h
  | @finishCapture _ ino hcapture =>
    obtain ⟨c, refs, _, _, rfl⟩ := finishCapture_spec hcapture
    have hl := Local.capture params ino s (finalizedChunks (s.openFiles ino) refs)
    exact hl.dirs ▸ h.congr hl.kind_nlink

/-- The invariant of runs that meet `StableNames`. -/
structure Windowed (exact : Bool) (s : State) : Prop where
  ns : s.mounted = true → Namespace.Consistent exact [] s.ns.inodes s.ns.dirs
  window : s.mounted = true → s.inWindow = true → ∀ d dir, s.ns.dirs d = some dir →
    ∃ copy, s.planned d = some copy ∧ Covers exact copy dir
  snapshot : s.mounted = true → ∀ c, s.checkpoint = some c → Phase.inodes.rank ≤ c.phase.rank →
    TreeConsistent exact c.inoSnapshot
  slot : ∀ slot, s.slot = some slot → TreeConsistent exact slot.root.inoMap

/-- The drained set and the clean directories are planned as they are. -/
theorem planned_of_drain (htracks : s.Tracks params)
    (hcons : Consistent exact [] s.ns.inodes s.ns.dirs) (hm : s.mounted = true)
    (hst : s.checkpointStep params = some t) (hdirty : t.ns.dirtyInodes = [])
    (hd : s.ns.dirs d = some dir) : t.planned d = some dir := by
  obtain ⟨inode, hinode, hkind⟩ := (hcons.directory d).1 (by simp [hd])
  rcases checkpointStep_planned hst hinode hkind hd with hplanned | ⟨hplanned, hmem⟩
  · exact hplanned
  · rw [hplanned]
    refine (htracks.ns hm).clean d inode dir hinode hkind hd fun hmem' ↦ ?_
    simpa [hdirty] using hmem hmem'

/-- The window opens with the drain. -/
theorem window_opens (hst : s.mountedStep params a = some t) (hcrash : a ≠ .crash)
    (ht : t.inWindow = true) (hs : s.inWindow ≠ true) : s.checkpointStep params = some t ∧ t.ns.dirtyInodes = [] := by
  obtain ⟨c', hc', hwindow⟩ : ∃ c', t.checkpoint = some c' ∧ c'.inWindow = true := by
    simpa [inWindow, Option.any_eq_true] using ht
  by_cases hstep : a = .checkpointStep
  · subst hstep
    obtain ⟨c, hc, heffect⟩ := checkpointStep_effect hst
    cases heffect with
    | pass h =>
      cases hc'.symm.trans h.checkpoint
      simp [h.inWindow.2] at hwindow
    | drain => exact ⟨hst, rfl⟩
    | work hphase => exact absurd (by simp [inWindow, hc, Checkpoint.inWindow, hphase]) hs
    | snapshot =>
      cases hc'
      simp [Checkpoint.inWindow] at hwindow
    | superblock => cases hc'
  · rcases (mountedStep_phase hst hcrash hstep).2 c' hc' with hphase | ⟨c, hc, hphase, _⟩
    · simp [Checkpoint.inWindow, hphase] at hwindow
    · refine absurd ?_ hs
      simpa [inWindow, hc, Checkpoint.inWindow, hphase] using hwindow

section

variable (htracks : s.Tracks params)

include htracks

/-- In the window every directory is planned with some of its entries. -/
theorem Windowed.window_mountedStep
    (hnum : s.Numbered params) (h : s.Windowed exact) (hm : s.mounted = true)
    (hst : s.mountedStep params a = some t) (hcrash : a ≠ .crash)
    (ha : s.inWindow = true → a.changesNames exact = false) (ht : t.inWindow = true)
    (hd : t.ns.dirs d = some dir) : ∃ copy, t.planned d = some copy ∧ Covers exact copy dir := by
  by_cases hs : s.inWindow = true
  · have hadvances := Advances.mountedStep htracks hnum (h.ns hm) hm hst hcrash (ha hs)
    cases hsd : s.ns.dirs d with
    | none => exact ⟨dir, hadvances.new d dir hd hsd, .refl exact dir⟩
    | some old =>
      obtain ⟨dir', hd', hcovers, hplanned⟩ := hadvances.old d old hsd
      obtain rfl : dir' = dir := by simpa [hd] using hd'.symm
      rcases hplanned with hplanned | hplanned
      · obtain ⟨copy, hcopy, hcover⟩ := h.window hm hs d old hsd
        exact ⟨copy, hplanned.trans hcopy, hcover.trans hcovers⟩
      · exact ⟨dir', hplanned, .refl exact dir'⟩
  · obtain ⟨hstep, hdirty⟩ := window_opens hst hcrash ht hs
    rw [(checkpointStep_frame hstep).dirs] at hd
    exact ⟨dir, planned_of_drain htracks (h.ns hm) hm hstep hdirty hd, .refl exact dir⟩

/-- The snapshot at the end of the window is a consistent tree. -/
theorem Windowed.treeConsistent_inoSnapshot {c : Checkpoint}
    (h : s.Windowed exact) (hm : s.mounted = true) (hc : s.checkpoint = some c)
    (hphase : c.phase = .capture) (hwork : c.work = []) : TreeConsistent exact s.inoSnapshot := by
  have hnodup := (htracks.ns hm).encodesDirectories.nodup
  have hlookup : ∀ i, (s.inoSnapshot.foldl RecoveredTree.load .empty).inodes.lookup i =
      s.ns.inodes.lookup i := by
    intro i
    ext x
    rw [RecoveredTree.lookup_loaded hnodup, mem_inoSnapshot]
  have hcopies : (s.inoSnapshot.foldl RecoveredTree.load .empty).dirs = recorded s.ns.inodes := by
    funext d
    rw [RecoveredTree.dirs_loaded hnodup, recorded, recorded, hlookup]
  have hplanned : ∀ d, s.planned d = recorded s.ns.inodes d := by
    intro d
    simp [planned, hc, copyOf, hphase, hwork]
  have hwindow : s.inWindow = true := by simp [inWindow, hc, Checkpoint.inWindow, hphase]
  unfold TreeConsistent
  rw [hcopies]
  refine ((h.ns hm).copies (fun d dir hd ↦ ?_) fun d hd ↦ ?_).congr fun i ↦ by rw [hlookup]
  · obtain ⟨copy, hcopy, hcovers⟩ := h.window hm hwindow d dir hd
    exact ⟨copy, (hplanned d).symm.trans hcopy, hcovers⟩
  · refine recorded_eq_none fun inode hinode hkind ↦ ?_
    have hsome := ((h.ns hm).directory d).2 ⟨inode, hinode, hkind⟩
    simp [hd] at hsome

theorem Windowed.mountedStep (hnum : s.Numbered params)
    (h : s.Windowed exact) (hm : s.mounted = true) (hst : s.mountedStep params a = some t)
    (hcrash : a ≠ .crash) (ha : s.inWindow = true → a.changesNames exact = false) : t.Windowed exact := by
  refine ⟨fun _ ↦ consistent_mountedStep hnum (h.ns hm) hm hst hcrash, fun _ ht d _ hd ↦
    h.window_mountedStep htracks hnum hm hst hcrash ha ht hd, fun _ _ hc' hrank ↦ ?_,
    fun slot hslot ↦ ?_⟩
  · obtain ⟨c, hc, ⟨hle, hsnapshot⟩ | ⟨hphase, hwork, hsnapshot⟩⟩ := mountedStep_snapshot hst hcrash hc' hrank
    · exact hsnapshot ▸ h.snapshot hm c hc hle
    · exact hsnapshot ▸ h.treeConsistent_inoSnapshot htracks hm hc hphase hwork
  · by_cases hstep : a = .checkpointStep
    · subst hstep
      obtain ⟨c, hc, heffect⟩ := checkpointStep_effect hst
      cases heffect with
      | superblock hphase =>
        cases hslot
        have hroot : c.root.inoMap = c.inoSnapshot :=
          (htracks.checkpoint hm c hc).root (by simp [hphase])
        exact hroot ▸ h.snapshot hm c hc (by simp [hphase])
      | pass hpass => exact h.slot slot (hpass.slot ▸ hslot)
      | drain | work | snapshot => exact h.slot slot hslot
    · exact h.slot slot ((mountedStep_phase hst hcrash hstep).1 ▸ hslot)

theorem Opens.windowed {slot : SuperblockSlot} (h : s.Windowed exact)
    (hm : s.mounted = false) (hopens : s.Opens params t slot) : t.Windowed exact := by
  obtain ⟨hcheckpoint, hslot, -⟩ := hopens.frame
  refine ⟨fun _ ↦ ?_, fun _ hwindow ↦ by simp [inWindow, hcheckpoint] at hwindow,
    fun _ c hc ↦ by simp [hcheckpoint] at hc, hslot ▸ h.slot⟩
  rw [hopens.dirs]
  exact (h.slot slot hopens.published).congr (hopens.kind_nlink htracks hm)

end

theorem windowed_create : State.create.Windowed exact where
  ns _ := consistent_create exact
  window _ h := by simp [inWindow, create] at h
  snapshot _ c h := by simp [create] at h
  slot slot h := by simp [create] at h

theorem Windowed.step (hloc : s.Located) (htracks : s.Tracks params)
    (hnum : s.Numbered params) (h : s.Windowed exact) (hC : StableNames exact params s a)
    (hst : s.step params a = some t) : t.Windowed exact := by
  cases hloc.takes hst with
  | fails _ hfail =>
    obtain ⟨_, rfl, -⟩ := hfail
    exact { h with }
  | opens hm hopens => exact hopens.windowed htracks h hm
  | crash =>
    exact ⟨fun hm' ↦ by simp [crash] at hm', fun hm' ↦ by simp [crash] at hm',
      fun hm' ↦ by simp [crash] at hm', h.slot⟩
  | mounted hm ha hst => exact h.mountedStep htracks hnum hm hst ha hC.2

theorem windowed_of_reachable (h : (pool params).ReachableUnder (StableNames exact params) s) :
    s.Windowed exact :=
  h.invariant (fun _ hs ↦ hs ▸ windowed_create) fun _ _ _ hreach hs hC hst ↦
    hs.step (located_of_reachable hreach) (tracks_of_reachable (hreach.mono fun _ _ hC ↦ hC.1))
      (numbered_of_reachable (hreach.mono fun _ _ hC ↦ hC.1.countsReplayed)) hC hst

end State

end Lchfs.Store
