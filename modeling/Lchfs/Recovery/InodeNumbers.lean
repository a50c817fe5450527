import Lchfs.Recovery.Located

/-!
# Inode numbers

The allocator of a mounted pool stands above every inode number in use: those of the
inode table, of the working states and sessions, and of the entries the mount
replayed. Recovery takes the counter from the published root alone, so this holds as
long as no crash comes while the log holds an entry, above the root's watermark, of an
inode that the root's counter does not cover yet. A file that is created, synced and
lost its pool before the next checkpoint is such an entry.
-/

namespace Lchfs.Store

open Lchfs.Format Lchfs.Library
open List Option

namespace RecoveredTree

variable {t : RecoveredTree} {ino : Ino} {entries : List DeltaCommit}

/-- The inode is in the tree or has a working state. -/
def Has (t : RecoveredTree) (ino : Ino) : Prop :=
  (t.inodes.lookup ino).isSome ∨ (t.fileState ino).isSome

theorem Has.of_load {entry : Ino × InodeObject} (h : (t.load entry).Has ino) : ino = entry.1 ∨ t.Has ino := by
  rw [Has, lookup_load, fileState_load] at h
  split_ifs at h with heq
  · exact .inl heq
  · exact .inr h

theorem Has.of_replay {c : DeltaCommit} (h : (t.replay c).Has ino) : ino = c.ino ∨ t.Has ino := by
  by_cases heq : ino = c.ino
  · exact .inl heq
  · rw [Has, lookup_replay, if_neg heq, fileState_replay_ne heq] at h
    exact .inr h

theorem Has.of_foldl_load {entries : InoMap}
    (h : (entries.foldl load t).Has ino) : (∃ entry ∈ entries, ino = entry.1) ∨ t.Has ino := by
  induction entries generalizing t with
  | nil => exact .inr h
  | cons entry _ ih =>
    rcases ih h with ⟨e, he, rfl⟩ | h
    · exact .inl ⟨e, mem_cons_of_mem _ he, rfl⟩
    · exact h.of_load.imp_left fun heq ↦ ⟨entry, mem_cons_self, heq⟩

theorem Has.of_foldl_replay (h : (entries.foldl replay t).Has ino) :
    (∃ c ∈ entries, ino = c.ino) ∨ t.Has ino := by
  induction entries generalizing t with
  | nil => exact .inr h
  | cons c _ ih =>
    rcases ih h with ⟨e, he, rfl⟩ | h
    · exact .inl ⟨e, mem_cons_of_mem _ he, rfl⟩
    · exact h.of_replay.imp_left fun heq ↦ ⟨c, mem_cons_self, heq⟩

/-- Every inode of a recovered tree is the root's or a replayed entry's. -/
theorem Has.of_ofRoot {root : RootObject} (h : (ofRoot root entries).Has ino) :
    (∃ c ∈ entries, ino = c.ino) ∨ ∃ entry ∈ root.inoMap, ino = entry.1 := by
  refine h.of_foldl_replay.imp_right fun h ↦ h.of_foldl_load.resolve_right ?_
  simp [Has, empty]

end RecoveredTree

namespace State

variable {params : PoolParams} {s t : State}
variable {ino : Ino} {a : Action}

/-- The inode number belongs to an inode, to a working state or session, or to an entry
that the current mount replayed. -/
def InUse (s : State) (ino : Ino) : Prop :=
  (s.ns.inodes.lookup ino).isSome ∨ (s.fileState ino).isSome ∨ (s.openFiles ino).isSome ∨
    ∃ c ∈ s.ghost.replayed, c.ino = ino

/-- A crash finds every entry above the published watermarks covered by the published
root's inode counter. -/
def CountsReplayed (params : PoolParams) (s : State) : Action → Prop
  | .crash => ∀ slot ∈ s.slot, ∀ c ∈ s.disk.replayed params, c.ino < slot.root.nextInoCounter
  | _ => True

instance (s : State) (a : Action) : Decidable (CountsReplayed params s a) := by
  cases a <;> unfold CountsReplayed <;> infer_instance

structure Numbered (params : PoolParams) (s : State) : Prop where
  inUse : s.mounted = true → ∀ ino, s.InUse ino → ino < s.ns.nextIno
  ops : s.mounted = true → ∀ ino, (s.ops ino).isSome → ino < s.ns.nextIno
  work : s.mounted = true → ∀ c, s.checkpoint = some c → ∀ w ∈ c.work, w.ino < s.ns.nextIno
  disk : s.mounted = false → ∀ slot, s.slot = some slot → ∀ c ∈ s.disk.replayed params,
    c.ino < slot.root.nextInoCounter

section

variable (h : s.Numbered params) (hm : s.mounted = true)

include h hm

namespace Numbered

theorem of_local (hst : s.Local ino t) (hino : ino < s.ns.nextIno) : t.Numbered params := by
  refine ⟨fun _ i hi ↦ ?_, fun _ i hi ↦ ?_, fun _ c hc w hw ↦ ?_, fun hm' ↦ ?_⟩
  · rw [hst.nextIno]
    by_cases heq : i = ino
    · exact heq ▸ hino
    · refine h.inUse hm i ?_
      rwa [InUse, hst.inode i heq, hst.fileState i heq, hst.openFiles i heq, hst.replayed] at hi
  · rw [hst.nextIno]
    by_cases heq : i = ino
    · exact heq ▸ hino
    · exact h.ops hm i (hst.ops i heq ▸ hi)
  · rw [hst.nextIno]
    exact h.work hm c (hst.checkpoint ▸ hc) w hw
  · exact absurd (hm.symm.trans (hst.mounted.symm.trans hm')) (by simp)

/-- A step that keeps the allocator and adds no number. -/
theorem shrink (hmounted : t.mounted = s.mounted) (hnext : s.ns.nextIno ≤ t.ns.nextIno)
    (hinUse : ∀ ino, t.InUse ino → s.InUse ino ∨ ino < t.ns.nextIno)
    (hops : ∀ ino, (t.ops ino).isSome → (s.ops ino).isSome ∨ ino < t.ns.nextIno)
    (hwork : ∀ c, t.checkpoint = some c → ∀ w ∈ c.work, w.ino < t.ns.nextIno) :
    t.Numbered params := by
  refine ⟨fun _ ino hi ↦ ?_, fun _ ino hi ↦ ?_, fun _ ↦ hwork, fun hm' ↦ ?_⟩
  · exact (hinUse ino hi).elim (fun hi ↦ Nat.lt_of_lt_of_le (h.inUse hm ino hi) hnext) fun hi ↦ hi
  · exact (hops ino hi).elim (fun hi ↦ Nat.lt_of_lt_of_le (h.ops hm ino hi) hnext) fun hi ↦ hi
  · exact absurd (hm.symm.trans (hmounted.symm.trans hm')) (by simp)

theorem namespaceCall {ns : Namespace}
    (hns : s.ns.Edits ns) : { s with ns := ns }.Numbered params := by
  refine h.shrink hm rfl (Nat.le_of_eq hns.nextIno.symm) (fun _ hi ↦ .inl ?_) (fun _ hi ↦ .inl hi)
    fun c hc w hw ↦ ?_
  · exact hi.imp_left hns.isSome
  · exact Nat.lt_of_lt_of_le (h.work hm c hc w hw) (Nat.le_of_eq hns.nextIno.symm)

theorem createEntry {parent : Ino} {name : String} {kind : InodeKind} {target : String}
    (hst : s.createEntry parent name kind target = some t) : t.Numbered params := by
  obtain ⟨_, ns, hcreate, rfl⟩ := createEntry_spec hst
  obtain ⟨rfl, hnext, _, hlookup, _⟩ := Namespace.createEntry_ok hcreate
  have hle : s.ns.nextIno ≤ ns.nextIno := hnext ▸ Nat.le_succ _
  refine h.shrink hm rfl hle (fun i hi ↦ ?_) (fun _ hi ↦ .inl hi)
    fun c hc w hw ↦ Nat.lt_of_lt_of_le (h.work hm c hc w hw) hle
  by_cases heq : i = s.ns.nextIno
  · exact .inr (Nat.lt_of_le_of_lt (Nat.le_of_eq heq) (hnext ▸ Nat.lt_succ_self _))
  · left
    simpa [InUse, hlookup, heq] using hi

theorem checkpointStep (hst : s.checkpointStep params = some t) : t.Numbered params := by
  have hframe := checkpointStep_frame hst
  refine h.shrink hm hframe.mounted (Nat.le_of_eq hframe.nextIno.symm) (fun ino hi ↦ .inl ?_)
    (fun _ hi ↦ .inl (hframe.ops ▸ hi)) fun _ hc' w hw ↦ ?_
  · rwa [InUse, hframe.inodes, hframe.fileState, hframe.openFiles, hframe.replayed] at hi
  · rw [hframe.nextIno]
    rcases checkpointStep_work hst hc' hw with ⟨c, hc, hw⟩ | hsome
    · exact h.work hm c hc w hw
    · exact h.inUse hm w.ino (.inl hsome)

theorem beginCapture (hst : s.beginCapture ino = some t) : t.Numbered params := by
  obtain ⟨c, w, hc, -, -, hw, rfl, hcaptures⟩ := beginCapture_captures hst
  have hnext := hcaptures.ns.2.2
  refine h.shrink hm hcaptures.disk.1 hnext.ge (fun i hi ↦ .inl ?_) (fun i hi ↦ ?_) fun _ hc' w' hw' ↦ ?_
  · rw [InUse, hcaptures.files.1, hcaptures.files.2, hcaptures.ghost] at hi
    refine hi.imp_left fun hi ↦ ?_
    obtain ⟨x', hx'⟩ := isSome_iff_exists.1 hi
    obtain ⟨x, hx, -⟩ := hcaptures.inode i x' hx'
    simp [hx]
  · obtain ⟨op, hop⟩ := isSome_iff_exists.1 hi
    rcases hcaptures.ops i op hop with hold | ⟨rfl, -⟩
    · exact .inl (by simp [hold])
    · exact .inr (hnext ▸ h.work hm c hc w hw)
  · cases hcaptures.checkpoint.symm.trans hc'
    exact hnext ▸ h.work hm c hc w' (mem_of_mem_filter hw')

theorem finishCapture (hst : s.finishCapture params ino = some t) : t.Numbered params := by
  obtain ⟨c, refs, hc, hop, rfl⟩ := finishCapture_spec hst
  have hlocal := h.of_local hm (Local.capture params ino s
    (finalizedChunks (s.openFiles ino) refs)) (h.ops hm ino (by simp [hop]))
  refine ⟨hlocal.inUse, hlocal.ops, fun hm' _ hc' w hw ↦ ?_, hlocal.disk⟩
  cases hc'
  refine hlocal.work hm' c ?_ w hw
  rw [(Local.capture params ino s _).checkpoint, hc]

theorem fileAction
    (ha : FileAction ino a) (hst : s.mountedStep params a = some t) : t.Numbered params :=
  h.of_local hm (ha.isLocal hst)
    ((ha.inUse hst).elim (fun hi ↦ h.inUse hm ino (.inl hi)) fun hi ↦ h.ops hm ino hi)

theorem mountedStep
    (hst : s.mountedStep params a = some t) (ha : a ≠ .crash) : t.Numbered params := by
  cases mountedStep_effect hst ha with
  | names hcall => exact h.namespaceCall hm (.of_edited hcall.edited)
  | create hcreate => exact h.createEntry hm hcreate
  | file hfile hst => exact h.fileAction hm hfile hst
  | @deltaCommit _ ino hcommit =>
    obtain ⟨_, _, _, hop, _, rfl⟩ := deltaCommit_spec hcommit
    refine h.shrink hm rfl le_rfl (fun _ hi ↦ .inl hi) (fun i hi ↦ .inl ?_) (h.work hm)
    by_cases heq : i = ino
    · simp [heq, hop]
    · simpa [heq] using hi
  | upkeep hupkeep =>
    refine h.shrink hm hupkeep.mounted (by rw [hupkeep.ns]) (fun _ hi ↦ .inl ?_)
      (fun _ hi ↦ .inl (hupkeep.ops ▸ hi)) ?_
    · rwa [InUse, hupkeep.ns, hupkeep.fileState, hupkeep.openFiles, hupkeep.ghost] at hi
    · rw [hupkeep.ns, hupkeep.checkpoint]
      exact h.work hm
  | beginCheckpoint hbegin =>
    obtain ⟨_, c, rfl, _, _, _, hwork, _⟩ := beginCheckpoint_spec hbegin
    refine h.shrink hm rfl le_rfl (fun _ hi ↦ .inl hi) (fun _ hi ↦ .inl hi) fun _ hc' w hw ↦ ?_
    cases hc'
    simp [hwork] at hw
  | checkpointStep hstep => exact h.checkpointStep hm hstep
  | beginCapture hcapture => exact h.beginCapture hm hcapture
  | finishCapture hcapture => exact h.finishCapture hm hcapture

end Numbered

end

/-- The counter a mount restores is above every inode of the root, and it is at least the
root's own counter. -/
theorem Opens.numbered {slot : SuperblockSlot} (h : s.Numbered params) (hm : s.mounted = false)
    (hst : s.Opens params t slot) : t.Numbered params := by
  have hreplayed : ∀ c ∈ s.disk.replayed params, c.ino < t.ns.nextIno := fun c hc ↦ by
    rw [hst.eq]
    exact Nat.lt_of_lt_of_le (h.disk hm slot hst.published c hc) (Nat.le_max_right _ _)
  have hroot : ∀ entry ∈ slot.root.inoMap, entry.1 < t.ns.nextIno := fun entry hentry ↦ by
    rw [hst.eq]
    have hle := le_foldr_max rootDirIno (mem_map_of_mem (f := (·.1)) hentry)
    exact Nat.lt_of_lt_of_le (Nat.lt_succ_of_le hle) (Nat.le_max_left _ _)
  refine ⟨fun _ ino hi ↦ ?_, fun _ ino hi ↦ ?_, fun _ c hc ↦ ?_, fun hm' ↦ ?_⟩
  · have hcases : (∃ c ∈ s.disk.replayed params, ino = c.ino) ∨
        ∃ entry ∈ slot.root.inoMap, ino = entry.1 := by
      rw [hst.eq] at hi
      rcases hi with hi | hi | hi | ⟨c, hc, rfl⟩
      · exact RecoveredTree.Has.of_ofRoot (.inl hi)
      · exact RecoveredTree.Has.of_ofRoot (.inr hi)
      · simp [mountedState] at hi
      · exact .inl ⟨c, hc, rfl⟩
    rcases hcases with ⟨c, hc, rfl⟩ | ⟨entry, hentry, rfl⟩
    · exact hreplayed c hc
    · exact hroot entry hentry
  · simp [hst.eq, mountedState] at hi
  · simp [hst.eq, mountedState] at hc
  · simp [hst.eq, mountedState] at hm'

theorem Numbered.step (hloc : s.Located) (h : s.Numbered params)
    (hC : CountsReplayed params s a) (hst : s.step params a = some t) : t.Numbered params := by
  cases hloc.takes hst with
  | fails _ hfail =>
    obtain ⟨_, rfl, -⟩ := hfail
    exact { h with }
  | opens hm hopens => exact hopens.numbered h hm
  | crash =>
    exact ⟨fun hm' ↦ by simp [crash] at hm', fun hm' ↦ by simp [crash] at hm',
      fun hm' ↦ by simp [crash] at hm', fun _ slot hslot ↦ hC slot hslot⟩
  | mounted hm ha hst => exact h.mountedStep hm hst ha

theorem numbered_create : State.create.Numbered params where
  inUse _ ino h := by
    rcases h with h | h | h | ⟨c, hc, _⟩
    · obtain ⟨_, hinode⟩ := isSome_iff_exists.1 h
      simp only [create, Namespace.create, Table.lookup_insert_eq, Table.lookup_empty] at hinode
      split_ifs at hinode with heq
      exact Nat.lt_succ_of_le (Nat.le_of_eq heq)
    · simp [create] at h
    · simp [create] at h
    · simp [create] at hc
  ops _ ino h := by simp [create] at h
  work _ c h := by simp [create] at h
  disk h := by simp [create] at h

theorem numbered_of_reachable (h : (pool params).ReachableUnder (CountsReplayed params) s) :
    s.Numbered params :=
  h.invariant (fun _ hs ↦ hs ▸ numbered_create) fun _ _ _ hreach hs hC hst ↦
    hs.step (located_of_reachable hreach) hC hst

/-- No inode number in use is handed out again. -/
theorem inode_numbers_above_those_in_use
    (h : (pool params).ReachableUnder (CountsReplayed params) s) (hm : s.mounted = true) :
    (∀ ino, s.InUse ino → ino < s.ns.nextIno) ∧ ∀ parent name kind target ino ns,
        s.ns.createEntry parent name kind target = .ok (ino, ns) → ¬s.InUse ino := by
  have hlt := (numbered_of_reachable h).inUse hm
  refine ⟨hlt, fun _ _ _ _ _ _ hcreate hi ↦ ?_⟩
  obtain ⟨rfl, _⟩ := Namespace.createEntry_ok hcreate
  exact Nat.lt_irrefl _ (hlt _ hi)

/-- A run with a replay: a file is created, checkpointed and synced again before the
crash. -/
def replayRun : List Action :=
  .createEntry rootDirIno "a" .file "" ::
    checkpointRun 1 [.beginCapture 1, .beginCapture 2, .finishCapture 2] ++
    (.beginFsync 2 :: fsyncRun (smallPool 1) 2) ++ [.crash, .openPool]

theorem inode_numbers_above_those_in_use_replayRun :
    ∃ s, (pool (smallPool 1)).runUnder (CountsReplayed (smallPool 1)) .create replayRun = some s ∧
      s.ghost.replayed.map (·.ino) = [2] ∧ s.ns.nextIno = 3 ∧
      (∀ ino, s.InUse ino → ino < s.ns.nextIno) ∧ ∀ parent name kind target ino ns,
        s.ns.createEntry parent name kind target = .ok (ino, ns) → ¬s.InUse ino := by
  obtain ⟨s, hs, hm, hreplayed, hnext⟩ : ∃ s, (pool (smallPool 1)).runUnder (CountsReplayed (smallPool 1)) .create
      replayRun = some s ∧ s.mounted = true ∧ s.ghost.replayed.map (·.ino) = [2] ∧ s.ns.nextIno = 3 :=
    Machine.exists_run (by decide +kernel)
  exact ⟨s, hs, hreplayed, hnext, inode_numbers_above_those_in_use (.of_run rfl hs) hm⟩

/-- A file that is created and synced after the only checkpoint: the mount brings its inode
back, but its number is the next one to be handed out. -/
theorem replayed_inode_number_is_reused :
    ∃ s ns, (pool (smallPool 1)).Reachable s ∧ s.mounted = true ∧ s.InUse 2 ∧ s.ns.nextIno = 2 ∧
      s.ns.createEntry rootDirIno "b" .file "" = .ok (2, ns) := by
  obtain ⟨s, hs, hm, hinode, hnext, hcreate⟩ : ∃ s, (pool (smallPool 1)).Reachable s ∧ s.mounted = true ∧
      (s.ns.inodes.lookup 2).isSome ∧ s.ns.nextIno = 2 ∧
      (s.ns.createEntry rootDirIno "b" .file "").toOption.map (·.1) = some 2 :=
    Machine.exists_of_run rfl (checkpointRun 1 [.beginCapture 1] ++
      [.createEntry rootDirIno "a" .file "", .beginFsync 2] ++ fsyncRun (smallPool 1) 2 ++ [.crash, .openPool])
      (by decide +kernel)
  obtain ⟨⟨_, ns⟩, hns, rfl⟩ := map_eq_some_iff.1 hcreate
  have hok : s.ns.createEntry rootDirIno "b" .file "" = .ok (2, ns) := by
    cases h : s.ns.createEntry rootDirIno "b" .file "" <;> simp_all [Except.toOption]
  exact ⟨s, ns, hs, hm, .inl hinode, hnext, hok⟩

end State

end Lchfs.Store
