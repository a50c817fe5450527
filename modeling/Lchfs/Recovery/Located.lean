import Lchfs.Recovery.Tree
import Lchfs.Store.Steps

/-!
# Every state of a pool is well located

In every reachable state the record store is well formed and the root location that
the superblock slot or the running checkpoint holds belongs to its root. A mount
therefore decodes exactly the objects it asks for.
-/

namespace Lchfs.Store

open Lchfs.Format Lchfs.Library
open List Option

namespace State

variable {params : PoolParams} {s t : State}
variable {ino : Ino} {c : Checkpoint}

structure Located (s : State) : Prop where
  store : s.store.WellFormed
  idle : s.mounted = false → ∀ id, ¬s.store.WritesTo id
  slot : ∀ slot, s.slot = some slot → s.store.Names (.root slot.root) slot.rootLocation
  checkpoint : ∀ c, s.checkpoint = some c → Phase.root.rank < c.phase.rank →
    s.store.Names (.root c.root) c.rootLocation

/-- A step of a mounted pool that writes no root and publishes none. -/
structure KeepsRoots (s t : State) : Prop where
  store : s.store.Evolves t.store
  mounted : t.mounted = true
  slot : t.slot = s.slot
  checkpoint : ∀ c', t.checkpoint = some c' → Phase.root.rank < c'.phase.rank →
    ∃ c, s.checkpoint = some c ∧ Phase.root.rank < c.phase.rank ∧ c'.root = c.root ∧
      c'.rootLocation = c.rootLocation

theorem Located.keepsRoots (h : s.Located) (hst : s.KeepsRoots t) : t.Located := by
  obtain ⟨hdev, hwf⟩ := RecordStore.Progress.evolves hst.store h.store
  refine ⟨hwf, fun hm ↦ by simp [hst.mounted] at hm, fun slot hslot ↦ ?_, fun c' hc' hrank ↦ ?_⟩
  · exact (h.slot slot (hst.slot ▸ hslot)).extend hdev
  · obtain ⟨c, hc, hrank, hroot, hloc⟩ := hst.checkpoint c' hc' hrank
    rw [hroot, hloc]
    exact (h.checkpoint c hc hrank).extend hdev

/-- A step that leaves the slot and the checkpoint alone. -/
theorem KeepsRoots.of_eq (hm : s.mounted = true) (hstore : s.store.Evolves t.store)
    (hmounted : t.mounted = s.mounted) (hslot : t.slot = s.slot)
    (hcheckpoint : t.checkpoint = s.checkpoint) : s.KeepsRoots t :=
  ⟨hstore, hmounted.trans hm, hslot, fun c' hc' hrank ↦ ⟨c', hcheckpoint ▸ hc', hrank, rfl, rfl⟩⟩

theorem KeepsRoots.of_local (hm : s.mounted = true) (h : s.Local ino t) : s.KeepsRoots t :=
  .of_eq hm h.store h.mounted h.slot h.checkpoint

/-- A step of the checkpoint before it writes its root. -/
theorem KeepsRoots.early {c' : Checkpoint} (hm : s.mounted = true)
    (hstore : s.store.Evolves t.store) (hmounted : t.mounted = s.mounted) (hslot : t.slot = s.slot)
    (hc' : t.checkpoint = some c') (hrank : c'.phase.rank ≤ Phase.root.rank) : s.KeepsRoots t := by
  refine ⟨hstore, hmounted.trans hm, hslot, fun c hc hlt ↦ ?_⟩
  cases hc'.symm.trans hc
  omega

/-- A step of the checkpoint after it has written its root. -/
theorem KeepsRoots.late {phase : Phase} (hm : s.mounted = true)
    (hc : s.checkpoint = some c) (hrank : Phase.root.rank < c.phase.rank)
    (hstore : s.store.Evolves t.store) (hmounted : t.mounted = s.mounted) (hslot : t.slot = s.slot)
    (hc' : t.checkpoint = some { c with phase := phase }) : s.KeepsRoots t := by
  refine ⟨hstore, hmounted.trans hm, hslot, fun c' hc'' _ ↦ ⟨c, hc, hrank, ?_⟩⟩
  obtain rfl : { c with phase := phase } = c' := by simpa [hc'] using hc''
  exact ⟨rfl, rfl⟩

theorem Located.checkpointRoot (h : s.Located) (hm : s.mounted = true) : (s.checkpointRoot c).Located := by
  let root : RootObject := ⟨c.inoSnapshot, s.ns.nextIno, c.watermarks⟩
  obtain ⟨hdev, hwf⟩ := RecordStore.Progress.evolves
    (RecordStore.evolves_putMetaEncoded s.store (.root root)) h.store
  refine ⟨hwf, fun hm' ↦ ?_, fun slot hslot ↦ (h.slot slot hslot).extend hdev, fun _ hc' _ ↦ ?_⟩
  · exact absurd (hm.symm.trans hm') (by simp)
  · cases hc'
    exact h.store.names_putMetaEncoded (.root root)

theorem Located.checkpointSuperblock (h : s.Located) (hm : s.mounted = true)
    (hc : s.checkpoint = some c) (hrank : Phase.root.rank < c.phase.rank) : (s.checkpointSuperblock c).Located := by
  refine ⟨h.store, fun hm' ↦ absurd (hm.symm.trans hm') (by simp), fun _ hslot ↦ ?_, fun _ hc' ↦ ?_⟩
  · cases hslot
    exact h.checkpoint c hc hrank
  · simp [State.checkpointSuperblock, setCheckpoint] at hc'

theorem Located.checkpointStep (h : s.Located) (hm : s.mounted = true)
    (hst : s.checkpointStep params = some t) : t.Located := by
  obtain ⟨c, hc, hst⟩ := bind_eq_some_iff.1 hst
  have hearly : ∀ {t : State} {c' : Checkpoint}, s.store.Evolves t.store → t.mounted = s.mounted →
      t.slot = s.slot → t.checkpoint = some c' → c'.phase.rank ≤ Phase.root.rank → t.Located :=
    fun hstore hmounted hslot hc' hrank ↦ h.keepsRoots (.early hm hstore hmounted hslot hc' hrank)
  cases hphase : c.phase <;> simp only [hphase] at hst
  case barrier shard =>
    cases hst
    unfold checkpointBarrier
    split_ifs
    · exact hearly (.single (.fsyncData _ _)) rfl rfl rfl (by simp)
    · exact hearly .refl rfl rfl rfl (by simp)
  case watermark shard =>
    unfold checkpointWatermark at hst
    dsimp only at hst
    split_ifs at hst <;> cases hst <;>
      exact hearly .refl rfl rfl rfl (by simp)
  case capture =>
    unfold checkpointSnapshot at hst
    split_ifs at hst
    cases hst
    exact hearly .refl rfl rfl rfl (by simp)
  case flushIndex shard =>
    cases hst
    have hrank : Phase.root.rank < c.phase.rank := by simp [hphase]
    unfold checkpointFlushIndex
    split_ifs
    · exact h.keepsRoots (.late hm hc hrank (.single (.flushIndex _ _)) rfl rfl rfl)
    · exact h.keepsRoots (.late hm hc hrank .refl rfl rfl rfl)
  all_goals cases hst
  case drain => exact hearly .refl rfl rfl rfl (by simp)
  case work => exact hearly .refl rfl rfl rfl (by simp)
  case inodes =>
    exact hearly (RecordStore.evolves_putMetaObjects _ _) rfl rfl rfl (by simp)
  case root => exact h.checkpointRoot hm
  all_goals have hrank : Phase.root.rank < c.phase.rank := by simp [hphase]
  case metaBarrier =>
    exact h.keepsRoots (.late hm hc hrank (.single (.syncMeta _)) rfl rfl rfl)
  case index =>
    exact h.keepsRoots (.late hm hc hrank (.single (.checkpointIndex _ _)) rfl rfl rfl)
  case publish => exact h.keepsRoots (.late hm hc hrank .refl rfl rfl rfl)
  case superblock => exact h.checkpointSuperblock hm hc hrank

theorem KeepsRoots.beginCapture (hm : s.mounted = true) (h : s.beginCapture ino = some t) : s.KeepsRoots t := by
  obtain ⟨c, w, _, hphase, _, _, _, hcases⟩ := beginCapture_spec h
  have hrank : c.phase.rank ≤ Phase.root.rank := by simp [hphase]
  rcases hcases with ⟨_, rfl⟩ | ⟨_, rfl⟩ | ⟨_, _, rfl⟩
  · exact .early hm (RecordStore.evolves_putMetaEncoded _ _) rfl rfl rfl hrank
  · exact .early hm .refl rfl rfl rfl hrank
  · exact .early hm .refl rfl rfl rfl hrank

theorem KeepsRoots.finishCapture (hm : s.mounted = true)
    (h : s.finishCapture params ino = some t) : s.KeepsRoots t := by
  obtain ⟨c, refs, hc, _, rfl⟩ := finishCapture_spec h
  have hlocal := Local.capture params ino s (finalizedChunks (s.openFiles ino) refs)
  refine ⟨hlocal.store, hlocal.mounted.trans hm, hlocal.slot, fun _ hc' hrank ↦ ⟨c, hc, ?_⟩⟩
  cases hc'
  exact ⟨hrank, rfl, rfl⟩

variable {a : Action}

theorem Located.mountedStep (h : s.Located) (hm : s.mounted = true)
    (hst : s.mountedStep params a = some t) (ha : a ≠ .crash) : t.Located := by
  cases mountedStep_effect hst ha with
  | names => exact h.keepsRoots (.of_eq hm .refl rfl rfl rfl)
  | create hcreate =>
    obtain ⟨_, _, _, rfl⟩ := createEntry_spec hcreate
    exact h.keepsRoots (.of_eq hm .refl rfl rfl rfl)
  | file hfile hst => exact h.keepsRoots (.of_local hm (hfile.isLocal hst))
  | deltaCommit hcommit =>
    obtain ⟨_, _, _, _, _, rfl⟩ := deltaCommit_spec hcommit
    exact h.keepsRoots (.of_eq hm .refl rfl rfl rfl)
  | upkeep hupkeep =>
    exact h.keepsRoots (.of_eq hm hupkeep.store hupkeep.mounted hupkeep.slot hupkeep.checkpoint)
  | beginCheckpoint hbegin =>
    obtain ⟨_, c, rfl, hphase, _⟩ := beginCheckpoint_spec hbegin
    exact h.keepsRoots (.early hm .refl rfl rfl rfl (by simp [hphase]))
  | checkpointStep hstep => exact h.checkpointStep hm hstep
  | beginCapture hcapture => exact h.keepsRoots (.beginCapture hm hcapture)
  | finishCapture hcapture => exact h.keepsRoots (.finishCapture hm hcapture)

theorem Located.crash (h : s.Located) : s.crash.Located := by
  obtain ⟨hdev, hwf⟩ := RecordStore.Progress.crash h.store
  refine ⟨hwf, fun _ _ hw ↦ ?_, fun slot hslot ↦ (h.slot slot hslot).extend hdev, fun c hc ↦ ?_⟩
  · rcases hw with ⟨_, hw⟩ | hw <;>
      simp [State.crash, RecordStore.onDevices, RecordStore.create] at hw
  · simp [State.crash] at hc

/-- The index a mount uses is sound, fresh or rebuilt. -/
theorem Located.sound_mountIndex (h : s.Located) (hm : s.mounted = false) (slot : SuperblockSlot) :
    (mountIndex s.disk slot).1.Sound s.store := by
  have hold : ∀ index, s.store.durableIndex = some index → index.Sound s.store :=
    fun index hindex hash loc hloc ↦ h.store.names_index hindex hloc
  have hscan : ∀ hash loc, s.store.HasRecord loc hash → s.store.Names hash loc :=
    fun hash loc hrec ↦ h.store.names_of_recordAt (h.idle hm) hrec
  have hgetD : (s.store.durableIndex.getD .create).Sound s.store := by
    cases hindex : s.store.durableIndex with
    | none => intro _ _ hloc; simp [RedbIndex.create] at hloc
    | some index => exact hold index hindex
  unfold mountIndex
  split
  · next index hindex => exact hold index (filter_eq_some_iff.1 hindex).1
  · intro hash loc hloc
    simp only [rebuildIndex, or_eq_some_iff] at hloc
    rcases hloc with (hloc | ⟨_, hloc⟩) | hloc | ⟨_, hloc⟩
    · exact hscan hash loc (.inl (SegmentStore.recordAt_of_scan hloc))
    · exact hgetD hash loc (.inl hloc)
    · exact hscan hash loc (.inr (StripeStore.recordAt_of_scan hloc))
    · exact hgetD hash loc (.inr hloc)

theorem Located.sound_mountLocations (h : s.Located) (hm : s.mounted = false) {index : RedbIndex}
    (hindex : index.Sound s.store) (fastPath : Bool) {disk : Disk} (hdisk : disk.On s.store) :
    SoundLocations s.store (mountLocations disk index fastPath) := by
  intro hash loc hloc
  unfold mountLocations at hloc
  split_ifs at hloc
  · obtain ⟨⟨loc, _⟩, hpref, rfl⟩ := map_eq_some_iff.1 hloc
    exact hindex hash loc (RedbIndex.of_preferredLocation hpref)
  · rw [hdisk.segments] at hloc
    exact h.store.names_of_recordAt (h.idle hm) (.inl (SegmentStore.recordAt_of_scan hloc))

/-- A mount that fails has changed nothing but the index. -/
structure FailsToOpen (s t : State) : Prop where
  eq : ∃ index : Option RedbIndex, t = { s with store.durableIndex := index } ∧
    ∀ i, index = some i → i.Sound s.store

/-- The disk a mount works on, with the index it uses. -/
abbrev mountDisk (s : State) (slot : SuperblockSlot) : Disk :=
  { s.disk with index := some (mountIndex s.disk slot).1 }

/-- A mount that succeeds: the tree of the slot's root under the replayed entries, over an
index that is sound. -/
structure Opens (params : PoolParams) (s t : State) (slot : SuperblockSlot) : Prop where
  published : s.slot = some slot
  sound : (mountIndex s.disk slot).1.Sound s.store
  recovered : ∃ r, recover (s.mountDisk slot) (mountIndex s.disk slot).1
    (List.range params.logicalShardCount) slot (mountIndex s.disk slot).2
    (mountLocations (s.mountDisk slot) (mountIndex s.disk slot).1 (mountIndex s.disk slot).2) =
      .ok (slot.root, r)
  eq : t = s.mountedState (s.mountDisk slot).sealOrphanedSegments
    (Store.mounted (s.mountDisk slot) (mountIndex s.disk slot).1 slot slot.root
      (.ofRoot slot.root (s.disk.replayed params))) (s.disk.replayed params)

theorem openSet_of_slot {slot : SuperblockSlot} (h : s.slot = some slot) : openSet params s.disk =
      match recover (s.mountDisk slot) (mountIndex s.disk slot).1
        (List.range params.logicalShardCount) slot (mountIndex s.disk slot).2
        (mountLocations (s.mountDisk slot) (mountIndex s.disk slot).1 (mountIndex s.disk slot).2) with
      | .error e => (s.mountDisk slot, .error e)
      | .ok (root, r) => ((s.mountDisk slot).sealOrphanedSegments,
          .ok (Store.mounted (s.mountDisk slot) (mountIndex s.disk slot).1 slot root
            r.toRecoveredTree)) := by
  unfold openSet
  split
  · next hnone => simp [disk, h] at hnone
  · next slot' hslot' =>
    obtain rfl : slot = slot' := by simpa [disk, h] using hslot'
    rfl

theorem openSet_of_none (h : s.slot = none) :
    openSet params s.disk = (s.disk, .error (.format "no valid superblock found")) := by
  unfold openSet
  split
  · rfl
  · next hslot => simp [disk, h] at hslot

theorem Located.openPool (h : s.Located) (hst : s.openPool params = some t) :
    s.mounted = false ∧ (s.FailsToOpen t ∨ ∃ slot, s.Opens params t slot) := by
  unfold State.openPool at hst
  split_ifs at hst with hm
  have hm : s.mounted = false := by simpa using hm
  refine ⟨hm, ?_⟩
  cases hslot : s.slot with
  | none =>
    rw [openSet_of_none hslot] at hst
    cases hst
    exact .inl ⟨s.store.durableIndex, rfl, fun i hi _ _ hloc ↦ h.store.names_index hi hloc⟩
  | some slot =>
    have hindex := h.sound_mountIndex hm slot
    rw [openSet_of_slot hslot] at hst
    split at hst
    · next heq =>
      split at heq
      · obtain ⟨rfl, _⟩ := Prod.mk.inj heq
        cases hst
        exact .inl ⟨_, rfl, fun i hi ↦ some.inj hi ▸ hindex⟩
      · simp at heq
    · next heq =>
      split at heq
      · simp at heq
      · next r hrec =>
        obtain ⟨rfl, hmounted⟩ := Prod.mk.inj heq
        cases hmounted
        have hdisk : (s.mountDisk slot).On s.store := ⟨rfl, rfl⟩
        obtain ⟨rfl, htree, -⟩ := recover_tree hdisk h.store (h.idle hm) hindex
          (h.slot slot hslot) (h.sound_mountLocations hm hindex _ hdisk) hrec
        refine .inr ⟨slot, hslot, hindex, ⟨r, hrec⟩, ?_⟩
        have hentries : s.disk.replayed params =
            (s.mountDisk slot).replaySince (range params.logicalShardCount) slot.root := by
          simp [Disk.replayed, Disk.replaySince, disk, hslot]
        rw [hentries, ← htree, ← hentries]
        exact (some.inj hst).symm

theorem FailsToOpen.located (h : s.Located) (hm : s.mounted = false) (hst : s.FailsToOpen t) :
    t.Located := by
  obtain ⟨index, rfl, hsound⟩ := hst
  obtain ⟨hext, hwf⟩ : s.store.Progress { s.store with durableIndex := index } := by
    refine .of_index h.store fun hash loc hk ↦ ?_
    cases hk with
    | cached hk => exact .inl (.cached hk)
    | pending hk => exact .inl (.pending hk)
    | mirrored hk => exact .inl (.mirrored hk)
    | striped hk => exact .inl (.striped hk)
    | durableMirrored hi hk => exact .inr (hsound _ hi hash loc (.inl hk))
    | durableStriped hi hk => exact .inr (hsound _ hi hash loc (.inr hk))
  exact ⟨hwf, fun _ ↦ h.idle hm, fun slot hslot ↦ (h.slot slot hslot).extend hext,
    fun c hc hrank ↦ (h.checkpoint c hc hrank).extend hext⟩

end State

/-- The sealing of orphans drops no segment and changes no record. -/
theorem Disk.lookup_sealOrphanedSegments {disk : Disk} {store : RecordStore}
    (hdisk : disk.On store) (hwf : store.WellFormed) (id : SegmentId) :
    disk.sealOrphanedSegments.segments.lookup id =
      (store.segments.lookup id).map Segment.sealOrphan := by
  simp only [Disk.sealOrphanedSegments, Table.lookup_mapVal, Table.lookup_filterVal, hdisk.segments]
  cases hs : store.segments.lookup id with
  | none => rfl
  | some seg =>
    have hkeep : seg.isEmptyOrphan = false := by
      cases hw : seg.writtenLen with
      | none => simp [Segment.isEmptyOrphan, hw]
      | some =>
        have hne := (hwf.segment id seg hs).records_ne_nil (by simp [hw])
        simp [Segment.isEmptyOrphan, hne]
    simp [filter, hkeep]

@[simp]
theorem Segment.records_sealOrphan (s : Segment) : s.sealOrphan.records = s.records := by
  unfold sealOrphan
  split_ifs <;> rfl

theorem Segment.WellFormed.sealOrphan {s : Segment} (h : s.WellFormed) : s.sealOrphan.WellFormed := by
  unfold Segment.sealOrphan
  split_ifs with hcond
  · exact h
  · exact .sealed (h.records_ne_nil fun hw ↦ hcond (.inr (by simp [hw])))

namespace State

variable {params : PoolParams} {s t : State} {slot : SuperblockSlot}

/-- An opened pool has no checkpoint, and the slot and the logs it was opened with. -/
theorem Opens.frame (h : s.Opens params t slot) : t.checkpoint = none ∧ t.slot = s.slot ∧ t.delta = s.delta := by
  rw [h.eq]
  exact ⟨rfl, rfl, rfl⟩

theorem Opens.progress (h : s.Located) (hst : s.Opens params t slot) : s.store.Progress t.store := by
  have hdisk : (s.mountDisk slot).On s.store := ⟨rfl, rfl⟩
  have hlookup := Disk.lookup_sealOrphanedSegments hdisk h.store
  obtain ⟨hdev, hwf⟩ := RecordStore.Progress.onDevices h.store
    (s.mountDisk slot).sealOrphanedSegments.segments (some (mountIndex s.disk slot).1) (fun id ↦ by simp [hlookup])
    (fun loc r hr ↦ by
      simpa [SegmentStore.recordAt, hlookup, bind_map, Function.comp_def] using hr)
    (fun id _ hseg ↦ by
      rw [hlookup] at hseg
      obtain ⟨seg₀, hseg₀, rfl⟩ := map_eq_some_iff.1 hseg
      exact (h.store.segment id seg₀ hseg₀).sealOrphan)
    (fun hash loc i hi hloc ↦ hst.sound hash loc (some.inj hi ▸ hloc))
  have hext : s.store.Extends t.store := by
    rw [hst.eq]
    exact hdev.trans (.of_eq rfl rfl rfl rfl)
  have hindex : ∀ hash loc, (mountIndex s.disk slot).1.mirrored hash = some loc ∨
      (mountIndex s.disk slot).1.striped hash = some loc → t.store.Names hash loc :=
    fun hash loc hloc ↦ (hst.sound hash loc hloc).extend hext
  refine ⟨hext, ?_⟩
  obtain rfl := hst.eq
  refine ⟨fun id hid ↦ ?_, fun _ id hw ↦ ?_, fun id hw ↦ ?_, hwf.segment, hwf.agree,
    fun hash loc hk ↦ ?_⟩
  · have halloc : s.store.Allocated id := hid.imp_left fun hs ↦ by
      have hs : ((s.mountDisk slot).sealOrphanedSegments.segments.lookup id).isSome := hs
      simpa [hlookup] using hs
    exact lt_freshSegmentId halloc
  · simp [mountedState, RecordStore.onDevices, RecordStore.create] at hw
  · simp [mountedState, RecordStore.onDevices, RecordStore.create] at hw
  · cases hk with
    | cached hk =>
      exact hindex hash loc (RedbIndex.of_preferredLocation hk)
    | pending hk => simp [mountedState, RecordStore.onDevices, RecordStore.create] at hk
    | mirrored hk => exact hindex hash loc (.inl hk)
    | striped hk => exact hindex hash loc (.inr hk)
    | durableMirrored hi hk =>
      cases hi
      exact hindex hash loc (.inl hk)
    | durableStriped hi hk =>
      cases hi
      exact hindex hash loc (.inr hk)

theorem Opens.located (h : s.Located) (hst : s.Opens params t slot) : t.Located := by
  obtain ⟨hdev, hwf⟩ := hst.progress h
  obtain rfl := hst.eq
  refine ⟨hwf, fun hm ↦ by simp [mountedState] at hm, fun slot' hslot' ↦ ?_, fun c hc ↦ ?_⟩
  · exact (h.slot slot' hslot').extend hdev
  · simp [mountedState] at hc

theorem step_mounted (h : s.step params a = some t) (ha : a ≠ .openPool) :
    s.mounted = true ∧ s.mountedStep params a = some t := by
  cases a <;> simp_all [step]

theorem located_create : State.create.Located where
  store := RecordStore.wellFormed_create
  idle h := by simp [create] at h
  slot _ h := by simp [create] at h
  checkpoint _ h := by simp [create] at h

/-- What a step of the pool is: a mount that fails or succeeds, a crash, or a step of a mounted pool. -/
inductive Takes (params : PoolParams) (s : State) : Action → State → Prop
  | fails {t : State} (hm : s.mounted = false) (hfail : s.FailsToOpen t) : Takes params s .openPool t
  | opens {t : State} {slot : SuperblockSlot} (hm : s.mounted = false) (hopens : s.Opens params t slot) :
    Takes params s .openPool t
  | crash (hm : s.mounted = true) : Takes params s .crash s.crash
  | mounted {a : Action} {t : State} (hm : s.mounted = true) (ha : a ≠ .crash)
    (hst : s.mountedStep params a = some t) : Takes params s a t

theorem Located.takes (h : s.Located) (hst : s.step params a = some t) : s.Takes params a t := by
  by_cases hopen : a = .openPool
  · subst hopen
    obtain ⟨hm, hfail | ⟨_, hopens⟩⟩ := h.openPool hst
    · exact .fails hm hfail
    · exact .opens hm hopens
  · obtain ⟨hm, hst⟩ := step_mounted hst hopen
    by_cases hcrash : a = .crash
    · subst hcrash
      cases hst
      exact .crash hm
    · exact .mounted hm hcrash hst

theorem Located.step (h : s.Located) (hst : s.step params a = some t) : t.Located := by
  cases h.takes hst with
  | fails hm hfail => exact hfail.located h hm
  | opens _ hopens => exact hopens.located h
  | crash => exact h.crash
  | mounted hm ha hst => exact h.mountedStep hm hst ha

/-- Every state of every run is well located. -/
theorem located_of_reachable {C : State → Action → Prop}
    (h : (pool params).ReachableUnder C s) : s.Located :=
  h.invariant (fun _ hs ↦ hs ▸ located_create) fun _ _ _ _ hs _ hst ↦ hs.step hst

end State

end Lchfs.Store
