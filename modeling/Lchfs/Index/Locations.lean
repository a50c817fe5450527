import Lchfs.Index.Coalescing

/-!
# Locations over crashes, mounts and promotions

The index file outlives a crash, so what it names must too. It does when the index is only
committed while all it names is durable, and when a device that becomes the primary brings no
older index file along. Without that a crash leaves an index, and a cache warmed from it, that
name records which are gone, and the next write of the same bytes is a dedup hit on one.
-/

set_option linter.unusedSectionVars false

namespace Lchfs.Index

open Lchfs.Format (ShardId SegmentId)
open Lchfs.Library
open List Option State Segment Entries

variable {Hash : Type} [DecidableEq Hash]

namespace State

variable {s t u : State Hash} {params : Params}
variable {tag : Tag} {loc : Location} {hash : Hash} {v : VdevId} {unreadable : List SegmentId}
  {vdevs : List VdevId} {order : VdevId → List SegmentId} {entry : (Hash × Tag) × Location}
  {a : Action Hash}

/-! ## Crashes -/

theorem durableAt_crash (h : s.durableAt tag loc = some hash) : (s.crash params).durableAt tag loc = some hash := by
  cases tag with
  | striped => exact h
  | vdev =>
    obtain ⟨seg, hseg, hget⟩ := durableAt_vdev.1 h
    exact durableAt_vdev.2 ⟨seg.cut, by simp [crash, hseg], by simpa [cut, take_take] using hget⟩

theorem SoundTask.crash (h : s.SoundTask) (params : Params) : (s.crash params).SoundTask := by
  refine ⟨⟨fun id hid ↦ ⟨fun v ↦ ?_, (h.sound.fresh id hid).2⟩, by simp [State.crash], by simp [State.crash],
    fun file hfile hash tag loc hlookup ↦ durableAt_crash (h.sound.file file hfile hash tag loc hlookup),
    by simp [State.crash], by simp [State.crash], by simp [State.crash], by simp [State.crash]⟩,
    by simp [State.crash]⟩
  simp [State.crash, (h.sound.fresh id hid).1]

/-! ## A rebuilt index -/

theorem recordAt_of_mem_scan {order : List SegmentId} (h : entry ∈ s.scan v order) :
    entry.1.2 = .vdev v ∧ s.recordAt entry.1.2 entry.2 = some entry.1.1 := by
  obtain ⟨_, -, hentry⟩ := mem_flatMap.1 h
  split at hentry
  next seg hseg =>
    obtain ⟨⟨_, _⟩, hrecord, rfl⟩ := mem_map.1 hentry
    obtain ⟨rfl, hget⟩ := mem_entries.1 hrecord
    exact ⟨rfl, recordAt_vdev.2 ⟨seg, hseg, hget⟩⟩
  · simp at hentry

theorem recordAt_of_mem_scanStripes (h : entry ∈ s.scanStripes unreadable) :
    entry.1.2 = .striped ∧ s.recordAt entry.1.2 entry.2 = some entry.1.1 := by
  obtain ⟨_, -, hentry⟩ := mem_flatMap.1 h
  split at hentry
  next hstripe =>
    split_ifs at hentry
    · simp at hentry
    · obtain ⟨⟨_, _⟩, hrecord, rfl⟩ := mem_map.1 hentry
      obtain ⟨rfl, hget⟩ := mem_entries.1 hrecord
      exact ⟨rfl, by simp [recordAt, hstripe, hget]⟩
  · simp at hentry

/-- An entry of a rebuilt index was in the file or was met in a scan. -/
theorem lookup_rebuildIndex {file : Option (Index Hash)} {generation : Nat}
        (h : (s.rebuildIndex file vdevs order unreadable generation).entries.lookup (hash, tag) = some loc) :
    (∃ f, file = some f ∧ f.entries.lookup (hash, tag) = some loc) ∨
      (∀ v, tag = .vdev v → v ∈ vdevs) ∧ s.recordAt tag loc = some hash := by
  rcases lookup_putAll h with hstripe | ⟨h, -⟩
  · obtain ⟨rfl, hrecord⟩ := recordAt_of_mem_scanStripes hstripe
    exact .inr ⟨by simp, hrecord⟩
  rcases lookup_putAll h with hscan | ⟨h, -⟩
  · obtain ⟨v, hv, hentry⟩ := mem_flatMap.1 hscan
    obtain ⟨rfl, hrecord⟩ := recordAt_of_mem_scan hentry
    refine .inr ⟨fun v' hv' ↦ ?_, hrecord⟩
    obtain rfl : v = v' := by simpa using hv'
    exact hv
  · cases file with
    | none => simp at h
    | some f => exact .inl ⟨f, rfl, h⟩

/-- Taking an index into use whose entries are all durable. -/
theorem Sound.useIndex (h : s.Sound) (v : VdevId) (index : Index Hash)
    (hindex : ∀ hash tag loc, index.entries.lookup (hash, tag) = some loc → s.durableAt tag loc = some hash) :
    (s.useIndex v index).Sound :=
  { h with
    index := fun hash tag loc hlookup ↦ recordAt_of_durableAt (hindex hash tag loc hlookup)
    cache := fun hash loc tag hget ↦
      recordAt_of_durableAt (hindex hash tag loc (lookup_of_preferred hget))
    file := fun file hfile ↦ by
      obtain rfl : index = file := by simpa [State.useIndex] using hfile
      exact hindex }

/-! ## Promotions -/

/-- Every record of the online devices is durable. -/
def OnlineDurable (s : State Hash) : Prop :=
  ∀ v ∈ s.online, ∀ id < s.nextSegmentId, ∀ seg ∈ s.segments v id, seg.records.length ≤ seg.durable

instance : Decidable s.OnlineDurable :=
  inferInstanceAs (Decidable (∀ v ∈ s.online, ∀ id < s.nextSegmentId, ∀ seg ∈ s.segments v id, _ ≤ _))

theorem durableAt_of_recordAt (hdurable : ∀ seg ∈ s.segments v loc.segmentId, seg.records.length ≤ seg.durable)
    (h : s.recordAt (.vdev v) loc = some hash) : s.durableAt (.vdev v) loc = some hash := by
  obtain ⟨seg, hseg, _⟩ := recordAt_vdev.1 h
  exact durableAt_vdev.2 ⟨seg, hseg, by rwa [take_of_length_le (hdurable seg hseg)]⟩

theorem SoundTask.promoteIndex (h : s.SoundTask) (htask : s.task = none) (hdurable : s.OnlineDurable)
    (hfile : ∀ v ∈ s.online.head?, s.indexFiles v = none)
    (hpromote : s.promoteIndex order unreadable = some t) : t.SoundTask := by
  unfold State.promoteIndex at hpromote
  split at hpromote
  · simp at hpromote
  next v _ honline =>
    obtain ⟨-, ⟨⟩⟩ := ite_none_right_eq_some.1 hpromote
    have hnone : s.indexFiles v = none := hfile v (by simp [honline])
    have hsound := h.sound.useIndex v
      (s.rebuildIndex (s.indexFiles v) s.online order unreadable s.generation) fun _ tag _ hlookup ↦ by
        rcases lookup_rebuildIndex hlookup with ⟨f, hf, -⟩ | ⟨hv, hrecord⟩
        · simp [hnone] at hf
        · cases tag with
          | striped => exact hrecord
          | vdev w =>
            obtain ⟨_, hseg, -⟩ := recordAt_vdev.1 hrecord
            exact durableAt_of_recordAt (hdurable w (hv w rfl) _ (lt_next_of_segment h.sound hseg)) hrecord
    exact ⟨{ hsound with }, fun _ heq ↦ by simp [useIndex, htask] at heq⟩

/-! ## Mounts -/

/-- A mount seals the open segments of the devices it finds. -/
def sealAll (s : State Hash) (vdevs : List VdevId) : State Hash :=
  { s with
    segments := fun v id ↦ if v ∈ vdevs then (s.segments v id).map Segment.sealed else s.segments v id
    writers := fun _ ↦ none
    pendingIndex := fun _ ↦ [] }

theorem sealAll_segments (vdevs : List VdevId) {id : SegmentId} {seg : Segment Hash}
    (hseg : s.segments v id = some seg) :
    ∃ seg', (s.sealAll vdevs).segments v id = some seg' ∧ seg'.records = seg.records ∧ seg.Extends seg' ∧
      (v ∈ vdevs → seg'.durable = seg'.records.length) := by
  simp only [sealAll]
  split_ifs with hv
  · exact ⟨seg.sealed, by simp [hseg], rfl, seg.extends_sealed, fun _ ↦ rfl⟩
  · exact ⟨seg, hseg, rfl, .refl seg, fun h ↦ absurd h hv⟩

theorem durableAt_sealAll
    (h : s.durableAt tag loc = some hash) : (s.sealAll vdevs).durableAt tag loc = some hash := by
  cases tag with
  | striped => exact h
  | vdev =>
    obtain ⟨_, hseg, hget⟩ := durableAt_vdev.1 h
    obtain ⟨seg', hseg', -, hext, -⟩ := sealAll_segments vdevs hseg
    exact durableAt_vdev.2 ⟨seg', hseg', getElem?_of_prefix hext.durable hget⟩

theorem durableAt_sealAll_of_recordAt
    (htag : ∀ v, tag = .vdev v → v ∈ vdevs) (h : s.recordAt tag loc = some hash) :
    (s.sealAll vdevs).durableAt tag loc = some hash := by
  cases tag with
  | striped => exact h
  | vdev v =>
    obtain ⟨_, hseg, hget⟩ := recordAt_vdev.1 h
    obtain ⟨seg', hseg', hrecords, -, hdurable⟩ := sealAll_segments vdevs hseg
    exact durableAt_vdev.2 ⟨seg', hseg', by rw [hdurable (htag v rfl), take_length, hrecords, hget]⟩

theorem SoundTask.mount (h : s.SoundTask) (hfile : ∀ v ∈ vdevs.head?, s.indexFiles v = none ∨ v = s.indexHome)
    (hmount : s.mount params vdevs order unreadable = some t) : t.SoundTask := by
  unfold State.mount at hmount
  split at hmount
  · simp at hmount
  next v rest =>
    obtain ⟨-, ⟨⟩⟩ := ite_none_right_eq_some.1 hmount
    set vdevs := v :: rest
    -- The only file that is read is the one last in use.
    have hhome : ∀ f, s.indexFiles v = some f → ∀ hash tag loc, f.entries.lookup (hash, tag) = some loc →
        s.durableAt tag loc = some hash := by
      intro f hf
      rcases hfile v rfl with hnone | rfl
      · simp [hnone] at hf
      · exact h.sound.file f hf
    set index := (s.trusts v vdevs).getD
      (s.rebuildIndex (s.indexFiles v) vdevs order unreadable (s.newestSlot vdevs)) with hindexdef
    have hindex : ∀ hash tag loc, index.entries.lookup (hash, tag) = some loc →
        (s.sealAll vdevs).durableAt tag loc = some hash := by
      intro hash tag loc hlookup
      rw [hindexdef] at hlookup
      cases htrust : s.trusts v vdevs with
      | some f =>
        rw [htrust, getD_some] at hlookup
        exact durableAt_sealAll (hhome f (filter_eq_some_iff.1 htrust).1 hash tag loc hlookup)
      | none =>
        rw [htrust, getD_none] at hlookup
        rcases lookup_rebuildIndex hlookup with ⟨f, hf, hold⟩ | ⟨htag, hrecord⟩
        · exact durableAt_sealAll (hhome f hf hash tag loc hold)
        · exact durableAt_sealAll_of_recordAt htag hrecord
    refine ⟨⟨fun id hid ↦ ⟨fun w ↦ ?_, (h.sound.fresh id hid).2⟩,
      fun hash tag loc hlookup ↦ recordAt_of_durableAt (s := s.sealAll vdevs) (hindex hash tag loc hlookup),
      fun hash loc tag hget ↦ recordAt_of_durableAt (s := s.sealAll vdevs)
        (hindex hash tag loc (lookup_of_preferred hget)),
      fun file hfile' ↦ ?_, by simp, by simp, by simp, by simp⟩, by simp⟩
    · simp [(h.sound.fresh id hid).1]
    · obtain rfl : index = file := by simpa [useIndex] using hfile'
      exact hindex

/-! ## Every run -/

/-- The index is committed only while all it names is durable; a copy that is moved on a device
other than the primary is not the one in the cache; a stripe replaces equal mirrors; a device
becomes the primary without an older index file, and not while the coalescer works. -/
def KeepsLocations (s : State Hash) : Action Hash → Prop
  | .heal _ _ _ => s.IndexDurable
  | .promoteIndex _ _ => s.task.isNone ∧ s.OnlineDurable ∧ ∀ v ∈ s.online.head?, (s.indexFiles v).isNone
  | .beginRestripe id => s.MirrorsEqual id
  | .coalesceStep _ => s.CoalescesSoundly
  | .checkpointStep _ _ => ∀ c ∈ s.checkpoint, c.phase = .commit → s.IndexDurable
  | .mount vdevs _ _ => ∀ v ∈ vdevs.head?, (s.indexFiles v).isNone ∨ v = s.indexHome
  | _ => True

instance (a : Action Hash) : Decidable (s.KeepsLocations a) := by
  cases a <;> unfold KeepsLocations <;> infer_instance

theorem Created.soundTask (h : s.Created) : s.SoundTask := by
  obtain ⟨hsegments, hstripes, hfile, hindex, -, hwriters, hpending, hcache, htask, -⟩ := h
  refine ⟨⟨fun id _ ↦ ⟨fun v ↦ hsegments v id, hstripes id⟩, by simp [hindex], by simp [hcache],
    fun _ heq ↦ ?_, by simp [hpending], by simp [hpending], by simp [hwriters], by simp [hwriters]⟩,
    by simp [htask]⟩
  cases hfile.symm.trans heq
  simp [hindex]

theorem SoundTask.moves (h : s.SoundTask) (hmoves : Moves (fun _ _ _ _ ↦ True) s t) : t.SoundTask := by
  obtain ⟨hsound, hframe, htask⟩ := h.sound.moves hmoves
  exact h.of_frame hsound hframe htask

theorem SoundTask.mountedStep (h : s.SoundTask) (hkeeps : s.KeepsLocations a)
    (hstep : s.mountedStep params a = some t) : t.SoundTask := by
  cases a with
  | openSegment =>
    obtain ⟨-, hstep⟩ := ite_none_right_eq_some.1 hstep
    obtain ⟨hsound, hframe⟩ := h.sound.openSegment hstep
    obtain ⟨-, ⟨⟩⟩ := ite_none_right_eq_some.1 hstep
    exact h.of_frame hsound hframe rfl
  | append _ hash => exact h.moves (moves_append (fun _ ↦ trivial) hstep)
  | dedupHit hash =>
    obtain ⟨-, ⟨⟩⟩ := ite_none_right_eq_some.1 hstep
    exact h.moves (.single (.acknowledge hash))
  | flush shard ok =>
    cases hstep
    exact h.moves (.single (.flush (.shard shard) ok))
  | fsync _ _ ok =>
    cases hstep
    exact h.moves (moves_fsync ok trivial)
  | closeSegment _ _ ok =>
    cases hstep
    exact h.moves (moves_closeSegment ok trivial)
  | putMeta hash => exact h.moves (moves_putMeta trivial hstep)
  | heal =>
    obtain ⟨hsound, hframe⟩ := h.sound.heal hkeeps hstep
    exact h.of_frame hsound hframe (task_heal hstep)
  | fault =>
    cases hstep
    exact h.of_frame { h.sound with } { Frame.refl s with } rfl
  | promoteIndex =>
    obtain ⟨htask, hdurable, hfile⟩ := hkeeps
    exact h.promoteIndex (isNone_iff_eq_none.1 htask) hdurable
      (fun v hv ↦ isNone_iff_eq_none.1 (hfile v hv)) hstep
  | promoteRole =>
    obtain ⟨v, -, rfl⟩ := map_eq_some_iff.1 hstep
    exact h.of_frame { h.sound with } { Frame.refl s with } rfl
  | beginRepack => exact h.beginRepack hstep
  | beginUnstripe => exact h.beginUnstripe hstep
  | beginRestripe => exact h.beginRestripe hkeeps hstep
  | coalesceStep => exact h.coalesceStep hkeeps hstep
  | coalesceError => exact h.coalesceError hstep
  | beginCheckpoint =>
    obtain ⟨-, ⟨⟩⟩ := ite_none_right_eq_some.1 hstep
    exact h.of_frame { h.sound with } { Frame.refl s with } rfl
  | checkpointStep =>
    obtain ⟨hsound, hframe, htask⟩ := h.sound.checkpointStep hkeeps hstep
    exact h.of_frame hsound hframe htask
  | crash =>
    cases hstep
    exact h.crash params
  | mount => simp [mountedStep] at hstep

theorem SoundTask.step (h : s.SoundTask) (hkeeps : s.KeepsLocations a)
    (hstep : s.step params a = some t) : t.SoundTask := by
  unfold State.step at hstep
  split at hstep
  · exact h.mountedStep hkeeps hstep
  · exact h.mount (fun v hv ↦ (hkeeps v hv).imp_left isNone_iff_eq_none.1) hstep
  · simp at hstep

theorem soundTask_of_reachable (hs : (indexing Hash params).ReachableUnder KeepsLocations s) : s.SoundTask :=
  hs.invariant (I := SoundTask) (fun _ (hcreated : Created _) ↦ hcreated.soundTask)
    fun _ _ _ _ h hkeeps hstep ↦ h.step hkeeps hstep

/-- In every state of a run whose steps keep locations, what the cache, the index in use and its
file hold for a hash and a device is a record with that hash on that device. -/
theorem locations_sound (hs : (indexing Hash params).ReachableUnder KeepsLocations s) :
    (∀ hash loc tag, s.cache hash = some (loc, tag) → s.recordAt tag loc = some hash) ∧
      (∀ hash tag loc, s.index.entries.lookup (hash, tag) = some loc → s.recordAt tag loc = some hash) ∧
      ∀ file, s.indexFiles s.indexHome = some file → ∀ hash tag loc,
        file.entries.lookup (hash, tag) = some loc → s.recordAt tag loc = some hash := by
  have h := (soundTask_of_reachable hs).sound
  exact ⟨h.cache, h.index, fun file hfile hash tag loc hlookup ↦
    recordAt_of_durableAt (h.file file hfile hash tag loc hlookup)⟩

/-! ## Two devices -/

section Runs

/-- A pool of two devices and one shard that has just been created. -/
def created : State Nat where
  segments _ _ := none
  stripes _ := none
  slots _ := 0
  indexFiles v := if v = 0 then some ⟨∅, 0⟩ else none
  indexHome := 0
  nextSegmentId := 0
  acked := []
  mounted := true
  online := [0, 1]
  primary := 0
  promoting := none
  writers _ := none
  pendingIndex _ := []
  index := ⟨∅, 0⟩
  cache _ := none
  generation := 0
  task := none
  checkpoint := none

def twoDevices : Params where
  vdevs := [0, 1]
  shards := [0]
  batch := 1024
  width := 2

theorem created_created : created.Created := by
  refine ⟨?_, ?_, ?_, ?_, ?_, ?_, ?_, ?_, ?_, ?_⟩ <;> intros <;> rfl

/-- The steps of a checkpoint, with other steps after its first barriers. -/
def checkpointRun (between : List (Action Nat)) : List (Action Nat) :=
  .beginCheckpoint :: List.replicate 3 (.checkpointStep [] true) ++ between ++
    List.replicate 7 (.checkpointStep [] true)

/-- Two records are written, sealed and published, a pass on device 1 keeps the second of them
in a new segment, and the pool is mounted again after a crash. -/
theorem locations_sound_repacked :
    ∃ s, (indexing Nat twoDevices).ReachableUnder KeepsLocations s ∧ s.mounted = true ∧
      s.cache 8 = some (⟨0, 1⟩, .vdev 0) ∧ s.recordAt (.vdev 0) ⟨0, 1⟩ = some 8 ∧
      s.index.entries.lookup (8, .vdev 1) = some ⟨1, 0⟩ ∧ s.recordAt (.vdev 1) ⟨1, 0⟩ = some 8 := by
  obtain ⟨s, hs, hm, hcache, hindex⟩ : ∃ s, (indexing Nat twoDevices).ReachableUnder KeepsLocations s ∧
      s.mounted = true ∧ s.cache 8 = some (⟨0, 1⟩, .vdev 0) ∧
      s.index.entries.lookup (8, .vdev 1) = some ⟨1, 0⟩ :=
    Machine.exists_of_run created_created ([.openSegment (.shard 0) [], .append 0 7 [] true, .append 0 8 [] true,
      .closeSegment (.shard 0) [] true] ++ checkpointRun [] ++ [.beginRepack 1 0 [1]] ++
      replicate 6 (.coalesceStep true) ++ [.crash, .mount [0, 1] (fun _ ↦ [0, 1]) []]) (by decide +kernel)
  have hsound := locations_sound hs
  exact ⟨s, hs, hm, hcache, hsound.1 8 _ _ hcache, hindex, hsound.2.1 8 _ _ hindex⟩

/-- A record is appended after a checkpoint's barrier and indexed before its commit. The crash
takes the record, the mount trusts the index, and a dedup hit finds the location. -/
theorem lost_record_is_dedup_target :
    ∃ s t, (indexing Nat twoDevices).Reachable s ∧ s.step twoDevices (.dedupHit 7) = some t ∧
      s.cache 7 = some (⟨0, 0⟩, .vdev 0) ∧ s.index.entries.lookup (7, .vdev 0) = some ⟨0, 0⟩ ∧
      s.recordAt (.vdev 0) ⟨0, 0⟩ = none ∧ s.recordAt (.vdev 1) ⟨0, 0⟩ = none := by
  exact Machine.exists_step_of_run created_created
    (checkpointRun [.openSegment (.shard 0) [], .append 0 7 [] true] ++
      [.crash, .mount [0, 1] (fun _ ↦ [0]) []]) (by decide +kernel)

end Runs

end State

end Lchfs.Index
