import Lchfs.Index.Soundness

/-!
# The coalescer keeps locations sound

A segment is deleted after the index has been repointed or told to forget, and after the cache
has. In each stage of a rewrite it is known of which hashes the index (in memory and in the
file) and the cache are clear for the old segment; when it is deleted they are clear of all
of its records, so nothing names it.
-/

set_option linter.unusedSectionVars false

namespace Lchfs.Index

open Lchfs.Format (ShardId SegmentId)
open Lchfs.Library
open List Option State Segment Entries

variable {Hash : Type} [DecidableEq Hash]

def Rewrite.hashes (r : Rewrite Hash) : List Hash :=
  r.kept.map (·.1)

theorem Segment.map_entries (id : SegmentId) (records : List Hash) :
    (entries id records).map (·.1) = records := by
  simp [entries, Function.comp_def]

theorem Rewrite.mem_entries {r : Rewrite Hash} {entry : (Hash × Tag) × Location} :
    entry ∈ r.entries ↔ ∃ record ∈ r.kept, ∃ v ∈ r.written, entry = ((record.1, .vdev v), record.2) := by
  simp [Rewrite.entries, eq_comm]

namespace State

variable {s t u : State Hash} {params : Params}
variable {targets vdevs : List VdevId} {id : SegmentId} {r : Rewrite Hash} {hash : Hash} {loc : Location}
  {records : List Hash} {v : VdevId} {keep : List Nat} {tag' : Tag}
  {removed : List (Hash × Location × Tag)} {kind : StreamKind} {owner : Stream} {kept : List Hash}

/-! ## Clear of a segment -/

/-- No index entry of this key is in the segment, in memory or in the file. -/
def IndexClear (s : State Hash) (tag : Tag) (id : SegmentId) (hash : Hash) : Prop :=
  (∀ loc, s.index.entries.lookup (hash, tag) = some loc → loc.segmentId ≠ id) ∧
    ∀ file, s.indexFiles s.indexHome = some file →
      ∀ loc, file.entries.lookup (hash, tag) = some loc → loc.segmentId ≠ id

/-- The cache entry of this hash is not in the segment. -/
def CacheClear (s : State Hash) (tag : Tag) (id : SegmentId) (hash : Hash) : Prop :=
  ∀ loc, s.cache hash = some (loc, tag) → loc.segmentId ≠ id

structure Cleared (s : State Hash) (r : Rewrite Hash) (index cache : List Hash) : Prop where
  index : ∀ hash ∈ index, s.IndexClear r.tag r.oldId hash
  cache : ∀ hash ∈ cache, s.CacheClear r.tag r.oldId hash

/-- What holds of a rewrite in every stage: each record of the old copy is kept or dead, the
old and the new copy are settled, and what is kept is durable in the new one. -/
structure Rewriting (s : State Hash) (r : Rewrite Hash) : Prop where
  covers : ∀ loc hash, loc.segmentId = r.oldId → s.recordAt r.tag loc = some hash →
    hash ∈ r.hashes ∨ hash ∈ r.dead
  old : s.Settled r.tag r.oldId
  new : r.kept ≠ [] → ∀ v ∈ r.written, s.Settled (.vdev v) r.newId
  kept : ∀ record ∈ r.kept, record.2.segmentId = r.newId ∧
    ∀ v ∈ r.written, s.durableAt (.vdev v) record.2 = some record.1
  distinct : r.newId ≠ r.oldId
  device : ∀ v, r.tag = .vdev v → r.written = [v]
  written : r.tag = .striped → (r.kept ≠ [] ↔ r.written ≠ [])

/-- Nothing names the new copy of a stripe's records yet. -/
def Unnamed (s : State Hash) (r : Rewrite Hash) : Prop :=
  ∀ v ∈ r.written, ∀ hash, s.IndexClear (.vdev v) r.newId hash ∧ s.CacheClear (.vdev v) r.newId hash

/-- The mirrors that a stripe replaces hold what it holds. -/
def Mirrors (s : State Hash) (id : SegmentId) (records : List Hash) (targets : List VdevId) : Prop :=
  ∀ v ∈ targets, s.Settled (.vdev v) id ∧ ∀ seg, s.segments v id = some seg → seg.records = records

def TaskInv (s : State Hash) : Task Hash → Prop
  | .repointIndex r => s.Rewriting r ∧ (r.tag = .striped → s.Cleared r r.dead r.dead)
  | .repointCache r =>
    s.Rewriting r ∧ s.Cleared r r.hashes [] ∧ (r.tag = .striped → s.Cleared r r.dead r.dead)
  | .removeCache r =>
    s.Rewriting r ∧ (r.tag = .striped → s.Unnamed r) ∧ (r.tag ≠ .striped → s.Cleared r r.hashes r.hashes)
  | .gate r removed =>
    s.Rewriting r ∧ (r.tag = .striped → s.Unnamed r) ∧
      (r.tag ≠ .striped → s.Cleared r r.hashes r.hashes) ∧ s.Cleared r [] r.dead ∧
      ∀ x ∈ removed, x.2.2 = r.tag ∧ s.recordAt x.2.2 x.2.1 = some x.1
  | .forget r =>
    s.Rewriting r ∧ (r.tag ≠ .striped → s.Cleared r r.hashes r.hashes) ∧ s.Cleared r [] r.dead
  | .delete r => s.Rewriting r ∧ s.Cleared r r.hashes r.hashes ∧ s.Cleared r r.dead r.dead
  | .stripeIndex id records targets => s.Mirrors id records targets ∧ s.stripes id = some records
  | .stripeCache id records targets =>
    s.Mirrors id records targets ∧ s.stripes id = some records ∧
      ∀ v ∈ targets, ∀ hash, s.IndexClear (.vdev v) id hash
  | .stripeDelete id targets =>
    ∀ v ∈ targets, s.Settled (.vdev v) id ∧
      ∀ hash, s.IndexClear (.vdev v) id hash ∧ s.CacheClear (.vdev v) id hash

/-! ## Other steps keep it -/

namespace Frame

variable {tag : Tag} {id : SegmentId} {hash : Hash}

section

variable (h : Frame s t)

include h

theorem indexClear (hs : s.Settled tag id) (hclear : s.IndexClear tag id hash) :
    t.IndexClear tag id hash := by
  constructor
  · rintro loc hlookup rfl
    rcases h.index _ loc hlookup with hold | hnot
    · exact hclear.1 loc hold rfl
    · exact hnot hs
  · rintro file' hfile' loc hlookup rfl
    rcases h.file file' hfile' _ loc hlookup with ⟨file, hfile, hold⟩ | hold | hnot
    · exact hclear.2 file hfile loc hold rfl
    · exact hclear.1 loc hold rfl
    · exact hnot hs

theorem cacheClear (hs : s.Settled tag id) (hclear : s.CacheClear tag id hash) :
    t.CacheClear tag id hash := by
  rintro loc hget rfl
  rcases h.cache hash loc tag hget with hold | hnot
  · exact hclear loc hold rfl
  · exact hnot hs

theorem cleared (hs : s.Settled r.tag r.oldId) {index cache : List Hash}
    (hclear : s.Cleared r index cache) : t.Cleared r index cache :=
  ⟨fun hash hmem ↦ h.indexClear hs (hclear.index hash hmem),
    fun hash hmem ↦ h.cacheClear hs (hclear.cache hash hmem)⟩

theorem rewriting (hr : s.Rewriting r) : t.Rewriting r :=
  { hr with
    covers := fun loc hash hloc hrecord ↦
      hr.covers loc hash hloc ((h.recordAt_settled (hloc ▸ hr.old)).symm.trans hrecord)
    old := h.settled hr.old
    new := fun hkept v hv ↦ h.settled (hr.new hkept v hv)
    kept := fun record hrecord ↦ ⟨(hr.kept record hrecord).1,
      fun v hv ↦ h.durableAt ((hr.kept record hrecord).2 v hv)⟩ }

theorem unnamed (hr : s.Rewriting r) (hstriped : r.tag = .striped)
    (hunnamed : s.Unnamed r) : t.Unnamed r := by
  intro v hv hash
  have hkept : r.kept ≠ [] := (hr.written hstriped).2 (ne_nil_of_mem hv)
  have hs := hr.new hkept v hv
  exact ⟨h.indexClear hs (hunnamed v hv hash).1, h.cacheClear hs (hunnamed v hv hash).2⟩

theorem mirrors (hm : s.Mirrors id records targets) : t.Mirrors id records targets := fun v hv ↦
  ⟨h.settled (hm v hv).1, fun seg hseg ↦ (hm v hv).2 seg (h.same v id (hm v hv).1 ▸ hseg)⟩

theorem taskInv {task : Task Hash} (hinv : s.TaskInv task) : t.TaskInv task := by
  cases task with
  | repointIndex => exact ⟨h.rewriting hinv.1, fun hr ↦ h.cleared hinv.1.old (hinv.2 hr)⟩
  | repointCache =>
    exact ⟨h.rewriting hinv.1, h.cleared hinv.1.old hinv.2.1, fun hr ↦ h.cleared hinv.1.old (hinv.2.2 hr)⟩
  | removeCache =>
    exact ⟨h.rewriting hinv.1, fun hr ↦ h.unnamed hinv.1 hr (hinv.2.1 hr),
      fun hr ↦ h.cleared hinv.1.old (hinv.2.2 hr)⟩
  | gate =>
    obtain ⟨hr, hunnamed, hkept, hdead, hremoved⟩ := hinv
    exact ⟨h.rewriting hr, fun htag ↦ h.unnamed hr htag (hunnamed htag),
      fun htag ↦ h.cleared hr.old (hkept htag), h.cleared hr.old hdead,
      fun x hx ↦ ⟨(hremoved x hx).1, h.recordAt (hremoved x hx).2⟩⟩
  | forget =>
    exact ⟨h.rewriting hinv.1, fun hr ↦ h.cleared hinv.1.old (hinv.2.1 hr), h.cleared hinv.1.old hinv.2.2⟩
  | delete =>
    exact ⟨h.rewriting hinv.1, h.cleared hinv.1.old hinv.2.1, h.cleared hinv.1.old hinv.2.2⟩
  | stripeIndex => exact ⟨h.mirrors hinv.1, by rw [h.stripes, hinv.2]⟩
  | stripeCache =>
    exact ⟨h.mirrors hinv.1, by rw [h.stripes, hinv.2.1],
      fun v hv hash ↦ h.indexClear (hinv.1 v hv).1 (hinv.2.2 v hv hash)⟩
  | stripeDelete =>
    exact fun v hv ↦ ⟨h.settled (hinv v hv).1,
      fun hash ↦ ⟨h.indexClear (hinv v hv).1 ((hinv v hv).2 hash).1,
        h.cacheClear (hinv v hv).1 ((hinv v hv).2 hash).2⟩⟩

end

end Frame

/-! ## Deleting -/

/-- Nothing names a segment of these devices any more, so it can go. -/
theorem Sound.removeSegment (h : s.Sound) (hclear : ∀ v ∈ vdevs, s.Settled (.vdev v) id ∧
      ∀ hash, s.IndexClear (.vdev v) id hash ∧ s.CacheClear (.vdev v) id hash) :
    (s.removeSegment vdevs id).Sound := by
  have hsame : ∀ v i, (i = id → v ∉ vdevs) → (s.removeSegment vdevs id).segments v i = s.segments v i := by
    intro v i hne
    simp only [State.removeSegment]
    exact if_neg fun hmem ↦ hne hmem.1 hmem.2
  have hopen : ∀ {stream i}, s.OpenFor stream i → (s.removeSegment vdevs id).OpenFor stream i := by
    intro _ i hi
    refine ⟨hi.1, fun v seg hseg ↦ hi.2 v seg ?_⟩
    simp only [State.removeSegment] at hseg
    split_ifs at hseg
    exact hseg
  -- A location that is still named is not in the segment.
  have hrecord : ∀ tag loc hash, (∀ v ∈ vdevs, tag = .vdev v → loc.segmentId ≠ id) →
      s.recordAt tag loc = some hash → (s.removeSegment vdevs id).recordAt tag loc = some hash := by
    intro tag _ _ hne hget
    cases tag with
    | striped => exact hget
    | vdev v =>
      rw [recordAt, hsame v _ fun heq hv ↦ hne v hv rfl heq]
      exact hget
  refine ⟨fun i hi ↦ ⟨fun v ↦ ?_, (h.fresh i hi).2⟩,
    fun hash tag loc hlookup ↦ hrecord tag loc hash ?_ (h.index hash tag loc hlookup),
    fun hash loc tag hget ↦ hrecord tag loc hash ?_ (h.cache hash loc tag hget),
    fun file hfile hash tag loc hlookup ↦ ?_,
    fun stream e he v hv ↦ hrecord _ _ _ ?_ (h.pending stream e he v hv),
    fun stream e he ↦ hopen (h.batch stream e he), fun stream w hw ↦ hopen (h.writer stream w hw),
    fun stream w hw v hv ↦ ?_⟩
  · simp [State.removeSegment, (h.fresh i hi).1]
  · rintro v hv rfl
    exact ((hclear v hv).2 hash).1.1 loc hlookup
  · rintro v hv rfl
    exact ((hclear v hv).2 hash).2 loc hget
  · have hdurable := h.file file hfile hash tag loc hlookup
    cases tag with
    | striped => exact hdurable
    | vdev v =>
      rw [durableAt, hsame v _ fun heq hv ↦ ((hclear v hv).2 hash).1.2 file hfile loc hlookup heq]
      exact hdurable
  · intro v' hv' htag heq
    obtain rfl : v = v' := by simpa using htag
    obtain ⟨_, hseg, -⟩ := recordAt_vdev.1 (h.pending stream e he v hv)
    exact (h.batch stream e he).not_settled hseg (heq ▸ (hclear v hv').1)
  · obtain ⟨seg, hseg, hlen⟩ := h.cursor stream w hw v hv
    refine ⟨seg, ?_, hlen⟩
    rw [hsame v _ fun heq hv' ↦ ?_, hseg]
    exact (h.writer stream w hw).not_settled hseg (heq ▸ (hclear v hv').1)

theorem Sound.removeStripe (h : s.Sound)
    (hclear : ∀ hash, s.IndexClear .striped id hash ∧ s.CacheClear .striped id hash) :
    { s with stripes := fun i ↦ if i = id then none else s.stripes i }.Sound := by
  have hrecord : ∀ tag loc hash, (tag = .striped → loc.segmentId ≠ id) → s.recordAt tag loc = some hash →
      { s with stripes := fun i ↦ if i = id then none else s.stripes i }.recordAt tag loc = some hash := by
    intro tag _ _ hne hget
    cases tag with
    | striped => simpa [recordAt, hne rfl] using hget
    | vdev => exact hget
  refine { h with
    fresh := fun i hi ↦ ⟨(h.fresh i hi).1, by simp [(h.fresh i hi).2]⟩
    index := fun hash tag loc hlookup ↦ hrecord tag loc hash ?_ (h.index hash tag loc hlookup)
    cache := fun hash loc tag hget ↦ hrecord tag loc hash ?_ (h.cache hash loc tag hget)
    file := fun file hfile hash tag loc hlookup ↦ ?_ }
  · rintro rfl
    exact (hclear hash).1.1 loc hlookup
  · rintro rfl
    exact (hclear hash).2 loc hget
  · have hdurable := h.file file hfile hash tag loc hlookup
    cases tag with
    | striped => simpa [durableAt, (hclear hash).1.2 file hfile loc hlookup] using hdurable
    | vdev => exact hdurable

/-- When the index and the cache are clear of the kept and of the dead records, they are clear
of the old segment. -/
theorem Rewriting.clear (h : s.Sound) (hr : s.Rewriting r)
    (hkept : s.Cleared r r.hashes r.hashes) (hdead : s.Cleared r r.dead r.dead) (hash : Hash) :
    s.IndexClear r.tag r.oldId hash ∧ s.CacheClear r.tag r.oldId hash := by
  refine ⟨⟨fun loc hlookup hloc ↦ ?_, fun file hfile loc hlookup hloc ↦ ?_⟩, fun loc hget hloc ↦ ?_⟩
  · rcases hr.covers loc hash hloc (h.index hash _ loc hlookup) with hmem | hmem
    · exact (hkept.index hash hmem).1 loc hlookup hloc
    · exact (hdead.index hash hmem).1 loc hlookup hloc
  · have hrecord := recordAt_of_durableAt (h.file file hfile hash _ loc hlookup)
    rcases hr.covers loc hash hloc hrecord with hmem | hmem
    · exact (hkept.index hash hmem).2 file hfile loc hlookup hloc
    · exact (hdead.index hash hmem).2 file hfile loc hlookup hloc
  · rcases hr.covers loc hash hloc (h.cache hash loc _ hget) with hmem | hmem
    · exact hkept.cache hash hmem loc hget hloc
    · exact hdead.cache hash hmem loc hget hloc

theorem Sound.deleteOld (h : s.Sound) (hr : s.Rewriting r)
    (hkept : s.Cleared r r.hashes r.hashes) (hdead : s.Cleared r r.dead r.dead) : (s.deleteOld r).Sound := by
  have hclear := hr.clear h hkept hdead
  unfold State.deleteOld
  split
  next v htag =>
    refine h.removeSegment fun _ hv' ↦ ?_
    obtain rfl := mem_singleton.1 hv'
    exact ⟨htag ▸ hr.old, htag ▸ hclear⟩
  next htag => exact h.removeStripe (htag ▸ hclear)

/-! ## The index is repointed -/

theorem Rewriting.recordAt (hr : s.Rewriting r) :
    ∀ entry ∈ r.entries, s.durableAt entry.1.2 entry.2 = some entry.1.1 := by
  intro _ hentry
  obtain ⟨record, hrecord, v, hv, rfl⟩ := Rewrite.mem_entries.1 hentry
  exact (hr.kept record hrecord).2 v hv

/-- A commit leaves the file with what is in memory. -/
theorem indexClear_commitIndex (s : State Hash) (tag : Tag) (id : SegmentId) (hash : Hash)
    (h : ∀ loc, s.index.entries.lookup (hash, tag) = some loc → loc.segmentId ≠ id) :
    s.commitIndex.IndexClear tag id hash := by
  refine ⟨h, fun file hfile ↦ ?_⟩
  obtain rfl : s.index = file := by simpa [commitIndex] using hfile
  exact h

/-- The entries a rewrite of a segment or a stripe puts and erases, committed at once. -/
theorem Sound.repoint (h : s.Sound) (hdurable : s.IndexDurable) (id : SegmentId)
    (keys : List (Hash × Tag)) {entries : List ((Hash × Tag) × Location)}
    (hentries : ∀ entry ∈ entries, s.durableAt entry.1.2 entry.2 = some entry.1.1) :
    ((s.eraseIndex id keys).putIndex entries).commitIndex.Sound := by
  have hput : ((s.eraseIndex id keys).putIndex entries).Sound :=
    (h.eraseIndex id keys).putIndex fun entry hentry ↦ recordAt_of_durableAt (hentries entry hentry)
  refine hput.commitIndex fun _ _ _ hlookup ↦ ?_
  rcases lookup_putAll hlookup with hnew | ⟨hold, -⟩
  · exact hentries _ hnew
  · exact hdurable.lookup (lookup_eraseIn hold).1

theorem Sound.repointIndex (h : s.Sound) (hdurable : s.IndexDurable)
    (hr : s.Rewriting r) : (s.repointIndex r).Sound := by
  unfold State.repointIndex
  split
  · exact h.repoint hdurable r.oldId [] hr.recordAt
  · exact h.repoint hdurable r.oldId _ hr.recordAt

theorem Rewriting.repointIndex (hr : s.Rewriting r) : (s.repointIndex r).Rewriting r := by
  unfold State.repointIndex
  split <;> exact { hr with }

theorem taskInv_repointIndex (hinv : s.TaskInv (.repointIndex r)) : (s.repointIndex r).TaskInv (.repointCache r) := by
  obtain ⟨hr, hdead⟩ := hinv
  refine ⟨hr.repointIndex, ⟨fun hash hmem ↦ ?_, by simp⟩, fun htag ↦ ⟨fun hash hmem ↦ ?_, ?_⟩⟩
  · obtain ⟨record, hrecord, rfl⟩ := mem_map.1 hmem
    unfold repointIndex
    split
    next v htag =>
      -- The key of a kept record is put again, so what is found for it is the new copy.
      refine htag ▸ indexClear_commitIndex _ _ _ _ fun loc hlookup ↦ ?_
      rcases lookup_putAll hlookup with hnew | ⟨-, hmiss⟩
      · obtain ⟨record', hrecord', _, -, heq⟩ := Rewrite.mem_entries.1 hnew
        obtain ⟨-, rfl⟩ := Prod.mk.inj heq
        exact (hr.kept record' hrecord').1 ▸ hr.distinct
      · refine absurd rfl (hmiss ((record.1, .vdev v), record.2) (Rewrite.mem_entries.2
          ⟨record, hrecord, v, ?_, rfl⟩))
        simp [hr.device v htag]
    next htag =>
      rw [htag]
      refine indexClear_commitIndex _ _ _ _ fun loc hlookup ↦ ?_
      rcases lookup_putAll hlookup with hnew | ⟨hold, -⟩
      · obtain ⟨_, -, _, -, heq⟩ := Rewrite.mem_entries.1 hnew
        simp at heq
      · exact (lookup_eraseIn hold).2 (mem_map.2 ⟨record, hrecord, rfl⟩)
  · unfold repointIndex
    rw [htag]
    refine indexClear_commitIndex _ _ _ _ fun loc hlookup ↦ ?_
    rcases lookup_putAll hlookup with hnew | ⟨hold, -⟩
    · obtain ⟨_, -, _, -, heq⟩ := Rewrite.mem_entries.1 hnew
      simp at heq
    · exact ((hdead htag).index hash hmem).1 loc (htag ▸ (lookup_eraseIn hold).1)
  · have hcache := (hdead htag).cache
    unfold repointIndex
    split <;> exact hcache

/-! ## The cache is repointed -/

theorem putCacheAll_cache {tag : Tag} {records : List (Hash × Location)}
    (h : (s.putCacheAll tag records).cache hash = some (loc, tag')) :
    (hash, loc) ∈ records ∧ tag' = tag ∨ s.cache hash = some (loc, tag') ∧ hash ∉ records.map (·.1) := by
  have hread := foldl_read (fun (s : State Hash) record ↦ s.putCache record.1 record.2 tag)
    (fun s ↦ s.cache hash) (fun record : Hash × Location ↦ record.1 = hash)
    (fun record ↦ some (record.2, tag))
    (fun s record heq ↦ by simp [putCache, heq]) (fun s record hne ↦ by simp [putCache, Ne.symm hne]) records s
  rcases hread with ⟨record, hmem, rfl, heq⟩ | ⟨hmiss, heq⟩
  · cases heq.symm.trans h
    exact .inl ⟨hmem, rfl⟩
  · refine .inr ⟨heq.symm.trans h, fun hmem ↦ ?_⟩
    obtain ⟨record, hrecord, hhash⟩ := mem_map.1 hmem
    exact hmiss record hrecord hhash

/-- Putting entries into the cache changes nothing else. -/
theorem putCacheAll_eq (tag : Tag) (records : List (Hash × Location)) :
    s.putCacheAll tag records = { s with cache := (s.putCacheAll tag records).cache } := by
  induction records generalizing s with
  | nil => rfl
  | cons _ _ ih =>
    rw [putCacheAll, foldl_cons, ← putCacheAll, ih]
    rfl

theorem Rewriting.setCache (hr : s.Rewriting r) (cache : Hash → Option (Location × Tag)) :
    { s with cache := cache }.Rewriting r :=
  { hr with }

theorem repointCache_eq (r : Rewrite Hash) :
    s.repointCache r = { s with cache := (s.repointCache r).cache } := by
  unfold repointCache
  split
  · split
    · exact putCacheAll_eq _ _
    · rfl
  · rfl
  · exact putCacheAll_eq _ _

theorem Sound.repointCache (h : s.Sound) (hr : s.Rewriting r) : (s.repointCache r).Sound := by
  have hput : ∀ v ∈ r.written, (s.putCacheAll (.vdev v) r.kept).Sound := fun v hv ↦
    h.putCacheAll fun record hrecord ↦ recordAt_of_durableAt ((hr.kept record hrecord).2 v hv)
  unfold State.repointCache
  split
  next v htag =>
    split_ifs
    · exact hput v (by simp [hr.device v htag])
    · exact h
  · exact h
  next first _ _ hwritten => exact hput first (by simp [hwritten])

/-- After the cache is repointed it has no kept record in the old segment, unless the segment
is on a device that is not the primary and the cache named that copy. -/
theorem cleared_repointCache (hr : s.Rewriting r)
    (hother : ∀ v, r.tag = .vdev v → v ≠ s.primary → ∀ record ∈ r.kept, s.cachedIn (.vdev v) r.oldId record.1 = false)
    (hash : Hash) (hmem : hash ∈ r.hashes) : (s.repointCache r).CacheClear r.tag r.oldId hash := by
  have hput : ∀ v, r.tag = .vdev v ∨ r.tag = .striped →
      (s.putCacheAll (.vdev v) r.kept).CacheClear r.tag r.oldId hash := by
    intro v _ _ hget
    rcases putCacheAll_cache hget with ⟨hnew, _⟩ | ⟨-, hmiss⟩
    · exact (hr.kept _ hnew).1 ▸ hr.distinct
    · exact absurd hmem hmiss
  unfold repointCache
  split
  next v htag =>
    split_ifs with hprimary
    · exact hput v (.inl htag)
    · obtain ⟨record, hrecord, rfl⟩ := mem_map.1 hmem
      intro _ hget hloc
      simpa [cachedIn, hget, hloc, htag] using hother v htag hprimary record hrecord
  next htag hwritten =>
    have hkept : r.kept = [] := not_not.1 fun hkept ↦ (hr.written htag).1 hkept hwritten
    simp [Rewrite.hashes, hkept] at hmem
  next first _ htag _ => exact hput first (.inr htag)

theorem taskInv_repointCache (hinv : s.TaskInv (.repointCache r))
    (hother : ∀ v, r.tag = .vdev v → v ≠ s.primary → ∀ record ∈ r.kept, s.cachedIn (.vdev v) r.oldId record.1 = false) :
    (s.repointCache r).TaskInv (if r.tag = .striped then .delete r else .removeCache r) := by
  obtain ⟨hr, hkept, hdead⟩ := hinv
  have hrewriting : (s.repointCache r).Rewriting r := repointCache_eq (s := s) r ▸ hr.setCache _
  have hindex : ∀ {hash}, s.IndexClear r.tag r.oldId hash → (s.repointCache r).IndexClear r.tag r.oldId hash :=
    fun hclear ↦ repointCache_eq (s := s) r ▸ hclear
  have hcleared : (s.repointCache r).Cleared r r.hashes r.hashes :=
    ⟨fun hash hmem ↦ hindex (hkept.index hash hmem), cleared_repointCache hr hother⟩
  split_ifs with htag
  · refine ⟨hrewriting, hcleared, fun hash hmem ↦ hindex ((hdead htag).index hash hmem), fun hash hmem loc hget ↦ ?_⟩
    -- The cache is repointed to mirrors, so what it has in a stripe it had before.
    unfold repointCache at hget
    rw [htag] at hget
    split at hget
    · exact absurd htag (by simp_all)
    · exact (hdead htag).cache hash hmem loc (htag ▸ hget)
    · rcases putCacheAll_cache hget with ⟨-, heq⟩ | ⟨hold, -⟩
      · simp at heq
      · exact (hdead htag).cache hash hmem loc (htag ▸ hold)
  · exact ⟨hrewriting, fun h ↦ absurd h htag, fun _ ↦ hcleared⟩

/-! ## Dead records leave the cache and the index -/

theorem cache_of_removeCacheIn {tag : Tag} {hashes : List Hash}
    (hget : (s.removeCacheIn tag id hashes).cache hash = some (loc, tag')) :
    s.cache hash = some (loc, tag') := by
  simp only [removeCacheIn] at hget
  split_ifs at hget
  exact hget

theorem Sound.removeCacheIn (h : s.Sound) (tag : Tag) (id : SegmentId) (hashes : List Hash) :
    (s.removeCacheIn tag id hashes).Sound :=
  { h with cache := fun hash loc tag' hget ↦ h.cache hash loc tag' (cache_of_removeCacheIn hget) }

theorem taskInv_removeCache (h : s.Sound) (hinv : s.TaskInv (.removeCache r)) :
    (s.removeCacheIn r.tag r.oldId r.dead).TaskInv (.gate r (s.removedFrom r)) := by
  obtain ⟨hr, hunnamed, hkept⟩ := hinv
  refine ⟨hr.setCache _, fun htag v hv hash ↦ ⟨(hunnamed htag v hv hash).1, fun loc hget ↦
      (hunnamed htag v hv hash).2 loc (cache_of_removeCacheIn hget)⟩,
    fun htag ↦ ⟨(hkept htag).index, fun hash hmem loc hget ↦
      (hkept htag).cache hash hmem loc (cache_of_removeCacheIn hget)⟩,
    ⟨by simp, fun hash hmem loc hget hloc ↦ ?_⟩, fun x hx ↦ ?_⟩
  · have hold := cache_of_removeCacheIn hget
    simp [removeCacheIn, hmem, cachedIn, hold, hloc] at hget
  · obtain ⟨hash, -, hx⟩ := mem_filterMap.1 hx
    obtain ⟨hcached, hx⟩ := ite_none_right_eq_some.1 hx
    obtain ⟨⟨loc, tag⟩, hget, rfl⟩ := map_eq_some_iff.1 hx
    refine ⟨?_, h.cache hash loc tag hget⟩
    simp only [cachedIn, hget, any_some, decide_eq_true_eq] at hcached
    exact hcached.2

theorem Sound.restoreCache (h : s.Sound)
    (hremoved : ∀ x ∈ removed, s.recordAt x.2.2 x.2.1 = some x.1) :
    (s.restoreCache removed).Sound :=
  { h with
    cache := fun hash loc tag hget ↦ by
      simp only [State.restoreCache, or_eq_some_iff, map_eq_some_iff] at hget
      rcases hget with hget | ⟨-, x, hfind, hx⟩
      · exact h.cache hash loc tag hget
      · have hhash : x.1 = hash := by simpa using find?_some hfind
        have hrecord := hremoved x (mem_of_find?_eq_some hfind)
        rw [hx, hhash] at hrecord
        exact hrecord }

theorem Sound.backOff (h : s.Sound) (hinv : s.TaskInv (.gate r removed)) :
    (s.backOff r removed).Sound := by
  obtain ⟨hr, hunnamed, -, -, hremoved⟩ := hinv
  have hrestore := h.restoreCache fun x hx ↦ (hremoved x hx).2
  unfold State.backOff
  split
  · exact hrestore
  next htag =>
    refine hrestore.removeSegment fun v hv ↦ ?_
    have hkept : r.kept ≠ [] := (hr.written htag).2 (ne_nil_of_mem hv)
    refine ⟨hr.new hkept v hv, fun hash ↦ ⟨(hunnamed htag v hv hash).1, fun loc hget ↦ ?_⟩⟩
    -- What is restored was in the stripe, not in its new copy.
    simp only [State.restoreCache, or_eq_some_iff, map_eq_some_iff] at hget
    rcases hget with hget | ⟨-, x, hfind, hx⟩
    · exact (hunnamed htag v hv hash).2 loc hget
    · have hxtag := (hremoved x (mem_of_find?_eq_some hfind)).1
      rw [hx, htag] at hxtag
      simp at hxtag

theorem Sound.forgetDead (h : s.Sound) (hdurable : s.IndexDurable) (params : Params) (r : Rewrite Hash) :
    (s.forgetDead params r).Sound := by
  have hrepoint := h.repoint hdurable r.oldId (r.dead.map fun h ↦ (h, r.tag)) (forall_mem_nil _)
  exact { hrepoint with }

theorem taskInv_forgetDead (params : Params) (hinv : s.TaskInv (.forget r)) :
    (s.forgetDead params r).TaskInv (if r.tag = .striped then .repointIndex r else .delete r) := by
  obtain ⟨hr, hkept, hdead⟩ := hinv
  have hrewriting : (s.forgetDead params r).Rewriting r := { hr with }
  have hclear : ∀ hash, (∀ loc, (s.forgetDead params r).index.entries.lookup (hash, r.tag) = some loc →
      loc.segmentId ≠ r.oldId) → (s.forgetDead params r).IndexClear r.tag r.oldId hash := fun hash h ↦
    ⟨h, (indexClear_commitIndex (s.eraseIndex r.oldId (r.dead.map fun h ↦ (h, r.tag))) _ _ hash h).2⟩
  have hcleared : (s.forgetDead params r).Cleared r r.dead r.dead :=
    ⟨fun hash hmem ↦ hclear hash fun loc hlookup ↦
      (lookup_eraseIn hlookup).2 (mem_map.2 ⟨hash, hmem, rfl⟩), hdead.cache⟩
  split_ifs with htag
  · exact ⟨hrewriting, fun _ ↦ hcleared⟩
  · refine ⟨hrewriting, ⟨fun hash hmem ↦ hclear hash fun loc hlookup ↦ ?_, (hkept htag).cache⟩, hcleared⟩
    exact ((hkept htag).index hash hmem).1 loc (lookup_eraseIn hlookup).1

/-! ## Stripes -/

theorem mem_restripeKeys (hv : v ∈ targets) (hhash : hash ∈ records) :
    (hash, Tag.vdev v) ∈ records.flatMap fun h ↦ targets.map fun v ↦ (h, Tag.vdev v) :=
  mem_flatMap.2 ⟨hash, hhash, mem_map.2 ⟨v, hv, rfl⟩⟩

/-- A location in a mirror names one of the records the stripe holds. -/
theorem Mirrors.mem (hm : s.Mirrors id records targets) (hv : v ∈ targets)
    (hloc : loc.segmentId = id) (hrecord : s.recordAt (.vdev v) loc = some hash) : hash ∈ records := by
  obtain ⟨seg, hseg, hget⟩ := recordAt_vdev.1 hrecord
  rw [← (hm v hv).2 seg (hloc ▸ hseg)]
  exact mem_of_getElem? hget

theorem stripe_durableAt (hstripe : s.stripes id = some records) :
    ∀ record ∈ entries id records, s.durableAt .striped record.2 = some record.1 := by
  rintro ⟨_, _⟩ hrecord
  obtain ⟨hloc, hget⟩ := mem_entries.1 hrecord
  simp [durableAt, hloc, hstripe, hget]

theorem Sound.restripeIndex (h : s.Sound) (hdurable : s.IndexDurable) (hstripe : s.stripes id = some records) :
    (s.restripeIndex id records targets).Sound := by
  refine h.repoint hdurable id _ fun _ hentry ↦ ?_
  obtain ⟨record, hrecord, rfl⟩ := mem_map.1 hentry
  exact stripe_durableAt hstripe record hrecord

theorem taskInv_restripeIndex (h : s.Sound) (hinv : s.TaskInv (.stripeIndex id records targets)) :
    (s.restripeIndex id records targets).TaskInv (.stripeCache id records targets) := by
  obtain ⟨hm, hstripe⟩ := hinv
  refine ⟨hm, hstripe, fun v hv hash ↦ indexClear_commitIndex _ _ _ _ fun loc hlookup hloc ↦ ?_⟩
  rcases lookup_putAll hlookup with hnew | ⟨hold, -⟩
  · obtain ⟨_, -, heq⟩ := mem_map.1 hnew
    simp at heq
  · obtain ⟨hold, hne⟩ := lookup_eraseIn hold
    exact hne (mem_restripeKeys hv (hm.mem hv hloc (h.index hash _ loc hold))) hloc

theorem Sound.stripeCache (h : s.Sound) (hstripe : s.stripes id = some records) :
    (s.putCacheAll .striped (entries id records)).Sound :=
  h.putCacheAll fun record hrecord ↦ recordAt_of_durableAt (stripe_durableAt hstripe record hrecord)

theorem taskInv_stripeCache (h : s.Sound) (hinv : s.TaskInv (.stripeCache id records targets)) :
    (s.putCacheAll .striped (entries id records)).TaskInv (.stripeDelete id targets) := by
  obtain ⟨hm, -, hindex⟩ := hinv
  intro v hv
  have hsettled : (s.putCacheAll .striped (entries id records)).Settled (.vdev v) id :=
    putCacheAll_eq (s := s) .striped (entries id records) ▸ (hm v hv).1
  refine ⟨hsettled, fun hash ↦ ⟨?_, fun loc hget hloc ↦ ?_⟩⟩
  · exact putCacheAll_eq (s := s) .striped (entries id records) ▸ hindex v hv hash
  · rcases putCacheAll_cache hget with ⟨-, heq⟩ | ⟨hold, hmiss⟩
    · simp at heq
    · rw [map_entries] at hmiss
      exact hmiss (hm.mem hv hloc (h.cache hash loc _ hold))

/-- Deleting one mirror leaves the others as they are. -/
theorem taskInv_stripeDelete (hinv : s.TaskInv (.stripeDelete id (v :: targets))) :
    (s.removeSegment [v] id).TaskInv (.stripeDelete id targets) := by
  intro v' hv'
  obtain ⟨hsettled, hclear⟩ := hinv v' (mem_cons_of_mem _ hv')
  refine ⟨⟨hsettled.1, fun v'' hv'' seg hseg ↦ hsettled.2 v'' hv'' seg ?_⟩, hclear⟩
  simp only [removeSegment] at hseg
  split_ifs at hseg
  exact hseg

/-! ## A step of the coalescer -/

/-- What a step of the coalescer asks for: an index commit while all the index names is
durable, and no cache entry for a copy that is moved on a device other than the primary. -/
def CoalescesSoundly (s : State Hash) : Prop :=
  match s.task with
  | some (.repointIndex _) | some (.forget _) | some (.stripeIndex _ _ _) => s.IndexDurable
  | some (.repointCache r) => ∀ v ∈ r.written, r.tag = .vdev v → v ≠ s.primary →
      ∀ record ∈ r.kept, s.cachedIn (.vdev v) r.oldId record.1 = false
  | _ => True

instance : Decidable s.CoalescesSoundly := by
  unfold CoalescesSoundly
  split <;> infer_instance

/-- The locations are sound, and so is what the coalescer goes by. -/
structure SoundTask (s : State Hash) : Prop where
  sound : s.Sound
  task : ∀ task, s.task = some task → s.TaskInv task

theorem SoundTask.of_frame (h : s.SoundTask) (hsound : t.Sound) (hframe : Frame s t) (htask : t.task = s.task) :
    t.SoundTask :=
  ⟨hsound, fun task heq ↦ hframe.taskInv (h.task task (htask ▸ heq))⟩

theorem soundTask_setTask {task : Option (Task Hash)} (hsound : s.Sound)
    (htask : ∀ t, task = some t → s.TaskInv t) : (s.setTask task).SoundTask := by
  refine ⟨{ hsound with }, fun task' heq ↦ ?_⟩
  have hinv := htask task' heq
  have hframe : Frame s (s.setTask task) := { Frame.refl s with }
  exact hframe.taskInv hinv

theorem soundTask_nextTask {task : Task Hash} (hsound : s.Sound) (htask : s.TaskInv task) :
    (s.setTask (some task)).SoundTask :=
  soundTask_setTask hsound fun _ heq ↦ some.inj heq ▸ htask

theorem SoundTask.coalesceStep (h : s.SoundTask) {proceed : Bool} (hcond : s.CoalescesSoundly)
    (hstep : s.coalesceStep params proceed = some t) : t.SoundTask := by
  obtain ⟨task, htask, rfl⟩ := map_eq_some_iff.1 hstep
  have hinv := h.task task htask
  simp only [CoalescesSoundly, htask] at hcond
  cases task with
  | repointIndex =>
    exact soundTask_nextTask (h.sound.repointIndex hcond hinv.1) (taskInv_repointIndex hinv)
  | repointCache =>
    refine soundTask_nextTask (h.sound.repointCache hinv.1) (taskInv_repointCache hinv fun v htag ↦ hcond v ?_ htag)
    simp [hinv.1.device v htag]
  | removeCache =>
    exact soundTask_nextTask (h.sound.removeCacheIn _ _ _) (taskInv_removeCache h.sound hinv)
  | gate =>
    cases proceed with
    | true =>
      refine soundTask_nextTask h.sound ?_
      exact ⟨hinv.1, hinv.2.2.1, hinv.2.2.2.1⟩
    | false => exact soundTask_setTask (h.sound.backOff hinv) (by simp)
  | forget r =>
    exact soundTask_nextTask (h.sound.forgetDead hcond params r) (taskInv_forgetDead params hinv)
  | delete => exact soundTask_setTask (h.sound.deleteOld hinv.1 hinv.2.1 hinv.2.2) (by simp)
  | stripeIndex =>
    exact soundTask_nextTask (h.sound.restripeIndex hcond hinv.2) (taskInv_restripeIndex h.sound hinv)
  | stripeCache =>
    exact soundTask_nextTask (h.sound.stripeCache hinv.2.1) (taskInv_stripeCache h.sound hinv)
  | stripeDelete _ targets =>
    cases targets with
    | nil => exact soundTask_setTask h.sound (by simp)
    | cons v =>
      refine soundTask_nextTask (h.sound.removeSegment fun _ hv' ↦ ?_) (taskInv_stripeDelete hinv)
      exact mem_singleton.1 hv' ▸ hinv v mem_cons_self

theorem SoundTask.coalesceError (h : s.SoundTask) {puts : Nat}
    (hstep : s.coalesceError puts = some t) : t.SoundTask := by
  obtain ⟨task, htask, rfl⟩ := map_eq_some_iff.1 hstep
  have hinv := h.task task htask
  cases task with
  | repointIndex =>
    dsimp only
    split_ifs
    · exact soundTask_setTask h.sound (by simp)
    · refine soundTask_setTask (h.sound.putIndex fun entry hentry ↦ ?_) (by simp)
      exact recordAt_of_durableAt (hinv.1.recordAt entry (mem_of_mem_take hentry))
  | _ => exact soundTask_setTask h.sound (by simp)

/-! ## The start of a rewrite -/

theorem mem_split (h : hash ∈ records) : hash ∈ (split records keep).1 ∨ hash ∈ (split records keep).2 := by
  obtain ⟨i, hi⟩ := mem_iff_getElem?.1 h
  have hmem : (hash, i) ∈ records.zipIdx := mem_zipIdx_iff_getElem?.2 hi
  by_cases hkeep : i ∈ keep
  · exact .inl (mem_map.2 ⟨_, mem_filter.2 ⟨hmem, by simpa using hkeep⟩, rfl⟩)
  · exact .inr (mem_map.2 ⟨_, mem_filter.2 ⟨hmem, by simpa using hkeep⟩, rfl⟩)

/-- The new copy of what a rewrite keeps. -/
theorem kept_createSegment :
    ∀ record ∈ entries s.nextSegmentId kept, record.2.segmentId = s.nextSegmentId ∧
      ∀ v ∈ vdevs, (s.createSegment vdevs (.complete kind owner kept)).durableAt (.vdev v) record.2 =
        some record.1 := by
  rintro ⟨_, _⟩ hrecord
  obtain ⟨hloc, hget⟩ := mem_entries.1 hrecord
  refine ⟨hloc, fun v hv ↦ ?_⟩
  rw [durableAt_createSegment hv hloc]
  simpa [complete] using hget

theorem settled_createSegment (h : s.Sound) (v : VdevId) :
    (s.createSegment vdevs (.complete kind owner kept)).Settled (.vdev v) s.nextSegmentId := by
  refine ⟨Nat.lt_succ_self _, fun _ _ _ hseg ↦ ?_⟩
  simp only [createSegment, (h.fresh _ (Nat.le_refl _)).1] at hseg
  split_ifs at hseg
  cases hseg
  rfl

theorem lt_next_of_segment (h : s.Sound) {seg : Segment Hash}
    (hseg : s.segments v id = some seg) : id < s.nextSegmentId := by
  by_contra hle
  simp [(h.fresh id (Nat.le_of_not_lt hle)).1] at hseg

theorem lt_next_of_stripe (h : s.Sound) (hstripe : s.stripes id = some records) : id < s.nextSegmentId := by
  by_contra hle
  simp [(h.fresh id (Nat.le_of_not_lt hle)).2] at hstripe

/-- Nothing names a segment that does not exist yet. -/
theorem unnamed_next (h : s.Sound) (v : VdevId) (hash : Hash) :
    s.IndexClear (.vdev v) s.nextSegmentId hash ∧ s.CacheClear (.vdev v) s.nextSegmentId hash := by
  have hnone : ∀ loc hash', loc.segmentId = s.nextSegmentId → s.recordAt (.vdev v) loc ≠ some hash' := by
    intro _ _ hloc hrecord
    obtain ⟨_, hseg, -⟩ := recordAt_vdev.1 hrecord
    simp [hloc, (h.fresh _ (Nat.le_refl _)).1] at hseg
  exact ⟨⟨fun loc hlookup hloc ↦ hnone loc hash hloc (h.index hash _ loc hlookup),
      fun file hfile loc hlookup hloc ↦
        hnone loc hash hloc (recordAt_of_durableAt (h.file file hfile hash _ loc hlookup))⟩,
    fun loc hget hloc ↦ hnone loc hash hloc (h.cache hash loc _ hget)⟩

/-- Each record of the old segment is in one of the two parts it is split into. -/
theorem Frame.covers {tag : Tag} {oldId newId : SegmentId} (h : Frame s u) (hold : s.Settled tag oldId)
    (hrecords : ∀ loc hash, loc.segmentId = oldId → s.recordAt tag loc = some hash → hash ∈ records)
    (loc : Location) (hash : Hash) (hloc : loc.segmentId = oldId) (hrecord : u.recordAt tag loc = some hash) :
    hash ∈ (entries newId (split records keep).1).map (·.1) ∨ hash ∈ (split records keep).2 := by
  rw [map_entries]
  exact mem_split (hrecords loc hash hloc ((h.recordAt_settled (hloc ▸ hold)).symm.trans hrecord))

theorem SoundTask.beginRepack (h : s.SoundTask) {oldId : SegmentId}
    (hbegin : s.beginRepack v oldId keep = some t) : t.SoundTask := by
  obtain ⟨-, hbegin⟩ := ite_none_right_eq_some.1 hbegin
  obtain ⟨seg, hseg, hbegin⟩ := bind_eq_some_iff.1 hbegin
  obtain ⟨⟨hsealed, -⟩, hbegin⟩ := ite_none_right_eq_some.1 hbegin
  have hlt := lt_next_of_segment h.sound hseg
  have hold : s.Settled (.vdev v) oldId := by
    refine ⟨hlt, fun v' hv' seg' hseg' ↦ ?_⟩
    obtain rfl : v = v' := by simpa using hv'
    exact some.inj (hseg.symm.trans hseg') ▸ hsealed
  have hrecords : ∀ loc hash, loc.segmentId = oldId → s.recordAt (.vdev v) loc = some hash → hash ∈ seg.records := by
    intro _ _ hloc hrecord
    obtain ⟨_, hseg', hget⟩ := recordAt_vdev.1 hrecord
    cases hseg.symm.trans (hloc ▸ hseg')
    exact mem_of_getElem? hget
  simp only at hbegin
  split_ifs at hbegin with hkept
  · cases hbegin
    refine soundTask_nextTask h.sound ⟨?_, by simp, fun _ ↦ ?_⟩
    · refine ⟨(Frame.refl s).covers hold hrecords, hold, fun hne ↦ absurd ?_ hne, ?_, Nat.ne_of_gt hlt, by simp, by simp⟩
      · simp [hkept, entries]
      · simp [hkept, entries]
    · exact ⟨by simp [Rewrite.hashes, hkept, entries], by simp [Rewrite.hashes, hkept, entries]⟩
  · cases hbegin
    have hframe := frame_createSegment h.sound [v] (.complete .data seg.owner (split seg.records keep).1)
    refine soundTask_nextTask (h.sound.createSegment [v] _) ⟨?_, by simp⟩
    exact ⟨hframe.covers hold hrecords, hframe.settled hold, fun _ v' _ ↦ settled_createSegment h.sound v',
      kept_createSegment, Nat.ne_of_gt hlt, by simp, by simp⟩

theorem SoundTask.beginUnstripe (h : s.SoundTask) {failed : List VdevId}
    (hbegin : s.beginUnstripe id keep failed = some t) : t.SoundTask := by
  obtain ⟨-, hbegin⟩ := ite_none_right_eq_some.1 hbegin
  obtain ⟨records, hstripe, hbegin⟩ := bind_eq_some_iff.1 hbegin
  have hlt := lt_next_of_stripe h.sound hstripe
  have hold : s.Settled .striped id := ⟨hlt, by simp⟩
  have hrecords : ∀ loc hash, loc.segmentId = id → s.recordAt .striped loc = some hash → hash ∈ records := by
    intro _ _ hloc hrecord
    simp only [recordAt, hloc, hstripe, bind_some] at hrecord
    exact mem_of_getElem? hrecord
  simp only at hbegin
  split_ifs at hbegin with hkept hwritten
  · cases hbegin
    refine soundTask_nextTask h.sound ⟨?_, fun _ ↦ by simp [Unnamed], by simp⟩
    refine ⟨(Frame.refl s).covers hold hrecords, hold, by simp, ?_, Nat.ne_of_gt hlt, by simp, ?_⟩
    · simp [hkept, entries]
    · simp [hkept, entries]
  · cases hbegin
    set written := s.online.filter (· ∉ failed)
    set seg : Segment Hash := .complete .data (.shard 0) (split records keep).1
    have hframe : Frame s ((s.createSegment written seg).fault failed) :=
      { frame_createSegment h.sound written seg with }
    have hsound : ((s.createSegment written seg).fault failed).Sound :=
      { h.sound.createSegment written seg with }
    refine soundTask_nextTask hsound ⟨?_, fun _ v _ hash ↦ ?_, by simp⟩
    · refine ⟨hframe.covers hold hrecords, hframe.settled hold, fun _ v' _ ↦ settled_createSegment h.sound v',
        kept_createSegment, Nat.ne_of_gt hlt, by simp, fun _ ↦ ?_⟩
      simp [entries, hkept, hwritten]
    · exact unnamed_next h.sound v hash

/-- The mirrors that a conversion to a stripe would delete are sealed copies of the primary's. -/
def MirrorsEqual (s : State Hash) (id : SegmentId) : Prop :=
  ∀ v ∈ s.online, ∀ seg ∈ s.segments v id, seg.isSealed = true ∧
    ∀ own ∈ s.segments s.primary id, seg.records = own.records

instance (id : SegmentId) : Decidable (s.MirrorsEqual id) :=
  inferInstanceAs (Decidable (∀ v ∈ s.online, ∀ seg ∈ s.segments v id, _ ∧ ∀ own ∈ s.segments s.primary id, _))

theorem SoundTask.beginRestripe (h : s.SoundTask) (hmirrors : s.MirrorsEqual id)
    (hbegin : s.beginRestripe params id = some t) : t.SoundTask := by
  obtain ⟨⟨-, -, -, hnone⟩, hbegin⟩ := ite_none_right_eq_some.1 hbegin
  obtain ⟨seg, hseg, hbegin⟩ := bind_eq_some_iff.1 hbegin
  obtain ⟨-, ⟨⟩⟩ := ite_none_right_eq_some.1 hbegin
  have hlt := lt_next_of_segment h.sound hseg
  -- The stripe is new, so every striped location is where it was.
  set u : State Hash := { s with stripes := fun i ↦ if i = id then some seg.records else s.stripes i }
  have hgrows : ∀ tag loc hash, s.recordAt tag loc = some hash → u.recordAt tag loc = some hash := by
    intro tag loc _ hrecord
    cases tag with
    | vdev => exact hrecord
    | striped =>
      have hne : loc.segmentId ≠ id := by
        rintro rfl
        simp [recordAt, isNone_iff_eq_none.1 hnone] at hrecord
      simpa [recordAt, u, hne] using hrecord
  have hsound : u.Sound :=
    { h.sound with
      fresh := fun i hi ↦ ⟨(h.sound.fresh i hi).1, by
        simp only [u]
        rw [if_neg (Nat.ne_of_gt (Nat.lt_of_lt_of_le hlt hi)), (h.sound.fresh i hi).2]⟩
      index := fun hash tag loc hlookup ↦ hgrows _ _ _ (h.sound.index hash tag loc hlookup)
      cache := fun hash loc tag hget ↦ hgrows _ _ _ (h.sound.cache hash loc tag hget)
      file := fun file hfile hash tag loc hlookup ↦ by
        have hdurable := h.sound.file file hfile hash tag loc hlookup
        cases tag with
        | vdev => exact hdurable
        | striped => exact hgrows .striped loc hash hdurable
      pending := fun stream e he v hv ↦ h.sound.pending stream e he v hv }
  refine soundTask_nextTask hsound ⟨fun v hv ↦ ?_, by simp [u]⟩
  refine ⟨⟨hlt, fun v' hv' seg' hseg' ↦ ?_⟩, fun seg' hseg' ↦ (hmirrors v hv seg' hseg').2 seg hseg⟩
  obtain rfl : v = v' := by simpa using hv'
  exact (hmirrors v hv seg' hseg').1

end State

end Lchfs.Index
