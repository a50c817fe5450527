import Lchfs.Index.Locations

/-!
# What a conversion to a stripe leaves behind

`stripe_cold_segments` reads the primary's replica of a segment, moves the index and the cache entries of the
hashes it saw there to the stripe, and deletes the replica of every online device. Replicas need not be equal:
a device that dropped out holds fewer records, and one that stayed when the primary dropped out holds more.
An entry whose hash the primary's replica lacks stays, and its record goes.
-/

namespace Lchfs.Index

open Lchfs.Format (SegmentId)
open Lchfs.Library
open List Option Segment Entries Machine

namespace State

variable {Hash : Type} [DecidableEq Hash] {s t : State Hash} {params : Params} {id : SegmentId}
variable {records : List Hash} {targets : List VdevId} {hash : Hash} {loc : Location} {v : VdevId} {tag : Tag}

/-- The steps of `stripe_cold_segments` for a segment it has chosen: the stripe, the index, the
cache, and then one replica after the other. -/
def convert (s : State Hash) (params : Params) (id : SegmentId) : Option (State Hash) :=
  (indexing Hash params).run s (.beginRestripe id :: replicate (s.online.length + 3) (.coalesceStep true))

/-- The index or the cache gives this place for a hash. -/
def Names (s : State Hash) (hash : Hash) (tag : Tag) (loc : Location) : Prop :=
  s.index.entries.lookup (hash, tag) = some loc ∨ s.cache hash = some (loc, tag)

/-- A read of the hash finds its record. -/
def Readable (s : State Hash) (hash : Hash) : Prop :=
  ∃ tag loc, s.Names hash tag loc ∧ s.recordAt tag loc = some hash

/-- The primary's replica has every record of the online replicas, and an entry into one of these
names a record it holds. -/
structure Covers (s : State Hash) (id : SegmentId) : Prop where
  replicas : ∀ v ∈ s.online, ∀ seg ∈ s.segments v id, ∀ own ∈ s.segments s.primary id, seg.records ⊆ own.records
  entries : ∀ v ∈ s.online, ∀ hash loc, loc.segmentId = id → s.Names hash (.vdev v) loc →
    s.recordAt (.vdev v) loc = some hash

/-! ## The state after a conversion -/

/-- The coalescer going on with a task, and meeting no error. -/
theorem run_task (hmounted : s.mounted = true) (task : Task Hash) (n : Nat) :
    (indexing Hash params).run (s.setTask (some task)) (replicate (n + 1) (.coalesceStep true)) =
      ((s.setTask (some task)).coalesceStep params true).bind fun u ↦
        (indexing Hash params).run u (replicate n (.coalesceStep true)) := by
  simp [replicate_succ, runUnder, indexing, step, setTask, hmounted, mountedStep]

/-- The replicas go one by one. -/
theorem run_stripeDelete (hmounted : s.mounted = true) :
    (indexing Hash params).run (s.setTask (some (.stripeDelete id targets)))
      (replicate (targets.length + 1) (.coalesceStep true)) = some ((s.removeSegment targets id).setTask none) := by
  induction targets generalizing s with
  | nil =>
    rw [length_nil, run_task hmounted]
    simp [coalesceStep, setTask, removeSegment, runUnder]
  | cons v targets ih =>
    have hboth : (s.removeSegment [v] id).removeSegment targets id = s.removeSegment (v :: targets) id := by
      simp only [removeSegment]
      congr
      ext v' i
      by_cases h : i = id <;> by_cases h' : v' = v <;> simp [h, h']
    rw [length_cons, run_task hmounted, ← hboth]
    exact ih hmounted

theorem putCacheAll_cache_of_notMem {records : List (Hash × Location)} (h : hash ∉ records.map (·.1)) :
    (s.putCacheAll tag records).cache hash = s.cache hash := by
  induction records generalizing s with
  | nil => rfl
  | cons _ _ ih =>
    obtain ⟨hne, hmiss⟩ := not_or.1 (mt mem_cons.2 h)
    exact (ih hmiss).trans (if_neg hne)

/-- What the conversion of a segment with these records on the primary has done. -/
structure Converted (s t : State Hash) (id : SegmentId) (records : List Hash) : Prop where
  own : ∃ own ∈ s.segments s.primary id, own.records = records
  unstriped : s.stripes id = none
  index : t.index.entries = (s.restripeIndex id records s.online).index.entries
  cache : ∀ hash loc tag, t.cache hash = some (loc, tag) →
    tag = .striped ∨ s.cache hash = some (loc, tag) ∧ hash ∉ records
  cacheKept : ∀ hash, hash ∉ records → t.cache hash = s.cache hash
  segments : ∀ v i, t.segments v i = if i = id ∧ v ∈ s.online then none else s.segments v i
  stripes : t.stripes = fun i ↦ if i = id then some records else s.stripes i

theorem converted_of_convert (hrun : s.convert params id = some t) : ∃ records, Converted s t id records := by
  obtain ⟨u, hstep, hrest⟩ : ∃ u, s.step params (.beginRestripe id) = some u ∧
      (indexing Hash params).run u (replicate (s.online.length + 3) (.coalesceStep true)) = some t := by
    simpa [convert, runUnder, indexing, bind_eq_some_iff] using hrun
  cases hmounted : s.mounted with
  | false => simp [step, hmounted] at hstep
  | true =>
    have hbegin : s.beginRestripe params id = some u := by simpa [step, hmounted, mountedStep] using hstep
    obtain ⟨⟨-, -, -, hnone⟩, hbegin⟩ := ite_none_right_eq_some.1 hbegin
    obtain ⟨own, hown, hbegin⟩ := bind_eq_some_iff.1 hbegin
    obtain ⟨-, hbegin⟩ := ite_none_right_eq_some.1 hbegin
    -- the state before the replicas go, with the cache moved
    let striped := { s with stripes := fun i ↦ if i = id then some own.records else s.stripes i }
    let told := (striped.restripeIndex id own.records s.online).setTask (some (.stripeCache id own.records s.online))
    let moved := told.putCacheAll .striped (entries id own.records)
    have hmoved : moved = { told with cache := moved.cache } := putCacheAll_eq _ _
    have hlast : (indexing Hash params).run u (replicate (s.online.length + 3) (.coalesceStep true)) =
        some ((moved.removeSegment s.online id).setTask none) := by
      rw [← some.inj hbegin]
      refine (run_task (s := striped) hmounted _ _).trans ?_
      refine (run_task (s := told) hmounted _ _).trans ?_
      exact run_stripeDelete (s := moved) (hmoved ▸ hmounted)
    cases hlast.symm.trans hrest
    have hhashes := map_entries id own.records
    refine ⟨own.records, ⟨own, hown, rfl⟩, by simpa using hnone, ?_, fun hash _ _ hcache ↦ ?_,
      fun _ _ ↦ putCacheAll_cache_of_notMem (by rwa [hhashes]), ?_, ?_⟩
    · rw [setTask, removeSegment, hmoved]
      rfl
    · have hread := putCacheAll_cache hcache
      rw [hhashes] at hread
      exact hread.imp_left And.right
    · intro v i
      rw [setTask, removeSegment, hmoved]
      rfl
    · rw [setTask, removeSegment, hmoved]
      rfl

namespace Converted

variable (h : Converted s t id records)
include h

/-- The records the conversion saw are readable from the stripe. -/
theorem readable_of_mem (hmem : hash ∈ records) : t.Readable hash := by
  have hstriped : (t.index.entries.lookup (hash, .striped)).isSome := by
    rw [h.index]
    obtain ⟨i, hget⟩ := getElem?_of_mem hmem
    exact isSome_lookup_putAll.2 (.inl ⟨_, mem_map.2 ⟨(hash, ⟨id, i⟩),
      mem_entries.2 ⟨rfl, hget⟩, rfl⟩, rfl⟩)
  obtain ⟨loc, hlookup⟩ := isSome_iff_exists.1 hstriped
  refine ⟨.striped, loc, .inl hlookup, ?_⟩
  rw [h.index] at hlookup
  rcases lookup_putAll hlookup with hnew | ⟨-, hother⟩
  · obtain ⟨⟨_, _⟩, hrecord, heq⟩ := mem_map.1 hnew
    cases heq
    obtain ⟨hloc, hget⟩ := mem_entries.1 hrecord
    simp [State.recordAt, h.stripes, hloc, hget]
  · obtain ⟨i, hget⟩ := getElem?_of_mem hmem
    exact absurd rfl (hother _ (mem_map.2 ⟨(hash, ⟨id, i⟩), mem_entries.2 ⟨rfl, hget⟩, rfl⟩))

/-- The entries of the other hashes stay. -/
theorem names_of_notMem (hmiss : hash ∉ records) (hnames : s.Names hash tag loc) : t.Names hash tag loc := by
  refine hnames.imp (fun hlookup ↦ ?_) fun hcache ↦ (h.cacheKept hash hmiss).trans hcache
  rw [h.index]
  refine (lookup_putAll_of_ne ?_).trans ((lookup_eraseIn_of_notMem ?_).trans hlookup)
  · intro _ hentry hkey
    obtain ⟨⟨_, _⟩, hrecord, rfl⟩ := mem_map.1 hentry
    cases hkey
    exact hmiss (mem_of_getElem? (mem_entries.1 hrecord).2)
  · intro hkey
    obtain ⟨_, hmem, hkey⟩ := mem_flatMap.1 hkey
    obtain ⟨v, -, heq⟩ := mem_map.1 hkey
    cases heq
    exact hmiss hmem

theorem recordAt_eq (hplace : ∀ v ∈ s.online, tag = .vdev v → loc.segmentId ≠ id)
    (hrecord : s.recordAt tag loc = some hash) : t.recordAt tag loc = some hash := by
  cases tag with
  | vdev v =>
    obtain ⟨seg, hseg, hget⟩ := recordAt_vdev.1 hrecord
    refine recordAt_vdev.2 ⟨seg, ?_, hget⟩
    rw [h.segments, if_neg fun hgone ↦ hplace v hgone.2 rfl hgone.1, hseg]
  | striped =>
    obtain ⟨_, hstripe, hget⟩ := bind_eq_some_iff.1 hrecord
    have hne : loc.segmentId ≠ id := by
      intro hloc
      simp [hloc, h.unstriped] at hstripe
    simp [State.recordAt, h.stripes, hne, hstripe, hget]

/-- An entry into a deleted replica is an old one, of a hash the conversion did not see. -/
theorem names_vdev (hnames : t.Names hash (.vdev v) loc) (hv : v ∈ s.online) (hloc : loc.segmentId = id) :
    s.Names hash (.vdev v) loc ∧ hash ∉ records := by
  rcases hnames with hlookup | hcache
  · rw [h.index] at hlookup
    rcases lookup_putAll hlookup with hnew | ⟨hold, -⟩
    · obtain ⟨_, -, heq⟩ := mem_map.1 hnew
      simp at heq
    · obtain ⟨hold, hkey⟩ := lookup_eraseIn hold
      exact ⟨.inl hold, fun hmem ↦ hkey (mem_restripeKeys hv hmem) hloc⟩
  · obtain hstriped | ⟨hold, hmiss⟩ := h.cache hash loc _ hcache
    · simp at hstriped
    · exact ⟨.inr hold, hmiss⟩

end Converted

theorem Covers.mem (hcovers : s.Covers id) (h : Converted s t id records) (hv : v ∈ s.online)
    (hloc : loc.segmentId = id) (hrecord : s.recordAt (.vdev v) loc = some hash) : hash ∈ records := by
  obtain ⟨seg, hseg, hget⟩ := recordAt_vdev.1 hrecord
  obtain ⟨own, hown, rfl⟩ := h.own
  exact hcovers.replicas v hv seg (hloc ▸ hseg) own hown (mem_of_getElem? hget)

/-- Segment 0 holds the record 7 on the primary and these records on device 1; the index has an
entry for each. -/
def differing (other : List Nat) : State Nat :=
  { created with
    segments := fun v id ↦ if id = 0 then some (.complete .data (.shard 0) (if v = 1 then other else [7])) else none
    index := ⟨Entries.putAll ∅ (((7, .vdev 0), ⟨0, 0⟩) ::
      (Segment.entries 0 other).map fun record ↦ ((record.1, .vdev 1), record.2)), 0⟩
    nextSegmentId := 1 }

end State

end Lchfs.Index
