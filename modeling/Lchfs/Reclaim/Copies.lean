import Lchfs.Library.Fold
import Lchfs.Reclaim.Machine

/-!
# Copies

Where records are. Segments only grow until they are sealed, and only a pass removes
one. `Grows` says what every other step may do to segments, index, cache and seal
generations; the facts a pass relies on while other threads run are proved from it
once.
-/

set_option linter.unusedSectionVars false

namespace Lchfs.Reclaim

open Lchfs.Format (Ino ShardId SegmentId)
open Lchfs.Library
open Function

variable {Dev Hash : Type} [DecidableEq Dev] [DecidableEq Hash]

namespace State

variable {setup : Setup Dev} {s t u : State Dev Hash} {dev : Dev} {loc : Location} {hash : Hash}
  {dur : Bool} {id : SegmentId} {shard : ShardId} {f : Segment Hash → Segment Hash}

/-- The device has the record at the location; with `dur`, within the durable length. -/
def HasAt (s : State Dev Hash) (dur : Bool) (dev : Dev) (loc : Location) (hash : Hash) : Prop :=
  ∃ seg, s.segments dev loc.segmentId = some seg ∧ seg.records[loc.offset]? = some hash ∧
    (dur = true → loc.offset < seg.durable)

theorem HasAt.any (h : s.HasAt dur dev loc hash) : s.HasAt false dev loc hash := by
  obtain ⟨seg, hseg, hrecord, _⟩ := h
  exact ⟨seg, hseg, hrecord, by simp⟩

/-- A copy of the hash on the device outside the segment. -/
def Spare (s : State Dev Hash) (dur : Bool) (dev : Dev) (id : SegmentId) (hash : Hash) : Prop :=
  ∃ loc, s.HasAt dur dev loc hash ∧ loc.segmentId ≠ id

/-- The segment is the open one of a shard. -/
def IsOpen (s : State Dev Hash) (id : SegmentId) : Prop :=
  ∃ shard, s.writers shard = some id

/-- The bookkeeping of segments, writers, index batches, index and seal generations. -/
structure Copies (s : State Dev Hash) : Prop where
  allocated : ∀ dev id seg, s.segments dev id = some seg → id < s.nextSegmentId
  open_iff : ∀ dev id seg, s.segments dev id = some seg → (seg.isSealed = false ↔ s.IsOpen id)
  durable : ∀ dev id seg, s.segments dev id = some seg → seg.isSealed = true →
    seg.durable = seg.records.length
  writer : ∀ shard id, s.writers shard = some id →
    id < s.nextSegmentId ∧ ∀ dev, ∃ seg, s.segments dev id = some seg ∧ seg.isSealed = false
  mirrored : ∀ id, s.IsOpen id → ∀ dev dev', s.segments dev id = s.segments dev' id
  shard : ∀ shard shard' id, s.writers shard = some id → s.writers shard' = some id → shard = shard'
  pending : ∀ shard, ∀ entry ∈ s.pendingIndex shard,
    s.writers shard = some entry.2.segmentId ∧ ∀ dev, s.HasAt false dev entry.2 entry.1
  index : ∀ hash dev loc, s.index hash dev = some loc → s.HasAt false dev loc hash
  unstamped : ∀ id, s.IsOpen id ∨ s.nextSegmentId ≤ id → s.sealGenerations id = none

/-- What a step other than a pass's may do to records, index and cache. -/
structure Grows (setup : Setup Dev) (s t : State Dev Hash) : Prop where
  kept : ∀ dev id seg, s.segments dev id = some seg → seg.isSealed = true →
    t.segments dev id = some seg
  hasAt : ∀ dur dev loc hash, s.HasAt dur dev loc hash → t.HasAt dur dev loc hash
  index : ∀ hash dev, t.index hash dev = s.index hash dev ∨
    ∃ loc, t.index hash dev = some loc ∧ s.IsOpen loc.segmentId
  cache : ∀ hash, t.cache hash = s.cache hash ∨
    ∃ loc, t.cache hash = some (loc, setup.primary) ∧ t.HasAt false setup.primary loc hash ∧
      t.IsOpen loc.segmentId
  stamp : ∀ id, ¬s.IsOpen id → t.sealGenerations id = s.sealGenerations id
  publishedGeneration : s.publishedGeneration ≤ t.publishedGeneration
  pass : t.pass = s.pass
  opened : ∀ id, s.IsOpen id → t.IsOpen id ∨ t.sealGenerations id = some s.publishedGeneration

theorem Grows.refl (setup : Setup Dev) (s : State Dev Hash) : Grows setup s s :=
  ⟨fun _ _ _ h _ ↦ h, fun _ _ _ _ h ↦ h, fun _ _ ↦ .inl rfl, fun _ ↦ .inl rfl, fun _ _ ↦ rfl,
    le_rfl, rfl, fun _ ↦ .inl⟩

theorem Grows.trans (hst : Grows setup s t) (htu : Grows setup t u)
    (hwriters : t.writers = s.writers) (hcache : u.cache = t.cache)
    (hwriters' : u.writers = t.writers) : Grows setup s u := by
  refine ⟨fun dev id _ h hs ↦ htu.kept _ _ _ (hst.kept _ _ _ h hs) hs,
    fun _ _ _ _ h ↦ htu.hasAt _ _ _ _ (hst.hasAt _ _ _ _ h), fun hash dev ↦ ?_, fun hash ↦ ?_,
    fun id h ↦ ?_, Nat.le_trans hst.publishedGeneration htu.publishedGeneration,
    htu.pass.trans hst.pass, fun id h ↦ .inl ?_⟩
  · rcases htu.index hash dev with heq | ⟨loc, hloc, _⟩
    · rw [heq]
      exact hst.index hash dev
    · exact .inr ⟨loc, hloc, by rwa [IsOpen, ← hwriters]⟩
  · rw [hcache]
    refine (hst.cache hash).imp_right fun ⟨loc, hloc, hat, _⟩ ↦ ⟨loc, hloc, ?_, ?_⟩
    · exact htu.hasAt _ _ _ _ hat
    · rwa [IsOpen, hwriters']
  · rw [htu.stamp id (by rwa [IsOpen, hwriters]), hst.stamp id h]
  · rwa [IsOpen, hwriters', hwriters]

/-- Steps that leave segments, index, cache and seal generations alone. -/
theorem Grows.of_eq (hsegments : t.segments = s.segments) (hwriters : t.writers = s.writers)
    (hindex : t.index = s.index)
    (hcache : t.cache = s.cache) (hstamp : t.sealGenerations = s.sealGenerations)
    (hpublished : s.publishedGeneration ≤ t.publishedGeneration) (hpass : t.pass = s.pass) :
    Grows setup s t := by
  refine ⟨fun dev id _ h _ ↦ hsegments ▸ h, fun _ dev _ hash h ↦ ?_,
    fun hash _ ↦ .inl (by rw [hindex]), fun _ ↦ .inl (by rw [hcache]),
    fun id _ ↦ by rw [hstamp], hpublished, hpass, fun _ h ↦ .inl (by rwa [IsOpen, hwriters])⟩
  rwa [HasAt, hsegments]

theorem Copies.of_eq (h : s.Copies) (hsegments : t.segments = s.segments)
    (hnext : t.nextSegmentId = s.nextSegmentId) (hwriters : t.writers = s.writers)
    (hpending : t.pendingIndex = s.pendingIndex) (hindex : t.index = s.index)
    (hstamp : t.sealGenerations = s.sealGenerations) : t.Copies := by
  obtain ⟨h1, h2, h3, h4, h5, h6, h7, h8, h9⟩ := h
  constructor <;> simp only [IsOpen, HasAt, hsegments, hnext, hwriters, hpending, hindex, hstamp] <;>
    assumption

/-- Open segments may grow, and get durable. -/
theorem HasAt.updateSegment (h : s.HasAt dur dev loc hash)
    (hrecords : ∀ seg : Segment Hash, seg.records <+: (f seg).records)
    (hdurable : ∀ (seg : Segment Hash) i, i < seg.records.length → i < seg.durable →
      i < (f seg).durable) : (s.updateSegment id f).HasAt dur dev loc hash := by
  obtain ⟨seg, hseg, hrecord, hdur⟩ := h
  by_cases heq : loc.segmentId = id
  · subst heq
    have hlt := (List.getElem?_eq_some_iff.1 hrecord).1
    refine ⟨f seg, by simp [State.updateSegment, hseg], ?_, fun hd ↦ ?_⟩
    · obtain ⟨_, hrest⟩ := hrecords seg
      rw [← hrest, List.getElem?_append_left hlt, hrecord]
    · exact hdurable seg _ hlt (hdur hd)
  · exact ⟨seg, by simp [State.updateSegment, heq, hseg], hrecord, hdur⟩

theorem foldl_putLocation (entries : List (Hash × Location)) (index : Hash → Dev → Option Location)
    (hash : Hash) (dev : Dev) : entries.foldl putLocation index hash dev = index hash dev ∨
      ∃ entry ∈ entries, entry.1 = hash ∧ entries.foldl putLocation index hash dev = some entry.2 := by
  rcases foldl_read putLocation (fun index ↦ index hash dev) (·.1 = hash) (some ·.2)
    (fun index entry heq ↦ by simp [putLocation, heq])
    (fun index _ hne ↦ by simp [putLocation, Ne.symm hne]) entries index with hhit | hmiss
  · exact .inr hhit
  · exact .inl hmiss.2

theorem Grows.flushIndex (setup : Setup Dev) (h : s.Copies) : Grows setup s (s.flushIndex shard) := by
  refine ⟨fun _ _ _ h _ ↦ h, fun _ _ _ _ h ↦ h, fun hash dev ↦ ?_, fun _ ↦ .inl rfl,
    fun _ _ ↦ rfl, le_rfl, rfl, fun _ ↦ .inl⟩
  rcases foldl_putLocation (s.pendingIndex shard) s.index hash dev with heq | ⟨e, he, _, heq⟩
  · exact .inl heq
  · exact .inr ⟨e.2, heq, shard, (h.pending shard e he).1⟩

namespace Copies

theorem flushIndex (h : s.Copies) : (s.flushIndex shard).Copies := by
  refine { h with pending := fun shard' e he ↦ ?_, index := fun hash dev loc hloc ↦ ?_ }
  · by_cases heq : shard' = shard
    · simp [State.flushIndex, heq] at he
    · exact h.pending shard' e (by simpa [State.flushIndex, heq] using he)
  · rcases foldl_putLocation (s.pendingIndex shard) s.index hash dev with heq | ⟨e, he, rfl, heq⟩
    · exact h.index hash dev loc (heq ▸ hloc)
    · cases heq.symm.trans hloc
      exact (h.pending shard e he).2 dev

/-- Every device gets the same new copy of a segment. -/
theorem replace (h : s.Copies) (seg : Segment Hash)
    (hother : ∀ dev id', id' ≠ id → t.segments dev id' = s.segments dev id')
    (hseg : ∀ dev, t.segments dev id = some seg) (hdurable : seg.isSealed = true → seg.durable = seg.records.length)
    (hnext : s.nextSegmentId ≤ t.nextSegmentId) (hid : id < t.nextSegmentId)
    (hopen : ∀ id', t.IsOpen id' ↔ if id' = id then seg.isSealed = false else s.IsOpen id')
    (hshard : ∀ shard shard' id, t.writers shard = some id → t.writers shard' = some id → shard = shard')
    (hpending : ∀ shard, ∀ entry ∈ t.pendingIndex shard,
      t.writers shard = some entry.2.segmentId ∧ ∀ dev, t.HasAt false dev entry.2 entry.1)
    (hindex : ∀ hash dev loc, t.index hash dev = some loc → t.HasAt false dev loc hash)
    (hstamp : ∀ id, t.IsOpen id ∨ t.nextSegmentId ≤ id → t.sealGenerations id = none) : t.Copies := by
  have hcases : ∀ {dev id' seg'}, t.segments dev id' = some seg' →
      id' = id ∧ seg' = seg ∨ id' ≠ id ∧ s.segments dev id' = some seg' := by
    intro dev id' _ hseg'
    by_cases heq : id' = id
    · subst heq
      exact .inl ⟨rfl, Option.some.inj (hseg'.symm.trans (hseg dev))⟩
    · exact .inr ⟨heq, hother dev id' heq ▸ hseg'⟩
  refine ⟨fun dev id' seg' hseg' ↦ ?_, fun dev id' seg' hseg' ↦ ?_, fun dev id' seg' hseg' hs ↦ ?_,
    fun shard id' hw ↦ ?_, fun id' ho dev dev' ↦ ?_, hshard, hpending, hindex, hstamp⟩
  · rcases hcases hseg' with ⟨rfl, -⟩ | ⟨-, hseg'⟩
    · exact hid
    · exact Nat.lt_of_lt_of_le (h.allocated dev id' seg' hseg') hnext
  · rw [hopen]
    rcases hcases hseg' with ⟨rfl, rfl⟩ | ⟨hne, hseg'⟩
    · simp
    · rw [if_neg hne]
      exact h.open_iff dev id' seg' hseg'
  · rcases hcases hseg' with ⟨rfl, rfl⟩ | ⟨-, hseg'⟩
    · exact hdurable hs
    · exact h.durable dev id' seg' hseg' hs
  · have ho := (hopen id').1 ⟨shard, hw⟩
    split_ifs at ho with heq
    · exact heq ▸ ⟨hid, fun dev ↦ ⟨seg, hseg dev, ho⟩⟩
    · obtain ⟨shard', hw'⟩ := ho
      refine ⟨Nat.lt_of_lt_of_le (h.writer shard' id' hw').1 hnext, fun dev ↦ ?_⟩
      rw [hother dev id' heq]
      exact (h.writer shard' id' hw').2 dev
  · have ho := (hopen id').1 ho
    split_ifs at ho with heq
    · rw [heq, hseg, hseg]
    · rw [hother dev id' heq, hother dev' id' heq]
      exact h.mirrored id' ho dev dev'

/-- The copy of an open segment is the same on every device. -/
theorem openCopy (h : s.Copies) (setup : Setup Dev) (hw : s.writers shard = some id) :
    ∃ seg, (∀ dev, s.segments dev id = some seg) ∧ seg.isSealed = false := by
  obtain ⟨seg, hseg, hunsealed⟩ := (h.writer shard id hw).2 setup.primary
  exact ⟨seg, fun dev ↦ (h.mirrored id ⟨shard, hw⟩ dev setup.primary).trans hseg, hunsealed⟩

/-- An open segment grows or is synced. -/
theorem updateSegment (h : s.Copies) (setup : Setup Dev) (hopen : s.IsOpen id)
    (hrecords : ∀ seg : Segment Hash, seg.records <+: (f seg).records)
    (hdurable : ∀ (seg : Segment Hash) i, i < seg.records.length → i < seg.durable →
      i < (f seg).durable) (hsealed : ∀ seg : Segment Hash, (f seg).isSealed = seg.isSealed) :
    (s.updateSegment id f).Copies ∧ Grows setup s (s.updateSegment id f) := by
  have hasAt : ∀ {dur dev loc hash}, s.HasAt dur dev loc hash →
      (s.updateSegment id f).HasAt dur dev loc hash := fun hat ↦
    hat.updateSegment hrecords hdurable
  obtain ⟨shard, hw⟩ := hopen
  obtain ⟨seg, hseg, hunsealed⟩ := h.openCopy setup hw
  have hother : ∀ dev id', id' ≠ id → (s.updateSegment id f).segments dev id' = s.segments dev id' := by
    intro _ _ hne
    simp [State.updateSegment, hne]
  refine ⟨h.replace (f seg) hother (fun dev ↦ by simp [State.updateSegment, hseg dev])
    (fun hs ↦ by simp [hsealed, hunsealed] at hs) le_rfl (h.writer shard id hw).1 (fun id' ↦ ?_) h.shard
    (fun shard e he ↦ ⟨(h.pending shard e he).1, fun dev ↦ hasAt ((h.pending shard e he).2 dev)⟩)
    (fun hash dev loc hloc ↦ hasAt (h.index hash dev loc hloc)) h.unstamped,
    ⟨fun dev id' _ hseg' hs ↦ ?_, fun _ _ _ _ ↦ hasAt, fun _ _ ↦ .inl rfl, fun _ ↦ .inl rfl,
      fun _ _ ↦ rfl, le_rfl, rfl, fun _ ↦ .inl⟩⟩
  · split_ifs with heq
    · exact ⟨fun _ ↦ (hsealed seg).trans hunsealed, fun _ ↦ ⟨shard, heq ▸ hw⟩⟩
    · rfl
  · refine (hother dev id' ?_).trans hseg'
    rintro rfl
    cases (hseg dev).symm.trans hseg'
    simp [hunsealed] at hs

theorem fsyncData (h : s.Copies) (setup : Setup Dev) (shard : ShardId) :
    (s.fsyncData shard).Copies ∧ Grows setup s (s.fsyncData shard) := by
  unfold State.fsyncData
  split
  · exact ⟨h.flushIndex, .flushIndex setup h⟩
  · next hid =>
    obtain ⟨hcopies, hgrows⟩ := h.updateSegment (f := Segment.fsync) setup ⟨shard, hid⟩
      (fun _ ↦ List.prefix_rfl) (fun _ _ hlt _ ↦ hlt) fun _ ↦ rfl
    exact ⟨hcopies.flushIndex, hgrows.trans (.flushIndex setup hcopies) rfl rfl rfl⟩

/-- Shards still have segments of their own when one of them gets a segment that no shard has, or none. -/
theorem writers_update {writers : ShardId → Option SegmentId} {x : Option SegmentId}
    (h : ∀ shard shard' id, writers shard = some id → writers shard' = some id → shard = shard')
    (hx : ∀ id ∈ x, ∀ shard, writers shard ≠ some id) (shard₁ shard₂ : ShardId) (id : SegmentId)
    (hw₁ : update writers shard x shard₁ = some id) (hw₂ : update writers shard x shard₂ = some id) :
    shard₁ = shard₂ := by
  rw [update_apply] at hw₁ hw₂
  split_ifs at hw₁ hw₂ with heq₁ heq₂
  · exact heq₁.trans heq₂.symm
  · exact absurd hw₂ (hx id hw₁ shard₂)
  · exact absurd hw₁ (hx id hw₂ shard₁)
  · exact h shard₁ shard₂ id hw₁ hw₂

/-- Sealing a segment: it stops being open and gets its stamp. -/
theorem closeSegment (h : s.Copies) (setup : Setup Dev) (shard : ShardId) :
    (s.closeSegment shard).Copies ∧ Grows setup s (s.closeSegment shard) := by
  unfold State.closeSegment
  split
  · exact ⟨h.flushIndex, .flushIndex setup h⟩
  · next id hid =>
    set t : State Dev Hash := { (s.flushIndex shard).updateSegment id Segment.sealed with
      sealGenerations := update s.sealGenerations id (some s.publishedGeneration)
      writers := update s.writers shard none } with ht
    have hopen : ∀ {id'}, t.IsOpen id' ↔ s.IsOpen id' ∧ id' ≠ id := by
      intro _
      constructor
      · rintro ⟨shard', hshard'⟩
        rcases of_update hshard' with ⟨-, ⟨⟩⟩ | ⟨hne, hw⟩
        exact ⟨⟨shard', hw⟩, fun hid' ↦ hne (h.shard _ _ _ (hid' ▸ hw) hid)⟩
      · rintro ⟨⟨shard', hw⟩, hne⟩
        have heq : shard' ≠ shard := fun heq ↦ hne (by simpa [heq, hid, eq_comm] using hw)
        exact ⟨shard', by simpa [ht, heq] using hw⟩
    have hsegment : ∀ dev id', id' ≠ id → t.segments dev id' = s.segments dev id' := by
      intro _ _ hne
      simp [ht, State.updateSegment, State.flushIndex, hne]
    obtain ⟨seg, hseg, hunsealed⟩ := h.openCopy setup hid
    have hasAt : ∀ {dur dev loc hash}, s.HasAt dur dev loc hash → t.HasAt dur dev loc hash :=
      fun hat ↦ hat.updateSegment (f := Segment.sealed) (fun _ ↦ List.prefix_rfl)
        fun _ _ hlt _ ↦ hlt
    refine ⟨h.replace seg.sealed hsegment
      (fun dev ↦ by simp [ht, State.updateSegment, State.flushIndex, hseg dev]) (fun _ ↦ rfl) le_rfl
      (h.writer shard id hid).1 (fun id' ↦ ?_) (writers_update h.shard (by simp)) (fun shard' e he ↦ ?_)
      (fun hash dev loc hloc ↦ hasAt (h.flushIndex.index hash dev loc hloc)) (fun id' hid' ↦ ?_),
      ⟨fun dev id' _ hseg' hs ↦ ?_, fun _ _ _ _ ↦ hasAt,
      (Grows.flushIndex setup h).index, fun _ ↦ .inl rfl, fun id' ho ↦ ?_, le_rfl, rfl,
      fun id' ho ↦ ?_⟩⟩
    · rw [hopen]
      split_ifs with heq <;> simp [heq, Segment.sealed]
    · by_cases heq : shard' = shard
      · simp [ht, State.updateSegment, State.flushIndex, heq] at he
      · have he : e ∈ s.pendingIndex shard' := by
          simpa [ht, State.updateSegment, State.flushIndex, heq] using he
        exact ⟨by simpa [ht, heq] using (h.pending shard' e he).1,
          fun dev ↦ hasAt ((h.pending shard' e he).2 dev)⟩
    · have hne : id' ≠ id := by
        rintro rfl
        rcases hid' with ho | hge
        · exact (hopen.1 ho).2 rfl
        · exact absurd (h.writer shard id' hid).1 (Nat.not_lt.2 hge)
      have hold : s.IsOpen id' ∨ s.nextSegmentId ≤ id' := hid'.imp_left fun ho ↦ (hopen.1 ho).1
      simpa [ht, hne] using h.unstamped id' hold
    · refine (hsegment dev id' ?_).trans hseg'
      rintro rfl
      cases (hseg dev).symm.trans hseg'
      simp [hunsealed] at hs
    · have hne : id' ≠ id := fun heq ↦ ho ⟨shard, heq ▸ hid⟩
      simp [ht, hne]
    · by_cases heq : id' = id
      · exact .inr (by simp [ht, heq])
      · exact .inl (hopen.2 ⟨ho, heq⟩)

/-- The segment a shard appends to; a new one gets a number that nobody has used. -/
theorem openSegment (h : s.Copies) (setup : Setup Dev) (shard : ShardId) :
    (s.openSegment shard).1.Copies ∧ Grows setup s (s.openSegment shard).1 ∧
      (s.openSegment shard).1.writers shard = some (s.openSegment shard).2 := by
  unfold State.openSegment
  split
  · next hid => exact ⟨h, .refl _ _, hid⟩
  · next hnone =>
    set t : State Dev Hash := { s with
      segments := fun dev ↦ update (s.segments dev) s.nextSegmentId (some ⟨[], false, 0⟩)
      nextSegmentId := s.nextSegmentId + 1
      writers := update s.writers shard (some s.nextSegmentId) } with ht
    have hopen : ∀ {id}, t.IsOpen id ↔ s.IsOpen id ∨ id = s.nextSegmentId := by
      intro _
      constructor
      · rintro ⟨shard', hw⟩
        rcases of_update hw with ⟨-, ⟨⟩⟩ | ⟨-, hw⟩
        · exact .inr rfl
        · exact .inl ⟨shard', hw⟩
      · rintro (⟨shard', hw⟩ | rfl)
        · have heq : shard' ≠ shard := fun heq ↦ by simp [heq, hnone] at hw
          exact ⟨shard', by simpa [ht, heq] using hw⟩
        · exact ⟨shard, by simp [ht]⟩
    have hsegment : ∀ dev id, id ≠ s.nextSegmentId → t.segments dev id = s.segments dev id := by
      intro _ _ hne
      simp [ht, hne]
    have hnew : ∀ dev, t.segments dev s.nextSegmentId = some ⟨[], false, 0⟩ := by
      intro _
      simp [ht]
    have hkept : ∀ {dev id seg}, s.segments dev id = some seg → t.segments dev id = some seg :=
      fun {dev id seg} hseg ↦ (hsegment dev id (Nat.ne_of_lt (h.allocated dev id seg hseg))).trans hseg
    have hasAt : ∀ {dur dev loc hash}, s.HasAt dur dev loc hash → t.HasAt dur dev loc hash := by
      rintro _ _ _ _ ⟨seg, hseg, hrecord⟩
      exact ⟨seg, hkept hseg, hrecord⟩
    refine ⟨h.replace ⟨[], false, 0⟩ hsegment hnew (by simp) (Nat.le_succ _) (Nat.lt_succ_self _) (fun id ↦ ?_)
      (writers_update h.shard ?_) (fun shard' e he ↦ ?_)
      (fun hash dev loc hloc ↦ hasAt (h.index hash dev loc hloc)) (fun id hid ↦ ?_),
      ⟨fun _ _ _ hseg _ ↦ hkept hseg, fun _ _ _ _ ↦ hasAt, fun _ _ ↦ .inl rfl,
      fun _ ↦ .inl rfl, fun _ _ ↦ rfl, le_rfl, rfl, fun _ ho ↦ .inl (hopen.2 (.inl ho))⟩,
      by simp [ht]⟩
    · rw [hopen]
      split_ifs with heq <;> simp [heq]
    · rintro _ ⟨⟩ shard' hw
      exact Nat.lt_irrefl _ (h.writer shard' _ hw).1
    · have he : e ∈ s.pendingIndex shard' := he
      have hw := (h.pending shard' e he).1
      have hne : shard' ≠ shard := fun heq ↦ by simp [heq, hnone] at hw
      exact ⟨by simpa [ht, hne] using hw, fun dev ↦ hasAt ((h.pending shard' e he).2 dev)⟩
    · refine h.unstamped id ?_
      rcases hid with ho | hge
      · rcases hopen.1 ho with ho | rfl
        · exact .inl ho
        · exact .inr le_rfl
      · exact .inr (Nat.le_of_succ_le hge)

/-- An append puts one more copy on every device, in an open segment. -/
theorem append (h : s.Copies) (setup : Setup Dev) (shard : ShardId) (hash : Hash) :
    (s.append setup shard hash).Copies ∧ Grows setup s (s.append setup shard hash) ∧
      ∃ loc, (∀ dev, (s.append setup shard hash).HasAt false dev loc hash) ∧
        (s.append setup shard hash).IsOpen loc.segmentId := by
  obtain ⟨hcopies, hgrows, hwriter⟩ := h.openSegment setup shard
  unfold State.append
  rcases hpair : s.openSegment shard with ⟨t, id⟩
  simp only [hpair] at hcopies hgrows hwriter ⊢
  obtain ⟨hupdated, hgrows'⟩ := hcopies.updateSegment (f := (·.append hash)) setup
    ⟨shard, hwriter⟩ (fun seg ↦ List.prefix_append _ _) (fun _ _ _ hlt ↦ hlt) fun _ ↦ rfl
  obtain ⟨seg, hseg, -⟩ := hcopies.openCopy setup hwriter
  set offset := ((t.segments setup.primary id).map (·.records.length)).getD 0 with hoffset
  have hoffset : offset = seg.records.length := by simp [hoffset, hseg]
  set u : State Dev Hash := { t.updateSegment id (·.append hash) with
    cache := update t.cache hash (some (⟨id, offset⟩, setup.primary))
    pendingIndex := update t.pendingIndex shard
      (t.pendingIndex shard ++ [(hash, ⟨id, offset⟩)]) } with hu
  have hnew : ∀ dev, u.HasAt false dev ⟨id, offset⟩ hash := by
    intro _
    refine ⟨seg.append hash, ?_, ?_, by simp⟩
    · simp [hu, State.updateSegment, hseg]
    · simp [hoffset, Segment.append]
  refine ⟨{ hupdated with pending := fun shard' e he ↦ ?_ }, ?_, ⟨id, offset⟩, hnew, shard, hwriter⟩
  · by_cases heq : shard' = shard
    · subst heq
      have he : e ∈ t.pendingIndex shard' ∨ e = (hash, ⟨id, offset⟩) := by simpa [hu] using he
      rcases he with he | rfl
      · exact hupdated.pending shard' e he
      · exact ⟨hwriter, hnew⟩
    · have he : e ∈ t.pendingIndex shard' := by simpa [hu, heq] using he
      exact hupdated.pending shard' e he
  · refine ⟨fun _ _ _ hseg' hs ↦ hgrows'.kept _ _ _ (hgrows.kept _ _ _ hseg' hs) hs,
      fun _ _ _ _ hat ↦ hgrows'.hasAt _ _ _ _ (hgrows.hasAt _ _ _ _ hat), hgrows.index,
      fun hash' ↦ ?_, hgrows.stamp, hgrows.publishedGeneration, hgrows.pass, hgrows.opened⟩
    by_cases heq : hash' = hash
    · subst heq
      exact .inr ⟨⟨id, offset⟩, by simp [hu], hnew _, shard, hwriter⟩
    · have hcache : u.cache hash' = t.cache hash' := by simp [hu, heq]
      rw [hcache]
      exact (hgrows.cache hash').imp_right fun ⟨loc, hloc, hat, ho⟩ ↦
        ⟨loc, hloc, hgrows'.hasAt _ _ _ _ hat, ho⟩

end Copies

/-- What a mount hands over is in order. -/
theorem Mounted.copies (h : s.Mounted) : s.Copies where
  allocated dev id seg hseg := (h.segments dev id seg hseg).1
  open_iff dev id seg hseg := by
    have hnone : ¬s.IsOpen id := fun ⟨shard, hw⟩ ↦ by simp [h.writers shard] at hw
    simp [(h.segments dev id seg hseg).2.1, hnone]
  durable dev id seg hseg _ := (h.segments dev id seg hseg).2.2
  writer shard id hw := by simp [h.writers shard] at hw
  mirrored id ho := by
    obtain ⟨shard, hw⟩ := ho
    simp [h.writers shard] at hw
  shard shard shard' id hw := by simp [h.writers shard] at hw
  pending shard e he := by simp [h.pendingIndex shard] at he
  index hash dev loc hloc := by
    obtain ⟨seg, hseg, hrecord⟩ := h.index hash dev loc hloc
    exact ⟨seg, hseg, hrecord, by simp⟩
  unstamped id _ := h.sealGenerations id

end State

end Lchfs.Reclaim
