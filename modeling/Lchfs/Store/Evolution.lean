import Lchfs.Store.Locations

/-!
# The operations of the record store

Every operation keeps the store well formed and extends its devices. The steps of the
pool only ever combine these operations, so `Evolves` is all that later files need to
know about a step that leaves the pool mounted.
-/

namespace Lchfs.Store

open Lchfs.Format Lchfs.Library
open List Option Table Function Segment

namespace RecordStore

variable {a b c : RecordStore} {hash : Hash32} {loc : ExtentLocation} {id : SegmentId}
variable {s : Segment} {id' : SegmentId} {r : Hash32}

/-- A step of the writers on their segments hands out no location. -/
theorem Knows.of_segments {segments : SegmentStore} {dataWriter : ShardId → Option SegmentId}
    {metaWriter : Option SegmentId} (h : Knows { a with
      segments := segments, dataWriter := dataWriter, metaWriter := metaWriter } hash loc) : a.Knows hash loc := by
  cases h with
  | cached h => exact .cached h
  | pending h => exact .pending h
  | mirrored h => exact .mirrored h
  | striped h => exact .striped h
  | durableMirrored hindex h => exact .durableMirrored hindex h
  | durableStriped hindex h => exact .durableStriped hindex h

theorem knows_flushIndex {shard : ShardId} (h : (a.flushIndex shard).Knows hash loc) :
    a.Knows hash loc := by
  cases h with
  | cached h => exact .cached h
  | @pending shard' _ _ h =>
    by_cases hs : shard' = shard
    · simp [flushIndex, hs] at h
    · have hmem : (hash, loc) ∈ a.pendingIndex shard' := by simpa [flushIndex, hs] using h
      exact .pending hmem
  | mirrored h =>
    rcases RedbIndex.mirrored_putChunkLocations h with h | h
    · exact .mirrored h
    · exact .pending h
  | striped h => exact .striped (by simpa [flushIndex] using h)
  | durableMirrored hi h => exact .durableMirrored hi h
  | durableStriped hi h => exact .durableStriped hi h

/-- An operation on the index alone keeps the store well formed if every location it hands
out was known, or names its record. -/
theorem Progress.of_index (h : a.WellFormed)
    (hk : ∀ hash loc, b.Knows hash loc → a.Knows hash loc ∨ a.Names hash loc)
    (hb : b = { a with
      durableIndex := b.durableIndex, dedupIndex := b.dedupIndex
      persistedIndex := b.persistedIndex, pendingIndex := b.pendingIndex } := by rfl) : a.Progress b := by
  rw [hb] at hk ⊢
  refine ⟨.of_eq rfl rfl rfl rfl, h.allocated_lt, fun shard id hw ↦ ?_, fun id hw ↦ ?_, h.segment, h.agree,
    fun hash loc hknows ↦ ((hk hash loc hknows).elim (h.knows hash loc) id).extend (.of_eq rfl rfl rfl rfl)⟩
  · obtain ⟨s, hopen, hrest⟩ := h.dataWriter shard id hw
    exact ⟨s, { hopen with }, hrest⟩
  · obtain ⟨s, hopen, hrest⟩ := h.metaWriter id hw
    exact ⟨s, { hopen with }, hrest⟩

theorem Progress.flushIndex (h : a.WellFormed) (shard : ShardId) :
    a.Progress (a.flushIndex shard) :=
  .of_index h fun _ _ hk ↦ .inl (knows_flushIndex hk)

/-- An append: a record goes to the end of the segment `s` at `id`, which is new or open,
and its location to the cache. -/
structure Appended (a b : RecordStore) (id : SegmentId) (s : Segment) (hash : Hash32) : Prop
    extends a.Puts b id (s.append hash) where
  isSealed : s.isSealed = false
  wellFormed : s.WellFormed
  fresh : ¬a.Allocated id ∧ s.records = [] ∧ s.writtenLen = none ∨ a.segments.lookup id = some s
  lt : id < b.nextSegmentId
  nextSegmentId : a.nextSegmentId ≤ b.nextSegmentId
  durableIndex : b.durableIndex = a.durableIndex
  dedupIndex : b.dedupIndex =
    update a.dedupIndex hash (some (⟨id, s.records.length⟩, .mirrored))

theorem WellFormed.not_allocated_next (h : a.WellFormed) : ¬a.Allocated a.nextSegmentId :=
  fun halloc ↦ Nat.lt_irrefl _ (h.allocated_lt _ halloc)

/-- An append to a writer's segment. -/
theorem WellFormed.appendTo (h : a.WellFormed) (hw : a.WritesTo id)
    (hs : a.Open id s) (hash : Hash32) : a.Appended (a.appendTo id hash) id s hash where
  lookup id' := by
    simp only [RecordStore.appendTo, lookup_modify]
    split_ifs with hid
    · rw [hid, hs.lookup]
      rfl
    · rfl
  stripes := rfl
  writesTo _ hid' := .inl hid'
  target := .inr ⟨hw, s, hs, prefix_append _ _⟩
  isSealed := hs.isSealed
  wellFormed := h.segment id s hs.lookup
  fresh := .inr hs.lookup
  lt := h.allocated_lt id (.inl (by simp [hs.lookup]))
  nextSegmentId := le_rfl
  durableIndex := rfl
  dedupIndex := by simp [RecordStore.appendTo, endOf, hs.lookup]

/-- An append to a segment that was just claimed, with other writers than before. -/
theorem WellFormed.appendTo_claim (h : a.WellFormed) (stream : StreamKind) (shard : ShardId) (hash : Hash32)
    (dataWriter : ShardId → Option SegmentId) (metaWriter : Option SegmentId)
    (hw : ∀ id, (∃ shard, dataWriter shard = some id) ∨ metaWriter = some id → a.WritesTo id ∨ id = a.nextSegmentId) :
    a.Appended ({ a.claim stream shard with
        dataWriter := dataWriter, metaWriter := metaWriter }.appendTo a.nextSegmentId hash)
      a.nextSegmentId (.create stream shard) hash where
  lookup id' := by
    simp only [RecordStore.appendTo, claim, lookup_modify, lookup_insert_eq]
    split_ifs with hid <;> rfl
  stripes := rfl
  writesTo := hw
  target := .inl h.not_allocated_next
  isSealed := rfl
  wellFormed := .create _ _
  fresh := .inl ⟨h.not_allocated_next, rfl, rfl⟩
  lt := Nat.lt_succ_self _
  nextSegmentId := Nat.le_succ _
  durableIndex := rfl
  dedupIndex := by simp [RecordStore.appendTo, endOf, claim]

theorem appendData_spec (h : a.WellFormed) (shard : ShardId) (hash : Hash32) :
    ∃ id s, a.Appended (a.appendData shard hash) id s hash ∧ s.stream = .data ∧
      s.ownerShard = shard ∧
      (a.appendData shard hash).dataWriter = update a.dataWriter shard (some id) ∧
      (a.appendData shard hash).pendingIndex = update a.pendingIndex shard
        (a.pendingIndex shard ++ [(hash, ⟨id, s.records.length⟩)]) := by
  cases hw : a.dataWriter shard with
  | some id =>
    obtain ⟨s, hs, hstream, hshard⟩ := h.dataWriter shard id hw
    have happ := h.appendTo (.inl ⟨shard, hw⟩) hs hash
    simp only [appendData, openSegment, hw]
    refine ⟨id, s, { happ with }, hstream, hshard, ?_, ?_⟩
    · exact (update_eq_self_iff.2 hw.symm).symm
    · simp [endOf, hs.lookup]
  | none =>
    have happ := h.appendTo_claim .data shard hash (update a.dataWriter shard (some a.nextSegmentId)) a.metaWriter (by
        rintro _ (⟨shard', hid⟩ | hid)
        · rcases of_update hid with ⟨-, ⟨⟩⟩ | ⟨-, hid⟩
          · exact .inr rfl
          · exact .inl (.inl ⟨shard', hid⟩)
        · exact .inl (.inr hid))
    simp only [appendData, openSegment, hw]
    refine ⟨_, _, { happ with }, rfl, rfl, rfl, ?_⟩
    simp [endOf, claim]

theorem appendMeta_spec (h : a.WellFormed) (hash : Hash32) :
    ∃ id s, a.Appended (a.appendMeta hash).1 id s hash ∧ s.stream = .metadata ∧
      (a.appendMeta hash).2 = ⟨id, s.records.length⟩ ∧ (a.appendMeta hash).1.metaWriter = some id ∧
      (a.appendMeta hash).1.persistedIndex =
        a.persistedIndex.putChunkLocation hash ⟨id, s.records.length⟩ := by
  cases hw : a.metaWriter with
  | some id =>
    obtain ⟨s, hs, hstream⟩ := h.metaWriter id hw
    have happ := h.appendTo (.inr hw) hs hash
    simp only [appendMeta, openMetaWriter, hw]
    refine ⟨id, s, { happ with }, hstream, ?_, hw, ?_⟩
    · simp [endOf, hs.lookup]
    · simp [endOf, hs.lookup]
  | none =>
    have happ := h.appendTo_claim .metadata 0 hash a.dataWriter (some a.nextSegmentId) (by
        rintro _ (hid | hid)
        · exact .inl (.inl hid)
        · exact .inr (by simpa [eq_comm] using hid))
    simp only [appendMeta, openMetaWriter, hw]
    refine ⟨_, _, { happ with }, rfl, ?_, rfl, ?_⟩
    · simp [endOf, claim]
    · simp [endOf, claim]

theorem Knows.appended (h : a.Appended b id s hash) {hash' : Hash32}
    (hp : ∀ shard entry, entry ∈ b.pendingIndex shard →
      entry ∈ a.pendingIndex shard ∨ entry = (hash, ⟨id, s.records.length⟩))
    (hm : ∀ hash' loc, b.persistedIndex.mirrored hash' = some loc →
      a.persistedIndex.mirrored hash' = some loc ∨ hash' = hash ∧ loc = ⟨id, s.records.length⟩)
    (hst : b.persistedIndex.striped = a.persistedIndex.striped) (hk : b.Knows hash' loc) :
    a.Knows hash' loc ∨ b.Names hash' loc := by
  have hnames := h.toPuts.names_last
  cases hk with
  | cached hk =>
    rw [h.dedupIndex] at hk
    rcases of_update hk with ⟨rfl, ⟨⟩⟩ | ⟨-, hk⟩
    · exact .inr hnames
    · exact .inl (.cached hk)
  | pending hk =>
    rcases hp _ _ hk with hk | hk
    · exact .inl (.pending hk)
    · obtain ⟨rfl, rfl⟩ : _ ∧ _ := by simpa using hk
      exact .inr hnames
  | mirrored hk =>
    rcases hm _ _ hk with hk | ⟨rfl, rfl⟩
    · exact .inl (.mirrored hk)
    · exact .inr hnames
  | striped hk => exact .inl (.striped (hst ▸ hk))
  | durableMirrored hi hk => exact .inl (.durableMirrored (h.durableIndex ▸ hi) hk)
  | durableStriped hi hk => exact .inl (.durableStriped (h.durableIndex ▸ hi) hk)

/-- Another writer's segment is not the one appended to. -/
theorem Appended.ne_of_open {s' : Segment} (h : a.Appended b id s hash) (hs' : a.Open id' s')
    (hne : s' ≠ s) : id' ≠ id := by
  rintro rfl
  rcases h.fresh with ⟨hfresh, _⟩ | hs
  · exact hfresh (.inl (by simp [hs'.lookup]))
  · exact hne (by simpa [hs'.lookup] using hs)

theorem Progress.appendData (h : a.WellFormed) (shard : ShardId) (hash : Hash32) :
    a.Progress (a.appendData shard hash) := by
  obtain ⟨_, s, happ, hstream, hshard, hd, hp⟩ := appendData_spec h shard hash
  have hrest : (a.appendData shard hash).persistedIndex = a.persistedIndex ∧
      (a.appendData shard hash).metaWriter = a.metaWriter := by
    unfold RecordStore.appendData openSegment
    cases a.dataWriter shard <;> exact ⟨rfl, rfl⟩
  refine Progress.puts h happ.toPuts (happ.wellFormed.append happ.isSealed hash) happ.lt happ.nextSegmentId
    (fun shard' id' hw ↦ ?_) (fun id' hw ↦ ?_) fun hash' loc hk ↦ hk.appended happ ?_ ?_ ?_
  · rw [hd] at hw
    rcases of_update hw with ⟨rfl, ⟨⟩⟩ | ⟨hne, hw⟩
    · exact .inr ⟨rfl, happ.isSealed, by simp [append], hstream, hshard⟩
    · obtain ⟨_, hs', _, hshard'⟩ := h.dataWriter shard' id' hw
      exact .inl ⟨happ.ne_of_open hs' (by rintro rfl; exact hne (hshard'.symm.trans hshard)), hw⟩
  · rw [hrest.2] at hw
    obtain ⟨_, hs', hstream'⟩ := h.metaWriter id' hw
    exact .inl ⟨happ.ne_of_open hs' (by rintro rfl; simp [hstream] at hstream'), hw⟩
  · intro shard' _ hentry
    rw [hp] at hentry
    by_cases heq : shard' = shard
    · subst heq
      simpa using hentry
    · exact .inl (by simpa [heq] using hentry)
  · intro _ _ hloc
    exact .inl (hrest.1 ▸ hloc)
  · rw [hrest.1]

theorem Progress.appendMeta (h : a.WellFormed) (hash : Hash32) :
    a.Progress (a.appendMeta hash).1 := by
  obtain ⟨_, s, happ, hstream, _, hw, hindex⟩ := appendMeta_spec h hash
  have hrest : (a.appendMeta hash).1.pendingIndex = a.pendingIndex ∧
      (a.appendMeta hash).1.dataWriter = a.dataWriter := by
    unfold RecordStore.appendMeta openMetaWriter
    cases a.metaWriter <;> exact ⟨rfl, rfl⟩
  refine Progress.puts h happ.toPuts (happ.wellFormed.append happ.isSealed hash) happ.lt happ.nextSegmentId
    (fun shard id' hid' ↦ ?_) (fun id' hid' ↦ ?_) fun hash' loc hk ↦ hk.appended happ ?_ ?_ ?_
  · rw [hrest.2] at hid'
    obtain ⟨_, hs', hstream', _⟩ := h.dataWriter shard id' hid'
    exact .inl ⟨happ.ne_of_open hs' (by rintro rfl; simp [hstream] at hstream'), hid'⟩
  · cases hw.symm.trans hid'
    exact .inr ⟨rfl, happ.isSealed, by simp [append], hstream⟩
  · intro _ _ hentry
    exact .inl (hrest.1 ▸ hentry)
  · intro _ _ hloc
    rw [hindex] at hloc
    rcases of_update hloc with ⟨rfl, ⟨⟩⟩ | ⟨-, hloc⟩
    · exact .inr ⟨rfl, rfl⟩
    · exact .inl hloc
  · rw [hindex]
    rfl

/-- A sync or a seal of a writer's segment. -/
theorem Open.puts {t : Segment} (h : a.Open id s) (hw : a.WritesTo id) (hrec : t.records = s.records)
    (hs : ∀ id', b.segments.lookup id' = if id' = id then some t else a.segments.lookup id')
    (ht : b.stripes = a.stripes) (hwriter : ∀ id', b.WritesTo id' → a.WritesTo id') : a.Puts b id t :=
  ⟨hs, ht, fun id' hid' ↦ .inl (hwriter id' hid'), .inr ⟨hw, s, h, hrec ▸ prefix_rfl⟩⟩

theorem Open.lookup_modify (h : a.Open id s) (f : Segment → Segment)
    (id' : SegmentId) : (a.segments.modify id f).lookup id' =
      if id' = id then some (f s) else a.segments.lookup id' := by
  rw [Table.lookup_modify]
  split_ifs with hid
  · rw [hid, h.lookup]
    rfl
  · rfl

section

variable (h : a.WellFormed)

include h

theorem WellFormed.exists_open (hw : a.WritesTo id) : ∃ s, a.Open id s := by
  rcases hw with ⟨shard, hw⟩ | hw
  · exact (h.dataWriter shard id hw).imp fun _ h ↦ h.1
  · exact (h.metaWriter id hw).imp fun _ h ↦ h.1

namespace Progress

/-- Syncs one segment. -/
theorem fsync (hw : a.WritesTo id) :
    a.Progress { a with segments := a.segments.modify id .fsync } := by
  obtain ⟨s, hs⟩ := h.exists_open hw
  refine Progress.puts h (hs.puts hw (t := s.fsync) rfl (hs.lookup_modify _) rfl fun _ h ↦ h)
    (.fsync hs.nonempty) (h.allocated_lt id (.inl (by simp [hs.lookup]))) le_rfl
    (fun shard id' hid' ↦ ?_) (fun id' hid' ↦ ?_) fun _ _ hk ↦ .inl ?_
  · by_cases hid : id' = id
    · subst hid
      obtain ⟨_, hs', hrest⟩ := h.dataWriter shard id' hid'
      cases hs'.lookup.symm.trans hs.lookup
      exact .inr ⟨rfl, hs'.isSealed, hs'.nonempty, hrest⟩
    · exact .inl ⟨hid, hid'⟩
  · by_cases hid : id' = id
    · subst hid
      obtain ⟨_, hs', hrest⟩ := h.metaWriter id' hid'
      cases hs'.lookup.symm.trans hs.lookup
      exact .inr ⟨rfl, hs'.isSealed, hs'.nonempty, hrest⟩
    · exact .inl ⟨hid, hid'⟩
  · exact hk.of_segments

/-- Seals one segment; its writer lets go of it. -/
theorem sealed {dataWriter : ShardId → Option SegmentId} {metaWriter : Option SegmentId} (hw : a.WritesTo id)
    (hd : ∀ shard id', dataWriter shard = some id' → id' ≠ id ∧ a.dataWriter shard = some id')
    (hm : ∀ id', metaWriter = some id' → id' ≠ id ∧ a.metaWriter = some id') : a.Progress { a with
      segments := a.segments.modify id .sealed, dataWriter := dataWriter, metaWriter := metaWriter } := by
  obtain ⟨s, hopen⟩ := h.exists_open hw
  refine Progress.puts h (hopen.puts hw (t := s.sealed) rfl (hopen.lookup_modify _) rfl ?_)
    (.sealed hopen.nonempty) (h.allocated_lt id (.inl (by simp [hopen.lookup]))) le_rfl
    (fun shard id' hid' ↦ .inl (hd shard id' hid')) (fun id' hid' ↦ .inl (hm id' hid')) fun _ _ hk ↦ .inl hk.of_segments
  rintro id' (⟨shard, hid'⟩ | hid')
  · exact .inl ⟨shard, (hd shard id' hid').2⟩
  · exact .inr (hm id' hid').2

theorem fsyncData (shard : ShardId) : a.Progress (a.fsyncData shard) := by
  unfold RecordStore.fsyncData
  cases hw : a.dataWriter shard with
  | none => exact .flushIndex h shard
  | some =>
    have hsync := Progress.fsync h (.inl ⟨shard, hw⟩)
    exact hsync.trans (.flushIndex hsync.wellFormed shard)

theorem closeSegment (shard : ShardId) : a.Progress (a.closeSegment shard) := by
  unfold RecordStore.closeSegment
  cases hw : a.dataWriter shard with
  | none => exact .flushIndex h shard
  | some id =>
    obtain ⟨s, hs, hstream, hshard⟩ := h.dataWriter shard id hw
    have hflush := Progress.flushIndex h shard
    have hwrites : (a.flushIndex shard).WritesTo id := .inl ⟨shard, hw⟩
    refine hflush.trans (.sealed hflush.wellFormed hwrites (fun shard' id' hid' ↦ ?_) fun id' hid' ↦ ⟨?_, hid'⟩)
    · rcases of_update hid' with ⟨-, ⟨⟩⟩ | ⟨hne, hw'⟩
      refine ⟨?_, hw'⟩
      rintro rfl
      obtain ⟨_, hs', _, hshard'⟩ := h.dataWriter shard' id' hw'
      cases hs'.lookup.symm.trans hs.lookup
      exact hne (hshard'.symm.trans hshard)
    · rintro rfl
      obtain ⟨_, hs', hstream'⟩ := h.metaWriter id' hid'
      cases hs'.lookup.symm.trans hs.lookup
      simp [hstream] at hstream'

theorem syncMeta : a.Progress a.syncMeta := by
  unfold RecordStore.syncMeta
  split
  · exact .refl h
  · next hw => exact .fsync h (.inr hw)

theorem closeMetaWriter : a.Progress a.closeMetaWriter := by
  unfold RecordStore.closeMetaWriter
  cases hw : a.metaWriter with
  | none => exact .refl h
  | some id =>
    obtain ⟨s, hs, hstream⟩ := h.metaWriter id hw
    have hwrites : a.WritesTo id := .inr hw
    refine .sealed h hwrites (fun shard id' hid' ↦ ⟨?_, hid'⟩) (by simp)
    rintro rfl
    obtain ⟨_, hs', hstream', _⟩ := h.dataWriter shard id' hid'
    cases hs'.lookup.symm.trans hs.lookup
    simp [hstream] at hstream'

theorem checkpointIndex (generation : Nat) : a.Progress (a.checkpointIndex generation) := by
  refine .of_index h fun _ _ hk ↦ .inl ?_
  cases hk with
  | cached hk => exact .cached hk
  | pending hk => exact .pending hk
  | mirrored hk => exact .mirrored hk
  | striped hk => exact .striped hk
  | durableMirrored hi hk =>
    cases hi
    exact .mirrored hk
  | durableStriped hi hk =>
    cases hi
    exact .striped hk

end Progress

end

/-- What a conversion to a stripe does. -/
structure Restriped (a b : RecordStore) (id : SegmentId) (s : Segment) : Prop where
  lookup : a.segments.lookup id = some s
  stripe : a.stripes.lookup id = none
  isSealed : s.isSealed = true
  stream : s.stream = .data
  eq : b = { a with
    stripes := a.stripes.insert id s.records
    persistedIndex := a.restripedIndex id s.records
    durableIndex := some (a.restripedIndex id s.records)
    dedupIndex := fun hash ↦
      ((s.records.idxOf? hash).map fun offset ↦ (⟨id, offset⟩, .striped)).or (a.dedupIndex hash) }

theorem restripe_spec (h : a.restripe id = some b) : ∃ s, a.Restriped b id s := by
  unfold restripe at h
  cases hs : a.segments.lookup id with
  | none => simp [hs] at h
  | some s =>
    cases ht : a.stripes.lookup id with
    | some => simp [hs, ht] at h
    | none =>
      simp only [hs, ht] at h
      split_ifs at h with hcond
      exact ⟨s, hs, ht, hcond.1, hcond.2.1, (some.inj h).symm⟩

theorem Restriped.lookup_stripe (h : a.Restriped b id s) (id' : SegmentId) :
    b.stripes.lookup id' = if id' = id then some s.records else a.stripes.lookup id' := by
  rw [h.eq]
  exact lookup_insert_eq _ _ _ _

theorem Restriped.hasRecord (h : a.Restriped b id s) : b.HasRecord loc r ↔ a.HasRecord loc r := by
  have hs : b.segments = a.segments := by rw [h.eq]
  obtain ⟨_, _⟩ := loc
  simp only [HasRecord, hs, StripeStore.recordAt, h.lookup_stripe]
  split_ifs with hid
  · subst hid
    simp [SegmentStore.recordAt, h.lookup, h.stripe]
  · rfl

theorem Restriped.extends (h : a.Restriped b id s) : a.Extends b where
  allocated id' halloc := by
    have hs : b.segments = a.segments := by rw [h.eq]
    rw [Allocated, hs, h.lookup_stripe]
    split_ifs
    · exact .inr rfl
    · exact halloc
  record loc r _ hr := .inl (h.hasRecord.1 hr)
  pastEnd loc _ hp := by
    rw [h.eq] at hp
    exact hp

theorem Restriped.names (h : a.Restriped b id s) (hwf : a.WellFormed) {offset : Nat}
    (hoffset : s.records.idxOf? hash = some offset) : b.Names hash ⟨id, offset⟩ := by
  have hget := getElem?_of_idxOf? hoffset
  refine ⟨h.extends.allocated _ (.inl (by simp [h.lookup])), fun r hr ↦ ?_, fun hp ↦ ?_⟩
  · rw [h.hasRecord] at hr
    simpa [HasRecord, SegmentStore.recordAt, StripeStore.recordAt, h.lookup, h.stripe, hget,
      eq_comm] using hr
  · obtain ⟨_, hs'⟩ := hwf.exists_open (h.extends.pastEnd _ (.inl (by simp [h.lookup])) hp).1
    cases hs'.lookup.symm.trans h.lookup
    exact absurd h.isSealed (by simp [hs'.isSealed])

theorem Progress.restripe (h : a.WellFormed) (hb : a.restripe id = some b) : a.Progress b := by
  obtain ⟨s, hr⟩ := restripe_spec hb
  have hopen : ∀ id' s', a.Open id' s' → b.Open id' s' := by
    intro id' _ hs'
    have hne : id' ≠ id := by
      rintro rfl
      cases hs'.lookup.symm.trans hr.lookup
      exact absurd hr.isSealed (by simp [hs'.isSealed])
    exact ⟨by rw [hr.eq]; exact hs'.lookup, hs'.isSealed, by simpa [hr.lookup_stripe, hne] using hs'.stripe, hs'.nonempty⟩
  have hold : ∀ hash loc, a.Knows hash loc → b.Names hash loc :=
    fun hash loc hk ↦ (h.knows hash loc hk).extend hr.extends
  have hm : ∀ hash loc, (a.restripedIndex id s.records).mirrored hash = some loc →
      b.Names hash loc := by
    intro hash loc hloc
    simp only [restripedIndex] at hloc
    split_ifs at hloc
    exact hold hash loc (.mirrored hloc)
  have hst : ∀ hash loc, (a.restripedIndex id s.records).striped hash = some loc →
      b.Names hash loc := by
    intro hash loc hloc
    simp only [restripedIndex, or_eq_some_iff, map_eq_some_iff] at hloc
    rcases hloc with ⟨_, hoffset, rfl⟩ | ⟨_, hloc⟩
    · exact hr.names h hoffset
    · exact hold hash loc (.striped hloc)
  obtain rfl := hr.eq
  refine ⟨hr.extends, fun id' halloc ↦ ?_, fun shard id' hw ↦ ?_, fun id' hw ↦ ?_, h.segment,
    fun loc r r' hr₁ hr₂ ↦ ?_, fun hash loc hk ↦ ?_⟩
  · have halloc : a.Allocated id' := by
      by_cases hid : id' = id
      · exact .inl (by rw [hid, hr.lookup]; rfl)
      · simpa [Allocated, hr.lookup_stripe, hid] using halloc
    exact h.allocated_lt id' halloc
  · obtain ⟨s', hs', hrest⟩ := h.dataWriter shard id' hw
    exact ⟨s', hopen id' s' hs', hrest⟩
  · obtain ⟨s', hs', hrest⟩ := h.metaWriter id' hw
    exact ⟨s', hopen id' s' hs', hrest⟩
  · obtain ⟨id', offset⟩ := loc
    rw [StripeStore.recordAt, hr.lookup_stripe] at hr₂
    have hr₁ : a.segments.recordAt ⟨id', offset⟩ = some r := hr₁
    split_ifs at hr₂ with hid
    · subst hid
      have : s.records[offset]? = some r := by
        simpa [SegmentStore.recordAt, hr.lookup] using hr₁
      simpa [this] using hr₂
    · exact h.agree _ r r' hr₁ hr₂
  · cases hk with
    | cached hk =>
      simp only [or_eq_some_iff, map_eq_some_iff, Prod.mk.injEq] at hk
      rcases hk with ⟨_, hoffset, rfl, _⟩ | ⟨_, hk⟩
      · exact hr.names h hoffset
      · exact hold hash loc (.cached hk)
    | pending hk => exact hold hash loc (.pending hk)
    | mirrored hk => exact hm hash loc hk
    | striped hk => exact hst hash loc hk
    | durableMirrored hi hk =>
      cases hi
      exact hm hash loc hk
    | durableStriped hi hk =>
      cases hi
      exact hst hash loc hk

/-- The mirrors of a striped segment go; its records stay in the stripe. -/
theorem removeMirror_spec (h : a.removeMirror id = some b) :
    (a.stripes.lookup id).isSome ∧ b = { a with segments := a.segments.erase id } := by
  unfold removeMirror at h
  split_ifs at h with hcond
  exact ⟨hcond.1, (some.inj h).symm⟩

theorem recordAt_erase {segments : SegmentStore}
    (h : SegmentStore.recordAt (segments.erase id) loc = some r) :
    segments.recordAt loc = some r := by
  rw [SegmentStore.recordAt, lookup_erase_eq] at h
  split_ifs at h
  · simp at h
  · exact h

theorem WellFormed.open_ne_striped (h : a.WellFormed) (hid : (a.stripes.lookup id).isSome)
    (hw : a.WritesTo id') : id' ≠ id := by
  rintro rfl
  obtain ⟨s, hs⟩ := h.exists_open hw
  simp [hs.stripe] at hid

theorem WellFormed.extends_removeMirror (h : a.WellFormed) (hb : a.removeMirror id = some b) :
    a.Extends b := by
  obtain ⟨hstripe, rfl⟩ := removeMirror_spec hb
  refine ⟨fun id' halloc ↦ ?_, fun loc r _ hr ↦ .inl (hr.imp recordAt_erase fun hr ↦ hr),
    fun _ _ hp ↦ ⟨hp.1, fun s hs ↦ hp.2 s ?_⟩⟩
  · by_cases hid : id' = id
    · exact .inr (hid ▸ hstripe)
    · exact halloc.imp (by simp [hid]) fun ht ↦ ht
  · simpa [lookup_erase_eq, h.open_ne_striped hstripe hp.1] using hs

theorem Progress.removeMirror (h : a.WellFormed) (hb : a.removeMirror id = some b) :
    a.Progress b := by
  have hext := h.extends_removeMirror hb
  obtain ⟨hstripe, rfl⟩ := removeMirror_spec hb
  have hopen : ∀ id' s, a.WritesTo id' → a.Open id' s →
      { a with segments := a.segments.erase id }.Open id' s := fun id' s hw hs ↦
    ⟨by simpa [lookup_erase_eq, h.open_ne_striped hstripe hw] using hs.lookup, hs.isSealed,
      hs.stripe, hs.nonempty⟩
  have hlookup : ∀ id' s, (a.segments.erase id).lookup id' = some s → a.segments.lookup id' = some s :=
    fun _ _ hs ↦ (of_lookup_erase hs).2
  refine ⟨hext, fun id' halloc ↦ h.allocated_lt id' ?_, fun shard id' hw ↦ ?_, fun id' hw ↦ ?_,
    fun id' s hs ↦ h.segment id' s (hlookup id' s hs),
    fun loc r r' hr hr' ↦ h.agree loc r r' (recordAt_erase hr) hr',
    fun hash loc hk ↦ (h.knows hash loc hk.of_segments).extend hext⟩
  · refine halloc.imp (fun hs ↦ ?_) fun ht ↦ ht
    obtain ⟨s, hs⟩ := isSome_iff_exists.1 hs
    simp [hlookup id' s hs]
  · obtain ⟨s, hs, hrest⟩ := h.dataWriter shard id' hw
    exact ⟨s, hopen id' s (.inl ⟨shard, hw⟩) hs, hrest⟩
  · obtain ⟨s, hs, hrest⟩ := h.metaWriter id' hw
    exact ⟨s, hopen id' s (.inr hw) hs, hrest⟩

/-- One operation of the record store. -/
inductive Operation : RecordStore → RecordStore → Prop
  | flushIndex (a : RecordStore) (shard : ShardId) : Operation a (a.flushIndex shard)
  | fsyncData (a : RecordStore) (shard : ShardId) : Operation a (a.fsyncData shard)
  | closeSegment (a : RecordStore) (shard : ShardId) : Operation a (a.closeSegment shard)
  | appendData (a : RecordStore) (shard : ShardId) (hash : Hash32) :
      Operation a (a.appendData shard hash)
  | appendMeta (a : RecordStore) (hash : Hash32) : Operation a (a.appendMeta hash).1
  | syncMeta (a : RecordStore) : Operation a a.syncMeta
  | closeMetaWriter (a : RecordStore) : Operation a a.closeMetaWriter
  | checkpointIndex (a : RecordStore) (generation : Nat) :
      Operation a (a.checkpointIndex generation)
  | restripe {a b : RecordStore} {id : SegmentId} : a.restripe id = some b → Operation a b
  | removeMirror {a b : RecordStore} {id : SegmentId} : a.removeMirror id = some b → Operation a b

/-- Any sequence of operations. -/
abbrev Evolves : RecordStore → RecordStore → Prop :=
  Relation.ReflTransGen Operation

theorem Operation.progress (hop : Operation a b) (h : a.WellFormed) : a.Progress b := by
  cases hop with
  | flushIndex shard => exact .flushIndex h shard
  | fsyncData shard => exact .fsyncData h shard
  | closeSegment shard => exact .closeSegment h shard
  | appendData shard hash => exact .appendData h shard hash
  | appendMeta hash => exact .appendMeta h hash
  | syncMeta => exact .syncMeta h
  | closeMetaWriter => exact .closeMetaWriter h
  | checkpointIndex generation => exact .checkpointIndex h generation
  | restripe hb => exact .restripe h hb
  | removeMirror hb => exact .removeMirror h hb

theorem Progress.evolves (hev : Evolves a b) (h : a.WellFormed) : a.Progress b := by
  induction hev with
  | refl => exact .refl h
  | tail _ hop ih => exact ih.trans (hop.progress ih.wellFormed)

theorem evolves_putMetaEncoded (a : RecordStore) (hash : Hash32) :
    Evolves a (a.putMetaEncoded hash).1 := by
  unfold putMetaEncoded
  split
  · split_ifs
    · exact .refl
    · exact .single (.appendMeta a hash)
  · exact .single (.appendMeta a hash)

theorem evolves_putMetaObjects (a : RecordStore) (hashes : List Hash32) :
    Evolves a (a.putMetaObjects hashes) := by
  unfold putMetaObjects
  induction hashes generalizing a with
  | nil => exact .refl
  | cons hash _ ih => exact (evolves_putMetaEncoded a hash).trans (ih _)

/-- The location a meta object is written to belongs to it. -/
theorem WellFormed.names_putMetaEncoded (h : a.WellFormed) (hash : Hash32) :
    (a.putMetaEncoded hash).1.Names hash (a.putMetaEncoded hash).2 := by
  obtain ⟨_, s, happ, _, hloc, _⟩ := appendMeta_spec h hash
  have hnames : (a.appendMeta hash).1.Names hash (a.appendMeta hash).2 :=
    hloc ▸ happ.toPuts.names_last
  unfold putMetaEncoded
  split
  · next hk =>
    split_ifs
    · exact h.knows _ _ (.cached hk)
    · exact hnames
  · exact hnames

theorem wellFormed_create : create.WellFormed where
  allocated_lt id h := by simp [Allocated, create] at h
  dataWriter shard id h := by simp [create] at h
  metaWriter id h := by simp [create] at h
  segment id s h := by simp [create] at h
  agree loc r r' h := by simp [SegmentStore.recordAt, create] at h
  knows hash loc h := by
    cases h with
    | cached h | pending h => simp [create] at h
    | mirrored h | striped h => simp [create, RedbIndex.create] at h
    | durableMirrored hi h | durableStriped hi h =>
      cases hi
      simp [RedbIndex.create] at h

/-- Whatever empties the memory and keeps or cuts the segments, sound locations stay
sound, provided every index entry is. -/
theorem Progress.onDevices (h : a.WellFormed) (segments : SegmentStore) (index : Option RedbIndex)
    (halloc : ∀ id, (segments.lookup id).isSome ↔ (a.segments.lookup id).isSome)
    (hrec : ∀ loc r, segments.recordAt loc = some r → a.segments.recordAt loc = some r)
    (hwf : ∀ id s, segments.lookup id = some s → s.WellFormed)
    (hindex : ∀ hash loc i, index = some i →
      i.mirrored hash = some loc ∨ i.striped hash = some loc → a.Names hash loc) :
    a.Progress (onDevices segments a.stripes index) := by
  have hext : a.Extends (RecordStore.onDevices segments a.stripes index) := by
    refine ⟨fun id hid ↦ hid.imp_left (halloc id).2,
      fun loc r _ hr ↦ .inl (hr.imp_left (hrec loc r)), fun loc _ hp ↦ ?_⟩
    rcases hp.1 with ⟨_, hw⟩ | hw <;> simp [RecordStore.onDevices, create] at hw
  refine ⟨hext, fun id hid ↦ lt_freshSegmentId hid, fun shard id hw ↦ ?_, fun id hw ↦ ?_, hwf,
    fun loc r r' hr hr' ↦ h.agree loc r r' (hrec loc r hr) hr', fun hash loc hk ↦ ?_⟩
  · simp [RecordStore.onDevices, create] at hw
  · simp [RecordStore.onDevices, create] at hw
  · cases hk with
    | cached h | pending h => simp [RecordStore.onDevices, create] at h
    | mirrored h | striped h => simp [RecordStore.onDevices, create, RedbIndex.create] at h
    | durableMirrored hi h => exact (hindex hash loc _ hi (.inl h)).extend hext
    | durableStriped hi h => exact (hindex hash loc _ hi (.inr h)).extend hext

theorem WellFormed.names_index (h : a.WellFormed) {i : RedbIndex} (hi : a.durableIndex = some i)
    (hloc : i.mirrored hash = some loc ∨ i.striped hash = some loc) : a.Names hash loc :=
  h.knows hash loc (hloc.elim (.durableMirrored hi) (.durableStriped hi))

theorem Progress.crash (h : a.WellFormed) :
    a.Progress (.onDevices (a.segments.mapVal afterCrash) a.stripes a.durableIndex) := by
  refine .onDevices h _ _ (fun id ↦ by simp) (fun loc r hr ↦ ?_) (fun id s hs ↦ ?_)
    fun _ _ i hi hloc ↦ h.names_index hi hloc
  · simp only [SegmentStore.recordAt, lookup_mapVal, bind_eq_some_iff,
      map_eq_some_iff] at hr ⊢
    obtain ⟨_, ⟨s, hs, rfl⟩, hr⟩ := hr
    rw [afterCrash, durable, getElem?_take] at hr
    split_ifs at hr
    exact ⟨s, hs, hr⟩
  · obtain ⟨s₀, hs₀, rfl⟩ := map_eq_some_iff.1 ((lookup_mapVal _ _ _).symm.trans hs)
    exact (h.segment id s₀ hs₀).afterCrash

end RecordStore

end Lchfs.Store
