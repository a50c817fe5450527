import Lchfs.Store.RecordStore

/-!
# Locations stay valid

A read takes the record at a location and does not compare it with the hash it was
asked for. This is sound because a location that the store has handed out for a hash
never comes to hold another record: segment ids are not reused, a segment is only
appended to by its own writer, and a stripe holds the records of its segment at the
same places. `WellFormed` collects these facts and `Extends` says what any operation
may do to the devices.
-/

namespace Lchfs.Store

open Lchfs.Format Lchfs.Library
open List Option

/-- The recorded length covers at least one record and no more than there are; the footer
of a sealed segment covers all of them. -/
structure Segment.WellFormed (s : Segment) : Prop where
  written : ∀ n, s.writtenLen = some n → 0 < n ∧ n ≤ s.records.length
  footer : s.isSealed = true → s.writtenLen = some s.records.length

namespace Segment

variable {s : Segment}

namespace WellFormed

theorem append (h : s.WellFormed) (hopen : s.isSealed = false) (hash : Hash32) :
    (s.append hash).WellFormed where
  written n hn := by
    have := h.written n hn
    simp only [Segment.append, length_append]
    omega
  footer hs := by simp [Segment.append, hopen] at hs

theorem create (stream : StreamKind) (shard : ShardId) :
    (Segment.create stream shard).WellFormed where
  written n hn := by simp [Segment.create] at hn
  footer hs := by simp [Segment.create] at hs

theorem fsync (hne : s.records ≠ []) : s.fsync.WellFormed where
  written n hn := by
    obtain rfl : s.records.length = n := by simpa [Segment.fsync] using hn
    exact ⟨length_pos_iff.2 hne, le_rfl⟩
  footer _ := rfl

theorem sealed (hne : s.records ≠ []) : s.sealed.WellFormed where
  written n hn := by
    obtain rfl : s.records.length = n := by simpa [Segment.sealed, Segment.fsync] using hn
    exact ⟨length_pos_iff.2 hne, le_rfl⟩
  footer _ := rfl

theorem afterCrash (h : s.WellFormed) : s.afterCrash.WellFormed where
  written n hn := by
    have hn : s.writtenLen = some n := hn
    have := h.written n hn
    simp only [Segment.afterCrash, Segment.durable, hn, getD_some, length_take]
    omega
  footer hs := by
    have hlen := h.footer hs
    simp [Segment.afterCrash, Segment.durable, hlen]

theorem records_ne_nil (h : s.WellFormed) (hw : s.writtenLen ≠ none) : s.records ≠ [] := by
  obtain ⟨n, hn⟩ := ne_none_iff_exists'.1 hw
  have := h.written n hn
  exact length_pos_iff.1 (by omega)

end WellFormed

end Segment

namespace RecordStore

variable (store : RecordStore)

/-- Some writer appends to the segment. -/
def WritesTo (id : SegmentId) : Prop :=
  (∃ shard, store.dataWriter shard = some id) ∨ store.metaWriter = some id

/-- The id is taken on the devices. -/
def Allocated (id : SegmentId) : Prop :=
  (store.segments.lookup id).isSome ∨ (store.stripes.lookup id).isSome

/-- The record is at the location, in the segment or in its stripe. -/
def HasRecord (loc : ExtentLocation) (hash : Hash32) : Prop :=
  store.segments.recordAt loc = some hash ∨ store.stripes.recordAt loc = some hash

/-- A later append may put a record at the location. -/
def PastEnd (loc : ExtentLocation) : Prop :=
  store.WritesTo loc.segmentId ∧
    ∀ s, store.segments.lookup loc.segmentId = some s → s.records.length ≤ loc.offset

/-- The location belongs to the hash: no other record is there or will be. -/
structure Names (hash : Hash32) (loc : ExtentLocation) : Prop where
  allocated : store.Allocated loc.segmentId
  record : ∀ r, store.HasRecord loc r → r = hash
  settled : ¬store.PastEnd loc

/-- The store has handed out the location for the hash. -/
inductive Knows : Hash32 → ExtentLocation → Prop
  | cached {hash loc tag} : store.dedupIndex hash = some (loc, tag) → Knows hash loc
  | pending {shard hash loc} : (hash, loc) ∈ store.pendingIndex shard → Knows hash loc
  | mirrored {hash loc} : store.persistedIndex.mirrored hash = some loc → Knows hash loc
  | striped {hash loc} : store.persistedIndex.striped hash = some loc → Knows hash loc
  | durableMirrored {index hash loc} : store.durableIndex = some index →
      index.mirrored hash = some loc → Knows hash loc
  | durableStriped {index hash loc} : store.durableIndex = some index →
      index.striped hash = some loc → Knows hash loc

/-- A writer's segment: open, not converted and not empty. -/
structure Open (id : SegmentId) (s : Segment) : Prop where
  lookup : store.segments.lookup id = some s
  isSealed : s.isSealed = false
  stripe : store.stripes.lookup id = none
  nonempty : s.records ≠ []

structure WellFormed : Prop where
  allocated_lt : ∀ id, store.Allocated id → id < store.nextSegmentId
  dataWriter : ∀ shard id, store.dataWriter shard = some id →
    ∃ s, store.Open id s ∧ s.stream = .data ∧ s.ownerShard = shard
  metaWriter : ∀ id, store.metaWriter = some id → ∃ s, store.Open id s ∧ s.stream = .metadata
  segment : ∀ id s, store.segments.lookup id = some s → s.WellFormed
  agree : ∀ loc r r', store.segments.recordAt loc = some r → store.stripes.recordAt loc = some r' →
    r = r'
  knows : ∀ hash loc, store.Knows hash loc → store.Names hash loc

/-- What an operation may do to the devices: ids stay allocated, and a record that is new
in an old segment was appended by the segment's writer. -/
structure Extends (a b : RecordStore) : Prop where
  allocated : ∀ id, a.Allocated id → b.Allocated id
  record : ∀ loc r, a.Allocated loc.segmentId → b.HasRecord loc r → a.HasRecord loc r ∨ a.PastEnd loc
  pastEnd : ∀ loc, a.Allocated loc.segmentId → b.PastEnd loc → a.PastEnd loc

/-- A step from a well-formed store to a well-formed store. -/
structure Progress (a b : RecordStore) : Prop where
  devices : a.Extends b
  wellFormed : b.WellFormed

variable {store} {a b c : RecordStore} {hash : Hash32} {loc : ExtentLocation} {id : SegmentId}
variable {s : Segment}

theorem Extends.refl (a : RecordStore) : a.Extends a where
  allocated _ h := h
  record _ _ _ h := .inl h
  pastEnd _ _ h := h

theorem Extends.trans (hab : a.Extends b) (hbc : b.Extends c) : a.Extends c where
  allocated id h := hbc.allocated id (hab.allocated id h)
  record loc r halloc h := by
    rcases hbc.record loc r (hab.allocated _ halloc) h with h | h
    · exact hab.record loc r halloc h
    · exact .inr (hab.pastEnd loc halloc h)
  pastEnd loc halloc h := hab.pastEnd loc halloc (hbc.pastEnd loc (hab.allocated _ halloc) h)

theorem Progress.refl (h : a.WellFormed) : a.Progress a :=
  ⟨.refl a, h⟩

theorem Progress.trans (hab : a.Progress b) (hbc : b.Progress c) : a.Progress c :=
  ⟨hab.devices.trans hbc.devices, hbc.wellFormed⟩

theorem Names.extend (h : a.Names hash loc) (hab : a.Extends b) : b.Names hash loc where
  allocated := hab.allocated _ h.allocated
  record r hr := (hab.record loc r h.allocated hr).elim (h.record r) fun hp ↦ (h.settled hp).elim
  settled hp := h.settled (hab.pastEnd loc h.allocated hp)

/-- Operations that leave segments, stripes and writers alone. -/
theorem Extends.of_eq (hs : b.segments = a.segments) (ht : b.stripes = a.stripes)
    (hd : b.dataWriter = a.dataWriter) (hm : b.metaWriter = a.metaWriter) : a.Extends b where
  allocated id h := by simpa [Allocated, hs, ht] using h
  record loc r _ h := .inl (by simpa [HasRecord, hs, ht] using h)
  pastEnd loc _ h := by simpa [PastEnd, WritesTo, hs, hd, hm] using h

/-- What an operation does that puts `s` at one id: the id is fresh, or the segment is its
writer's and its records stay in front. -/
structure Puts (a b : RecordStore) (id : SegmentId) (s : Segment) : Prop where
  lookup : ∀ id', b.segments.lookup id' = if id' = id then some s else a.segments.lookup id'
  stripes : b.stripes = a.stripes
  writesTo : ∀ id', b.WritesTo id' → a.WritesTo id' ∨ id' = id
  target : ¬a.Allocated id ∨
    a.WritesTo id ∧ ∃ s₀, a.Open id s₀ ∧ s₀.records <+: s.records

theorem Puts.stripe_none (h : a.Puts b id s) : a.stripes.lookup id = none := by
  rcases h.target with h | ⟨_, _, h, _⟩
  · simpa using fun hs ↦ h (.inr hs)
  · exact h.stripe

theorem Puts.recordAt_ne (h : a.Puts b id s) (hloc : loc.segmentId ≠ id) :
    b.segments.recordAt loc = a.segments.recordAt loc := by
  simp [SegmentStore.recordAt, h.lookup, hloc]

theorem Puts.recordAt_self (h : a.Puts b id s) (offset : Nat) :
    b.segments.recordAt ⟨id, offset⟩ = s.records[offset]? := by
  simp [SegmentStore.recordAt, h.lookup]

theorem Puts.extends (h : a.Puts b id s) : a.Extends b where
  allocated id' halloc := by
    rw [Allocated, h.lookup, h.stripes]
    split_ifs
    · exact .inl rfl
    · exact halloc
  record loc r halloc hr := by
    obtain ⟨id', offset⟩ := loc
    by_cases hid : id' = id
    · subst hid
      rw [HasRecord, h.stripes, h.recordAt_self] at hr
      rcases hr with hr | hr
      · rcases h.target with hfresh | ⟨hw, s₀, hs₀, hprefix⟩
        · exact absurd halloc hfresh
        · by_cases hlt : offset < s₀.records.length
          · left
            left
            obtain ⟨t, ht⟩ := hprefix
            rw [← ht, getElem?_append_left hlt] at hr
            simpa [SegmentStore.recordAt, hs₀.lookup] using hr
          · right
            refine ⟨hw, fun s' hs' ↦ ?_⟩
            cases hs₀.lookup.symm.trans hs'
            exact Nat.le_of_not_lt hlt
      · exact .inl (.inr hr)
    · rw [HasRecord, h.recordAt_ne hid, h.stripes] at hr
      exact .inl hr
  pastEnd loc halloc hp := by
    obtain ⟨id', _⟩ := loc
    obtain ⟨hw, hlen⟩ := hp
    simp only [h.lookup] at hlen
    by_cases hid : id' = id
    · subst hid
      simp only [if_true, some.injEq, forall_eq'] at hlen
      rcases h.target with hfresh | ⟨hw, _, hs₀, hprefix⟩
      · exact absurd halloc hfresh
      · refine ⟨hw, fun _ hs' ↦ ?_⟩
        cases hs₀.lookup.symm.trans hs'
        exact Nat.le_trans hprefix.length_le hlen
    · simp only [hid, if_false] at hlen
      exact ⟨(h.writesTo _ hw).resolve_right hid, hlen⟩

/-- The location of the last record of the segment that was put. -/
theorem Puts.names_last (h : a.Puts b id (s.append hash)) : b.Names hash ⟨id, s.records.length⟩ where
  allocated := .inl (by simp [h.lookup])
  record r hr := by
    rw [HasRecord, h.recordAt_self, h.stripes] at hr
    simpa [Segment.append, StripeStore.recordAt, h.stripe_none, eq_comm] using hr
  settled hp := by
    have := hp.2 (s.append hash) (by simp [h.lookup])
    simp only [Segment.append, length_append, length_singleton] at this
    omega

/-- An operation that puts a segment keeps the store well formed if it keeps the writers'
segments open and hands out good locations only. -/
theorem Progress.puts (hwf : a.WellFormed) (h : a.Puts b id s)
    (hs : s.WellFormed) (hid : id < b.nextSegmentId) (hnext : a.nextSegmentId ≤ b.nextSegmentId)
    (hdata : ∀ shard id', b.dataWriter shard = some id' → id' ≠ id ∧ a.dataWriter shard = some id' ∨
        id' = id ∧ s.isSealed = false ∧ s.records ≠ [] ∧ s.stream = .data ∧ s.ownerShard = shard)
    (hmeta : ∀ id', b.metaWriter = some id' → id' ≠ id ∧ a.metaWriter = some id' ∨
      id' = id ∧ s.isSealed = false ∧ s.records ≠ [] ∧ s.stream = .metadata)
    (hknows : ∀ hash loc, b.Knows hash loc → a.Knows hash loc ∨ b.Names hash loc) : a.Progress b := by
  refine ⟨h.extends, fun id' halloc ↦ ?_, fun shard id' hw ↦ ?_, fun id' hw ↦ ?_, fun id' s' hs' ↦ ?_,
    fun loc r r' hr hr' ↦ ?_, fun hash loc hk ↦ ?_⟩
  · by_cases hid' : id' = id
    · exact hid' ▸ hid
    · refine Nat.lt_of_lt_of_le (hwf.allocated_lt id' ?_) hnext
      simpa [Allocated, h.lookup, h.stripes, hid'] using halloc
  · rcases hdata shard id' hw with ⟨hne, hw⟩ | ⟨rfl, hopen, hne, hstream, hshard⟩
    · obtain ⟨s', hs', hrest⟩ := hwf.dataWriter shard id' hw
      exact ⟨s', ⟨by simp [h.lookup, hne, hs'.lookup], hs'.isSealed,
        by simpa [h.stripes] using hs'.stripe, hs'.nonempty⟩, hrest⟩
    · exact ⟨s, ⟨by simp [h.lookup], hopen, by simpa [h.stripes] using h.stripe_none, hne⟩,
        hstream, hshard⟩
  · rcases hmeta id' hw with ⟨hne, hw⟩ | ⟨rfl, hopen, hne, hstream⟩
    · obtain ⟨s', hs', hrest⟩ := hwf.metaWriter id' hw
      exact ⟨s', ⟨by simp [h.lookup, hne, hs'.lookup], hs'.isSealed,
        by simpa [h.stripes] using hs'.stripe, hs'.nonempty⟩, hrest⟩
    · exact ⟨s, ⟨by simp [h.lookup], hopen, by simpa [h.stripes] using h.stripe_none, hne⟩, hstream⟩
  · rw [h.lookup] at hs'
    split_ifs at hs' with hid'
    · obtain rfl : s = s' := by simpa using hs'
      exact hs
    · exact hwf.segment id' s' hs'
  · rw [h.stripes] at hr'
    obtain ⟨id', _⟩ := loc
    by_cases hid' : id' = id
    · subst hid'
      simp [StripeStore.recordAt, h.stripe_none] at hr'
    · rw [h.recordAt_ne hid'] at hr
      exact hwf.agree _ r r' hr hr'
  · rcases hknows hash loc hk with hk | hnames
    · exact (hwf.knows hash loc hk).extend h.extends
    · exact hnames

end RecordStore

end Lchfs.Store
