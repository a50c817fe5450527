import Lchfs.Index.Machine

/-!
# Locations that stay good

`Settled` segments are those that nobody appends to or opens again: a location in one of them
is put into the index or the cache by the coalescer only. `Frame` says what every other step
leaves alone: records stay where they are, settled segments do not change, and no location in
a settled segment becomes known that was not known before.
-/

namespace Lchfs.Index

open Lchfs.Format (ShardId SegmentId)
open Lchfs.Library
open List Option State Table

variable {Hash : Type}

/-! ## Index entries -/

namespace Entries

variable [DecidableEq Hash] {t : Entries Hash} {entries : List ((Hash × Tag) × Location)}
  {key : Hash × Tag} {loc : Location}
variable {id : SegmentId} {keys : List (Hash × Tag)} {hash : Hash} {tag : Tag}
  {l : List ((Hash × Tag) × Location)} {best : Option (Location × Tag)}

theorem lookup_putAll (h : (putAll t entries).lookup key = some loc) :
    (key, loc) ∈ entries ∨ (t.lookup key = some loc ∧ ∀ entry ∈ entries, entry.1 ≠ key) := by
  have hread := foldl_read (fun (t : Entries Hash) entry ↦ t.insert entry.1 entry.2)
    (fun t ↦ t.lookup key) (fun entry : (Hash × Tag) × Location ↦ entry.1 = key)
    (fun entry ↦ some entry.2)
    (fun t entry heq ↦ by simp [lookup_insert_eq, heq])
    (fun t entry hne ↦ by simp [lookup_insert_eq, Ne.symm hne]) entries t
  rcases hread with ⟨_, hmem, rfl, heq⟩ | ⟨hmiss, heq⟩
  · cases heq.symm.trans h
    exact .inl hmem
  · exact .inr ⟨heq.symm.trans h, hmiss⟩

theorem lookup_putAll_of_ne (h : ∀ entry ∈ entries, entry.1 ≠ key) :
    (putAll t entries).lookup key = t.lookup key := by
  induction entries generalizing t with
  | nil => rfl
  | cons _ _ ih =>
    rw [forall_mem_cons] at h
    rw [putAll, foldl_cons, ← putAll, ih h.2, lookup_insert_eq, if_neg (Ne.symm h.1)]

theorem isSome_lookup_putAll :
    ((putAll t entries).lookup key).isSome ↔ (∃ entry ∈ entries, entry.1 = key) ∨ (t.lookup key).isSome := by
  induction entries generalizing t with
  | nil => simp [putAll]
  | cons _ _ ih =>
    rw [putAll, foldl_cons, ← putAll, ih, lookup_insert_eq]
    simp only [mem_cons, exists_eq_or_imp]
    split_ifs with heq
    · simp [heq]
    · simp [Ne.symm heq]

theorem lookup_eraseIn (h : (eraseIn id t keys).lookup key = some loc) :
    t.lookup key = some loc ∧ (key ∈ keys → loc.segmentId ≠ id) := by
  induction keys generalizing t with
  | nil => exact ⟨h, by simp⟩
  | cons k _ ih =>
    rw [eraseIn, foldl_cons, ← eraseIn] at h
    obtain ⟨hlookup, hne⟩ := ih h
    split at hlookup
    next _ =>
      obtain ⟨heq, hlookup⟩ := of_lookup_erase hlookup
      exact ⟨hlookup, fun hmem ↦ (mem_cons.1 hmem).elim (fun h ↦ absurd h heq) hne⟩
    next hout =>
      refine ⟨hlookup, fun hmem ↦ (mem_cons.1 hmem).elim (fun heq ↦ ?_) hne⟩
      rw [← heq, hlookup] at hout
      simpa using hout

/-- An entry outside the segment stays. -/
theorem lookup_eraseIn_of_ne (h : t.lookup key = some loc) (hne : loc.segmentId ≠ id) :
    (eraseIn id t keys).lookup key = some loc := by
  induction keys generalizing t with
  | nil => exact h
  | cons k _ ih =>
    rw [eraseIn, foldl_cons, ← eraseIn]
    refine ih ?_
    split
    next hin =>
      rw [lookup_erase_eq, if_neg, h]
      rintro rfl
      simp [h, hne] at hin
    · exact h

/-- An entry of another key stays. -/
theorem lookup_eraseIn_of_notMem (h : key ∉ keys) : (eraseIn id t keys).lookup key = t.lookup key := by
  induction keys generalizing t with
  | nil => rfl
  | cons k _ ih =>
    rw [eraseIn, foldl_cons, ← eraseIn, ih (fun hmem ↦ h (mem_cons_of_mem _ hmem))]
    split
    · rw [lookup_erase_eq, if_neg]
      rintro rfl
      exact h mem_cons_self
    · rfl

theorem foldl_better_mem (h : l.foldl better best = some (loc, tag)) :
    best = some (loc, tag) ∨ ∃ entry ∈ l, entry.1.2 = tag ∧ entry.2 = loc := by
  induction l generalizing best with
  | nil => exact .inl h
  | cons entry l ih =>
    rcases ih h with h | ⟨e, he, heq⟩
    · simp only [better] at h
      split_ifs at h
      · exact .inl h
      · cases h
        exact .inr ⟨entry, mem_cons_self, rfl, rfl⟩
    · exact .inr ⟨e, mem_cons_of_mem _ he, heq⟩

/-- What the cache is warmed with is an entry of the index. -/
theorem lookup_of_preferred (h : t.preferred hash = some (loc, tag)) :
    t.lookup (hash, tag) = some loc := by
  rcases foldl_better_mem h with h | ⟨_, hentry, rfl, rfl⟩
  · simp at h
  · obtain ⟨hmem, hhash⟩ := mem_filter.1 hentry
    rw [← of_decide_eq_true hhash]
    exact mem_toList.1 hmem

theorem has_iff : t.has hash = true ↔ ∃ tag loc, t.lookup (hash, tag) = some loc := by
  simp only [has, List.any_eq_true, decide_eq_true_eq, Prod.exists]
  constructor
  · rintro ⟨h, tag, loc, hmem, rfl⟩
    exact ⟨tag, loc, Table.mem_toList.1 hmem⟩
  · rintro ⟨tag, loc, hlookup⟩
    exact ⟨hash, tag, loc, Table.mem_toList.2 hlookup, rfl⟩

theorem isSome_foldl_better (h : best.isSome ∨ l ≠ []) : (l.foldl better best).isSome := by
  induction l generalizing best with
  | nil => exact h.resolve_right (by simp)
  | cons _ l ih =>
    refine ih (.inl ?_)
    unfold better
    split_ifs with hany
    · obtain ⟨x, hx, -⟩ := (any_eq_true _ _).1 hany
      simp [hx]
    · rfl

theorem isSome_preferred (h : t.has hash = true) : (t.preferred hash).isSome := by
  obtain ⟨_, hentry, hhash⟩ := any_eq_true.1 h
  exact isSome_foldl_better (.inr (ne_nil_of_mem (mem_filter.2 ⟨hentry, hhash⟩)))

end Entries

/-- The entries of a segment's records. -/
theorem Segment.mem_entries {id : SegmentId} {records : List Hash} {hash : Hash} {loc : Location} :
    (hash, loc) ∈ Segment.entries id records ↔ loc.segmentId = id ∧ records[loc.offset]? = some hash := by
  obtain ⟨_, offset⟩ := loc
  simp only [Segment.entries, List.mem_map, Prod.exists, Prod.mk.injEq, Location.mk.injEq]
  constructor
  · rintro ⟨h, i, hmem, rfl, rfl, rfl⟩
    exact ⟨rfl, List.mem_zipIdx_iff_getElem?.1 hmem⟩
  · rintro ⟨rfl, hget⟩
    exact ⟨hash, offset, List.mem_zipIdx_iff_getElem?.2 hget, rfl, rfl, rfl⟩

namespace State

variable {s t u : State Hash}
variable {loc : Location} {hash : Hash} {v : VdevId}

/-! ## Where records are -/

theorem recordAt_vdev : s.recordAt (.vdev v) loc = some hash ↔
      ∃ seg, s.segments v loc.segmentId = some seg ∧ seg.records[loc.offset]? = some hash :=
  bind_eq_some_iff

theorem durableAt_vdev : s.durableAt (.vdev v) loc = some hash ↔
      ∃ seg, s.segments v loc.segmentId = some seg ∧ (seg.records.take seg.durable)[loc.offset]? = some hash :=
  bind_eq_some_iff

theorem recordAt_of_durableAt {tag : Tag} (h : s.durableAt tag loc = some hash) : s.recordAt tag loc = some hash := by
  cases tag with
  | striped => exact h
  | vdev =>
    obtain ⟨seg, hseg, hget⟩ := durableAt_vdev.1 h
    rw [getElem?_take] at hget
    split_ifs at hget
    exact recordAt_vdev.2 ⟨seg, hseg, hget⟩

end State

theorem getElem?_of_prefix {α : Type*} {l l' : List α} {i : Nat} {a : α} (h : l <+: l')
    (hget : l[i]? = some a) : l'[i]? = some a := by
  obtain ⟨_, rfl⟩ := h
  rw [List.getElem?_append_left (List.getElem?_eq_some_iff.1 hget).1, hget]

/-- Every record of one copy is in the other, and every durable record is durable there. -/
structure Segment.Extends (a b : Segment Hash) : Prop where
  records : a.records <+: b.records
  durable : a.records.take a.durable <+: b.records.take b.durable

namespace Segment

theorem Extends.refl (a : Segment Hash) : a.Extends a :=
  ⟨prefix_refl _, prefix_refl _⟩

theorem Extends.trans {a b c : Segment Hash} (hab : a.Extends b) (hbc : b.Extends c) : a.Extends c :=
  ⟨hab.records.trans hbc.records, hab.durable.trans hbc.durable⟩

theorem extends_append (a : Segment Hash) (hash : Hash) : a.Extends (a.append hash) := by
  refine ⟨prefix_append _ _, ?_⟩
  simp only [append, take_append]
  exact prefix_append _ _

theorem extends_fsync (a : Segment Hash) : a.Extends a.fsync := by
  refine ⟨prefix_refl _, ?_⟩
  simpa [fsync] using take_prefix _ _

theorem extends_sealed (a : Segment Hash) : a.Extends a.sealed :=
  ⟨a.extends_fsync.records, a.extends_fsync.durable⟩

end Segment

namespace State

variable [DecidableEq Hash] {s t u : State Hash}

/-- Segments that nobody appends to: sealed on their device, or a stripe. -/
def Settled (s : State Hash) (tag : Tag) (id : SegmentId) : Prop :=
  id < s.nextSegmentId ∧ ∀ v, tag = .vdev v → ∀ seg, s.segments v id = some seg → seg.isSealed = true

/-- What a step leaves alone that is neither the coalescer's nor a change of the index in use. -/
structure Frame (s t : State Hash) : Prop where
  segments : ∀ v id seg, s.segments v id = some seg → ∃ seg', t.segments v id = some seg' ∧ seg.Extends seg'
  stripes : t.stripes = s.stripes
  next : s.nextSegmentId ≤ t.nextSegmentId
  same : ∀ v id, s.Settled (.vdev v) id → t.segments v id = s.segments v id
  home : t.indexHome = s.indexHome
  index : ∀ key loc, t.index.entries.lookup key = some loc →
    s.index.entries.lookup key = some loc ∨ ¬s.Settled key.2 loc.segmentId
  file : ∀ file', t.indexFiles t.indexHome = some file' → ∀ key loc, file'.entries.lookup key = some loc →
    (∃ file, s.indexFiles s.indexHome = some file ∧ file.entries.lookup key = some loc) ∨
      s.index.entries.lookup key = some loc ∨ ¬s.Settled key.2 loc.segmentId
  cache : ∀ hash loc tag, t.cache hash = some (loc, tag) →
    s.cache hash = some (loc, tag) ∨ ¬s.Settled tag loc.segmentId

namespace Frame

variable {tag : Tag} {loc : Location} {hash : Hash}

theorem settled (h : Frame s t) {id : SegmentId} (hs : s.Settled tag id) : t.Settled tag id := by
  refine ⟨Nat.lt_of_lt_of_le hs.1 h.next, ?_⟩
  rintro v rfl
  rw [h.same v id hs]
  exact hs.2 v rfl

theorem refl (s : State Hash) : Frame s s where
  segments _ _ seg hseg := ⟨seg, hseg, .refl seg⟩
  stripes := rfl
  next := Nat.le_refl _
  same _ _ _ := rfl
  home := rfl
  index _ _ h := .inl h
  file file hfile _ _ h := .inl ⟨file, hfile, h⟩
  cache _ _ _ h := .inl h

theorem trans (hst : Frame s t) (htu : Frame t u) : Frame s u where
  segments v id seg hseg := by
    obtain ⟨seg', hseg', hext⟩ := hst.segments v id seg hseg
    obtain ⟨seg'', hseg'', hext'⟩ := htu.segments v id seg' hseg'
    exact ⟨seg'', hseg'', hext.trans hext'⟩
  stripes := htu.stripes.trans hst.stripes
  next := Nat.le_trans hst.next htu.next
  same v id hs := (htu.same v id (hst.settled hs)).trans (hst.same v id hs)
  home := htu.home.trans hst.home
  index key loc h := by
    rcases htu.index key loc h with h | h
    · exact hst.index key loc h
    · exact .inr fun hs ↦ h (hst.settled hs)
  file file' hfile' key loc h := by
    rcases htu.file file' hfile' key loc h with ⟨file, hfile, h⟩ | h | h
    · exact hst.file file hfile key loc h
    · exact .inr (hst.index key loc h)
    · exact .inr (.inr fun hs ↦ h (hst.settled hs))
  cache hash loc tag h := by
    rcases htu.cache hash loc tag h with h | h
    · exact hst.cache hash loc tag h
    · exact .inr fun hs ↦ h (hst.settled hs)

theorem recordAt (h : Frame s t) (hrecord : s.recordAt tag loc = some hash) :
    t.recordAt tag loc = some hash := by
  cases tag with
  | striped => simpa [recordAt, h.stripes] using hrecord
  | vdev v =>
    obtain ⟨seg, hseg, hget⟩ := recordAt_vdev.1 hrecord
    obtain ⟨seg', hseg', hext⟩ := h.segments v _ seg hseg
    exact recordAt_vdev.2 ⟨seg', hseg', getElem?_of_prefix hext.records hget⟩

theorem durableAt (h : Frame s t) (hdurable : s.durableAt tag loc = some hash) :
    t.durableAt tag loc = some hash := by
  cases tag with
  | striped => simpa [durableAt, h.stripes] using hdurable
  | vdev v =>
    obtain ⟨seg, hseg, hget⟩ := durableAt_vdev.1 hdurable
    obtain ⟨seg', hseg', hext⟩ := h.segments v _ seg hseg
    exact durableAt_vdev.2 ⟨seg', hseg', getElem?_of_prefix hext.durable hget⟩

/-- A settled segment gets no new record. -/
theorem recordAt_settled (h : Frame s t) (hs : s.Settled tag loc.segmentId) :
    t.recordAt tag loc = s.recordAt tag loc := by
  cases tag with
  | striped => simp [State.recordAt, h.stripes]
  | vdev v => simp [State.recordAt, h.same v _ hs]

end Frame

end State

end Lchfs.Index
