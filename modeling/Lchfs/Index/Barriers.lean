import Lchfs.Index.Locations
import Lchfs.Index.Replicas

/-!
# What a shard's barrier covers

`fsync_data` syncs the segment a shard has open and no other. A segment that is sealed is
synced by the seal. A segment that is given up, because an append or its seal fails on every
device it still had, is not synced by anybody: what was acknowledged in it is covered by later
barriers only if some device had all of it durable already.
-/

set_option linter.unusedSectionVars false

namespace Lchfs.Index

open Lchfs.Format (ShardId SegmentId)
open Lchfs.Library
open List Option State Segment

variable {Hash : Type}

theorem Segment.cut_prefix (seg : Segment Hash) : seg.cut.records <+: seg.records :=
  take_prefix _ _

namespace State

variable {s t u : State Hash} {stream : Stream} {w : Writer} {vdevs : List VdevId} {hash : Hash}
variable {id : SegmentId} {shard : ShardId} {loc : Location} {v : VdevId} {seg : Segment Hash}

/-! ## Durable records stay -/

/-- What is durable in one state is durable in the other. -/
def KeepsDurable (s t : State Hash) : Prop :=
  ∀ v loc hash, s.durableAt (.vdev v) loc = some hash → t.durableAt (.vdev v) loc = some hash

/-- No copy loses a durable record, unless it had none. -/
theorem KeepsDurable.of_segments (h : ∀ v id seg, s.segments v id = some seg → seg.records ≠ [] →
      ∃ seg', t.segments v id = some seg' ∧ seg.records.take seg.durable <+: seg'.records.take seg'.durable) :
    KeepsDurable s t := by
  intro v loc _ hdurable
  obtain ⟨seg, hseg, hget⟩ := durableAt_vdev.1 hdurable
  have hne : seg.records ≠ [] := by
    rintro hnil
    simp [hnil] at hget
  obtain ⟨seg', hseg', hprefix⟩ := h v loc.segmentId seg hseg hne
  exact durableAt_vdev.2 ⟨seg', hseg', getElem?_of_prefix hprefix hget⟩

theorem keepsDurable_updateSegment {f : Segment Hash → Segment Hash}
    (hf : ∀ seg : Segment Hash, seg.records.take seg.durable <+: (f seg).records.take (f seg).durable) :
    KeepsDurable s (s.updateSegment vdevs id f) := by
  refine .of_segments fun v i seg hseg _ ↦ ?_
  simp only [updateSegment, hseg]
  split_ifs
  · exact ⟨f seg, rfl, hf seg⟩
  · exact ⟨seg, rfl, prefix_refl _⟩

/-- The copies of an open segment follow its writer: none is longer, and those it still appends
to are as long. -/
structure Follows (s : State Hash) : Prop where
  fresh : ∀ v id, s.nextSegmentId ≤ id → s.segments v id = none
  below : ∀ stream w, s.writers stream = some w → w.segmentId < s.nextSegmentId
  distinct : ∀ stream stream' w w', s.writers stream = some w → s.writers stream' = some w' →
    w.segmentId = w'.segmentId → stream = stream'
  short : ∀ stream w, s.writers stream = some w → ∀ v seg, s.segments v w.segmentId = some seg →
    seg.records.length ≤ w.cursor
  cursor : ∀ stream w, s.writers stream = some w → ∀ v ∈ w.vdevs,
    ∃ seg, s.segments v w.segmentId = some seg ∧ seg.records.length = w.cursor

/-- Where an acknowledged record is: its copies agree on it, and it is durable on some device or
in the segment its shard has open. -/
structure Placed (s : State Hash) (shard : ShardId) (loc : Location) (hash : Hash) : Prop where
  below : loc.segmentId < s.nextSegmentId
  agree : ∀ v seg, s.segments v loc.segmentId = some seg → loc.offset < seg.records.length →
    seg.records[loc.offset]? = some hash
  cursor : ∀ stream w, s.writers stream = some w → w.segmentId = loc.segmentId → loc.offset < w.cursor
  held : (∃ v, s.durableAt (.vdev v) loc = some hash) ∨
    ∃ w, s.writers (.shard shard) = some w ∧ w.segmentId = loc.segmentId

theorem SameWriters.follows (h : SameWriters s t) (hs : s.Follows) : t.Follows where
  fresh := by simpa [h.segments, h.next] using hs.fresh
  below := by simpa [h.writers, h.next] using hs.below
  distinct := by simpa [h.writers] using hs.distinct
  short := by simpa [h.segments, h.writers] using hs.short
  cursor := by simpa [h.segments, h.writers] using hs.cursor

theorem SameWriters.placed (h : SameWriters s t) (hs : s.Placed shard loc hash) : t.Placed shard loc hash where
  below := by simpa [h.next] using hs.below
  agree := by simpa [h.segments] using hs.agree
  cursor := by simpa [h.writers] using hs.cursor
  held := by simpa [h.writers, h.durableAt] using hs.held

/-! ## The writers' steps -/

theorem Follows.createSegment (h : s.Follows) (vdevs : List VdevId) (seg : Segment Hash) :
    (s.createSegment vdevs seg).Follows := by
  have hold : ∀ v id, id < s.nextSegmentId → (s.createSegment vdevs seg).segments v id = s.segments v id :=
    fun v id hid ↦ by simp [State.createSegment, Nat.ne_of_lt hid]
  refine ⟨fun v id hid ↦ ?_, fun stream w hw ↦ Nat.lt_succ_of_lt (h.below stream w hw), h.distinct,
    fun stream w hw v ↦ ?_, fun stream w hw v ↦ ?_⟩
  · have hne : id ≠ s.nextSegmentId := Nat.ne_of_gt hid
    simpa [State.createSegment, hne] using h.fresh v id (Nat.le_of_succ_le hid)
  · rw [hold v _ (h.below stream w hw)]
    exact h.short stream w hw v
  · rw [hold v _ (h.below stream w hw)]
    exact h.cursor stream w hw v

theorem keepsDurable_createSegment (h : s.Follows) (vdevs : List VdevId) (seg : Segment Hash) :
    KeepsDurable s (s.createSegment vdevs seg) := by
  refine .of_segments fun v id old hold _ ↦ ⟨old, ?_, prefix_refl _⟩
  have hne : id ≠ s.nextSegmentId := by
    rintro rfl
    simp [h.fresh v _ (Nat.le_refl _)] at hold
  simpa [createSegment, hne] using hold

theorem Placed.createSegment (hs : s.Follows)
    (h : s.Placed shard loc hash) (vdevs : List VdevId) (seg : Segment Hash) :
    (s.createSegment vdevs seg).Placed shard loc hash where
  below := Nat.lt_succ_of_lt h.below
  agree := by simpa [State.createSegment, Nat.ne_of_lt h.below] using h.agree
  cursor := h.cursor
  held := h.held.imp_left fun ⟨v, hv⟩ ↦ ⟨v, keepsDurable_createSegment hs vdevs seg v loc hash hv⟩

theorem records_of_extends {f : Segment Hash → Segment Hash}
    (hf : ∀ seg : Segment Hash, seg.Extends (f seg)) (v : VdevId) (loc : Location) (hash : Hash)
    (h : s.recordAt (.vdev v) loc = some hash) : (s.updateSegment vdevs id f).recordAt (.vdev v) loc = some hash := by
  obtain ⟨seg, hseg, hget⟩ := recordAt_vdev.1 h
  refine recordAt_vdev.2 ?_
  simp only [updateSegment, hseg]
  split_ifs
  · exact ⟨f seg, rfl, getElem?_of_prefix (hf seg).records hget⟩
  · exact ⟨seg, rfl, hget⟩

theorem records_createSegment (h : s.Follows) (vdevs : List VdevId) (seg : Segment Hash) (v : VdevId) (loc : Location)
    (hash : Hash) (hrecord : s.recordAt (.vdev v) loc = some hash) :
    (s.createSegment vdevs seg).recordAt (.vdev v) loc = some hash := by
  obtain ⟨old, hold, hget⟩ := recordAt_vdev.1 hrecord
  have hne : loc.segmentId ≠ s.nextSegmentId := by
    intro heq
    rw [h.fresh v _ (Nat.le_of_eq heq.symm)] at hold
    cases hold
  exact recordAt_vdev.2 ⟨old, by simpa [createSegment, hne] using hold, hget⟩

theorem Follows.openOn (h : s.Follows) (stream : Stream) (vdevs : List VdevId) :
    (s.openOn stream vdevs).Follows := by
  have hcreate := h.createSegment vdevs ⟨stream.kind, stream, [], false, 0⟩
  refine ⟨hcreate.fresh, fun stream' w' hw' ↦ ?_, fun stream₁ stream₂ w₁ w₂ hw₁ hw₂ heq ↦ ?_,
    fun stream' w' hw' ↦ ?_, fun stream' w' hw' ↦ ?_⟩
  · rcases ite_eq_iff.1 hw' with ⟨rfl, ⟨⟩⟩ | ⟨-, hw'⟩
    · exact Nat.lt_succ_self _
    · exact hcreate.below stream' w' hw'
  · rcases ite_eq_iff.1 hw₁ with ⟨rfl, ⟨⟩⟩ | ⟨-, hw₁⟩
    · rcases ite_eq_iff.1 hw₂ with ⟨rfl, -⟩ | ⟨-, hw₂⟩
      · rfl
      · exact absurd heq.symm (Nat.ne_of_lt (h.below stream₂ w₂ hw₂))
    · rcases ite_eq_iff.1 hw₂ with ⟨rfl, ⟨⟩⟩ | ⟨-, hw₂⟩
      · exact absurd heq (Nat.ne_of_lt (h.below stream₁ w₁ hw₁))
      · exact h.distinct stream₁ stream₂ w₁ w₂ hw₁ hw₂ heq
  · rcases ite_eq_iff.1 hw' with ⟨rfl, ⟨⟩⟩ | ⟨-, hw'⟩
    · intro v seg hseg
      have hfresh := h.fresh v _ (Nat.le_refl _)
      obtain ⟨-, rfl⟩ : v ∈ vdevs ∧ _ = seg := by
        simpa [State.openOn, setWriter, State.createSegment, hfresh] using hseg
      exact Nat.le_refl _
    · exact hcreate.short stream' w' hw'
  · rcases ite_eq_iff.1 hw' with ⟨rfl, ⟨⟩⟩ | ⟨-, hw'⟩
    · intro v hv
      exact ⟨⟨stream'.kind, stream', [], false, 0⟩, by simp [State.openOn, setWriter, State.createSegment, hv], rfl⟩
    · exact hcreate.cursor stream' w' hw'

theorem Placed.openOn (hs : s.Follows) (hnone : s.writers stream = none)
    (h : s.Placed shard loc hash) (vdevs : List VdevId) : (s.openOn stream vdevs).Placed shard loc hash := by
  have hcreate := h.createSegment hs vdevs ⟨stream.kind, stream, [], false, 0⟩
  refine ⟨hcreate.below, hcreate.agree, fun stream' w' hw' heq ↦ ?_, hcreate.held.imp_right ?_⟩
  · rcases ite_eq_iff.1 hw' with ⟨rfl, ⟨⟩⟩ | ⟨-, hw'⟩
    · exact absurd heq.symm (Nat.ne_of_lt h.below)
    · exact h.cursor stream' w' hw' heq
  · rintro ⟨w', hw', heq⟩
    refine ⟨w', ?_, heq⟩
    have hne : Stream.shard shard ≠ stream := by
      rintro rfl
      simp [State.createSegment, hnone] at hw'
    simpa [State.openOn, setWriter, hne] using hw'

/-- A copy that is synced whole has every acknowledged record of its segment. -/
theorem Placed.durableAt_of_whole (h : s.Placed shard loc hash) (hcursor : loc.offset < w.cursor)
    (hseg : s.segments v loc.segmentId = some seg)
    (hwhole : w.cursor ≤ (seg.records.take seg.durable).length) :
    s.durableAt (.vdev v) loc = some hash := by
  have hlt := Nat.lt_of_lt_of_le hcursor hwhole
  rw [length_take, Nat.lt_min] at hlt
  refine durableAt_vdev.2 ⟨seg, hseg, ?_⟩
  rw [getElem?_take, if_pos hlt.1]
  exact h.agree v seg hseg hlt.2

/-- Some device has all records of an open segment durably. -/
def Covered (params : Params) (s : State Hash) (w : Writer) : Prop :=
  ∃ v ∈ params.vdevs, ∃ seg ∈ s.segments v w.segmentId, w.cursor ≤ (seg.records.take seg.durable).length

instance (params : Params) (s : State Hash) (w : Writer) : Decidable (Covered params s w) :=
  inferInstanceAs (Decidable (∃ v ∈ params.vdevs, _))

section Update

variable {f : Segment Hash → Segment Hash} {w' : Option Writer} (hs : s.Follows)
  (hw : s.writers stream = some w) (hvdevs : ∀ v ∈ vdevs, v ∈ w.vdevs)

include hs hw hvdevs

/-- The copies on some of a writer's devices change, and the writer with them. -/
theorem Follows.update (hshort : ∀ w₀, w' = some w₀ → w₀.segmentId = w.segmentId ∧ w.cursor ≤ w₀.cursor ∧
      (∀ v ∈ w₀.vdevs, v ∈ w.vdevs ∧ v ∈ vdevs) ∧
      ∀ seg : Segment Hash, seg.records.length = w.cursor → (f seg).records.length = w₀.cursor) :
    ((s.updateSegment vdevs w.segmentId f).setWriter stream w').Follows := by
  -- Another writer's segment is another one.
  have hother : ∀ stream' w₁, stream' ≠ stream → s.writers stream' = some w₁ → ∀ v,
      (s.updateSegment vdevs w.segmentId f).segments v w₁.segmentId = s.segments v w₁.segmentId := by
    intro stream' w₁ hne hw₁ v
    have hid : w₁.segmentId ≠ w.segmentId := fun heq ↦ hne (hs.distinct stream' stream w₁ w hw₁ hw heq)
    simp [updateSegment, hid]
  refine ⟨fun v id hid ↦ ?_, fun stream' w₁ hw₁ ↦ ?_, fun _ _ w₁ w₂ hw₁ hw₂ heq ↦ ?_,
    fun stream' w₁ hw₁ v seg hseg ↦ ?_, fun stream' w₁ hw₁ v hv ↦ ?_⟩
  · simp [setWriter, updateSegment, hs.fresh v id hid]
  · rcases ite_eq_iff.1 hw₁ with ⟨rfl, hnew⟩ | ⟨-, hold⟩
    · exact (hshort w₁ hnew).1 ▸ hs.below _ w hw
    · exact hs.below stream' w₁ hold
  · rcases ite_eq_iff.1 hw₁ with ⟨rfl, hnew₁⟩ | ⟨-, hold₁⟩
    · rcases ite_eq_iff.1 hw₂ with ⟨rfl, -⟩ | ⟨-, hold₂⟩
      · rfl
      · exact hs.distinct _ _ w w₂ hw hold₂ ((hshort w₁ hnew₁).1 ▸ heq)
    · rcases ite_eq_iff.1 hw₂ with ⟨rfl, hnew₂⟩ | ⟨-, hold₂⟩
      · exact hs.distinct _ _ w₁ w hold₁ hw ((hshort w₂ hnew₂).1 ▸ heq)
      · exact hs.distinct _ _ w₁ w₂ hold₁ hold₂ heq
  · rcases ite_eq_iff.1 hw₁ with ⟨rfl, hnew⟩ | ⟨hne, hw₁⟩
    · obtain ⟨hid, hle, -, hlen⟩ := hshort w₁ hnew
      rcases segments_updateSegment hseg with ⟨hseg, -⟩ | ⟨-, hv, old, hold, rfl⟩
      · exact Nat.le_trans (hs.short _ w hw v seg (hid ▸ hseg)) hle
      · obtain ⟨_, hold', hcursor⟩ := hs.cursor _ w hw v (hvdevs v hv)
        cases hold.symm.trans hold'
        exact Nat.le_of_eq (hlen old hcursor)
    · exact hs.short stream' w₁ hw₁ v seg ((hother stream' w₁ hne hw₁ v).symm.trans hseg)
  · rcases ite_eq_iff.1 hw₁ with ⟨rfl, hnew⟩ | ⟨hne, hw₁⟩
    · obtain ⟨hid, -, hsub, hlen⟩ := hshort w₁ hnew
      obtain ⟨hvw, hvv⟩ := hsub v hv
      obtain ⟨old, hold, hcursor⟩ := hs.cursor _ w hw v hvw
      refine ⟨f old, ?_, hlen old hcursor⟩
      rw [hid]
      exact (segments_updateSegment_of_mem hvv).trans (congrArg (Option.map f) hold)
    · obtain ⟨seg, hseg, hlen⟩ := hs.cursor stream' w₁ hw₁ v hv
      exact ⟨seg, (hother stream' w₁ hne hw₁ v).trans hseg, hlen⟩

/-- An acknowledged record stays where it is if the records before the cursor do. -/
theorem Placed.update (h : s.Placed shard loc hash) (hf : ∀ seg : Segment Hash, seg.Extends (f seg))
    (hcursor : ∀ w₀, w' = some w₀ → w₀.segmentId = w.segmentId ∧ w.cursor ≤ w₀.cursor)
    (hheld : w' = none → stream = .shard shard → w.segmentId = loc.segmentId →
      ∃ v, (s.updateSegment vdevs w.segmentId f).durableAt (.vdev v) loc = some hash) :
    ((s.updateSegment vdevs w.segmentId f).setWriter stream w').Placed shard loc hash := by
  refine ⟨h.below, fun v seg hseg hoffset ↦ ?_, fun stream' w₁ hw₁ heq ↦ ?_, ?_⟩
  · rcases segments_updateSegment hseg with ⟨hseg, -⟩ | ⟨hid, hv, old, hold, rfl⟩
    · exact h.agree v seg hseg hoffset
    · obtain ⟨_, hold', hlen⟩ := hs.cursor stream w hw v (hvdevs v hv)
      cases hold.symm.trans hold'
      have hlt : loc.offset < old.records.length := hlen ▸ h.cursor stream w hw hid.symm
      exact getElem?_of_prefix (hf old).records (h.agree v old (hid ▸ hold) hlt)
  · rcases ite_eq_iff.1 hw₁ with ⟨rfl, hnew⟩ | ⟨-, hw₁⟩
    · obtain ⟨hid, hle⟩ := hcursor w₁ hnew
      exact Nat.lt_of_lt_of_le (h.cursor _ w hw (hid.symm.trans heq)) hle
    · exact h.cursor stream' w₁ hw₁ heq
  · rcases h.held with ⟨v, hv⟩ | ⟨w₁, hw₁, hid⟩
    · exact .inl ⟨v, keepsDurable_updateSegment (fun seg ↦ (hf seg).durable) v loc hash hv⟩
    · by_cases hstream : stream = .shard shard
      · cases hw.symm.trans (hstream ▸ hw₁)
        cases w' with
        | none => exact .inl (hheld rfl hstream hid)
        | some w₀ => exact .inr ⟨w₀, by simp [setWriter, hstream], (hcursor w₀ rfl).1.trans hid⟩
      · exact .inr ⟨w₁, by simp [setWriter, Ne.symm hstream, updateSegment, hw₁], hid⟩

theorem Follows.appendTo (hash : Hash) : (s.appendTo stream w vdevs hash).Follows := by
  refine hs.update hw hvdevs ?_
  rintro _ ⟨⟩
  exact ⟨rfl, Nat.le_succ _, fun v hv ↦ ⟨hvdevs v hv, hv⟩, fun _ hlen ↦ by simp [Segment.append, hlen]⟩

theorem Placed.appendTo (h : s.Placed shard loc hash) (hash' : Hash) :
    (s.appendTo stream w vdevs hash').Placed shard loc hash := by
  refine h.update hs hw hvdevs (fun seg ↦ seg.extends_append hash') ?_ (by simp)
  rintro _ ⟨⟩
  exact ⟨rfl, Nat.le_succ _⟩

theorem Follows.syncOn : (s.syncOn stream w vdevs).Follows := by
  refine hs.update hw hvdevs ?_
  rintro _ ⟨⟩
  exact ⟨rfl, Nat.le_refl _, fun v hv ↦ ⟨hvdevs v hv, hv⟩, fun _ hlen ↦ hlen⟩

theorem Placed.syncOn (h : s.Placed shard loc hash) : (s.syncOn stream w vdevs).Placed shard loc hash := by
  refine h.update hs hw hvdevs extends_fsync ?_ (by simp)
  rintro _ ⟨⟩
  exact ⟨rfl, Nat.le_refl _⟩

theorem Follows.closeOn : (s.closeOn stream w vdevs).Follows :=
  hs.update hw hvdevs (by simp)

/-- A sealed segment is synced on the devices that are left; one that is given up has to be
covered already. -/
theorem Placed.closeOn {params : Params} (h : s.Placed shard loc hash)
    (hcovered : stream = .shard shard → vdevs = [] → Covered params s w) :
    (s.closeOn stream w vdevs).Placed shard loc hash := by
  refine h.update hs hw hvdevs Segment.extends_sealed (by simp) fun _ hstream hid ↦ ?_
  have hoffset : loc.offset < w.cursor := h.cursor stream w hw hid
  by_cases hnil : vdevs = []
  · obtain ⟨v, -, seg, hseg, hwhole⟩ := hcovered hstream hnil
    refine ⟨v, keepsDurable_updateSegment (fun seg ↦ seg.extends_sealed.durable) v loc hash ?_⟩
    exact h.durableAt_of_whole hoffset (hid ▸ hseg) hwhole
  · obtain ⟨v, hv⟩ := List.exists_mem_of_ne_nil vdevs hnil
    obtain ⟨seg, hseg, hlen⟩ := hs.cursor stream w hw v (hvdevs v hv)
    have hsealed : (s.updateSegment vdevs w.segmentId Segment.sealed).segments v loc.segmentId = some seg.sealed := by
      rw [← hid]
      exact (segments_updateSegment_of_mem hv).trans (congrArg (Option.map Segment.sealed) hseg)
    refine ⟨v, durableAt_vdev.2 ⟨seg.sealed, hsealed, ?_⟩⟩
    have hget := h.agree v seg (hid ▸ hseg) (hlen ▸ hoffset)
    simpa [Segment.sealed, Segment.fsync] using hget

end Update

/-- The record of an append is at the cursor of each copy that took it, and no other copy is
that long. -/
theorem placed_appendTo (h : s.Follows) (hw : s.writers (.shard shard) = some w)
    (hvdevs : ∀ v ∈ vdevs, v ∈ w.vdevs) (hash : Hash) :
    (s.appendTo (.shard shard) w vdevs hash).Placed shard ⟨w.segmentId, w.cursor⟩ hash := by
  refine ⟨h.below _ w hw, fun v seg hseg hoffset ↦ ?_, fun stream w₁ hw₁ heq ↦ ?_, .inr ?_⟩
  · rcases segments_updateSegment hseg with ⟨hseg, -⟩ | ⟨-, hv, _, hold, rfl⟩
    · exact absurd (h.short _ w hw v seg hseg) (Nat.not_le_of_lt hoffset)
    · obtain ⟨_, hold', hlen⟩ := h.cursor _ w hw v (hvdevs v hv)
      cases hold.symm.trans hold'
      simp [Segment.append, ← hlen]
  · rcases ite_eq_iff.1 hw₁ with ⟨rfl, ⟨⟩⟩ | ⟨hne, hw₁⟩
    · exact Nat.lt_succ_self _
    · exact absurd (h.distinct stream _ w₁ w hw₁ hw heq) hne
  · exact ⟨⟨w.segmentId, vdevs, w.cursor + 1⟩, by simp [State.appendTo, setWriter], rfl⟩

/-! ## Joins -/

/-- A copy that no writer appends to can lose what was not synced. -/
theorem Follows.lose (h : s.Follows)
    (hclosed : ∀ stream w, s.writers stream = some w → ¬(w.segmentId = id ∧ v ∈ w.vdevs)) :
    (s.lose v id).Follows := by
  refine ⟨fun u i hi ↦ by simp [State.lose, updateSegment, h.fresh u i hi], h.below, h.distinct,
    fun stream w hw u seg hseg ↦ ?_, fun stream w hw u hu ↦ ?_⟩
  · rcases segments_updateSegment hseg with ⟨hseg, -⟩ | ⟨hid, _, old, hold, rfl⟩
    · exact h.short stream w hw u seg hseg
    · exact Nat.le_trans old.cut_prefix.length_le (h.short stream w hw u old (hid ▸ hold))
  · obtain ⟨seg, hseg, hlen⟩ := h.cursor stream w hw u hu
    refine ⟨seg, ?_, hlen⟩
    have hother : ¬(w.segmentId = id ∧ u ∈ [v]) := fun hwas ↦
      hclosed stream w hw ⟨hwas.1, mem_singleton.1 hwas.2 ▸ hu⟩
    simp only [State.lose, updateSegment, if_neg hother, hseg]

theorem Placed.lose (h : s.Placed shard loc hash) (v : VdevId)
    (id : SegmentId) : (s.lose v id).Placed shard loc hash := by
  refine ⟨h.below, fun u seg hseg hoffset ↦ ?_, h.cursor, h.held.imp_left ?_⟩
  · rcases segments_updateSegment hseg with ⟨hseg, -⟩ | ⟨hid, -, old, hold, rfl⟩
    · exact h.agree u seg hseg hoffset
    · have hlt := Nat.lt_of_lt_of_le hoffset old.cut_prefix.length_le
      have hget := h.agree u old (hid ▸ hold) hlt
      rw [getElem?_eq_getElem hlt] at hget
      rw [getElem?_eq_getElem hoffset, ← hget]
      exact congrArg some (old.cut_prefix.getElem hoffset)
  · rintro ⟨u, hu⟩
    exact ⟨u, keepsDurable_updateSegment (fun _ ↦ by simp [cut, take_take]) u loc hash hu⟩

/-- What the orphans of a device become. -/
theorem segments_sealOrphans {u : VdevId} (h : (s.sealOrphans v).segments u id = some seg) :
    ∃ old, s.segments u id = some old ∧ (seg = old ∨ seg = old.sealed) := by
  simp only [sealOrphans] at h
  split_ifs at h
  · obtain ⟨old, hold, h⟩ := bind_eq_some_iff.1 h
    refine ⟨old, hold, ?_⟩
    split_ifs at h
    · exact .inl (some.inj h).symm
    · exact .inr (some.inj h).symm
  · exact ⟨seg, h, .inl rfl⟩

theorem keepsDurable_sealOrphans (v : VdevId) : KeepsDurable s (s.sealOrphans v) := by
  refine .of_segments fun u _ seg hseg hne ↦ ?_
  simp only [sealOrphans]
  split_ifs
  · cases hsealed : seg.isSealed with
    | true => exact ⟨seg, by simp [hseg, hsealed], prefix_refl _⟩
    | false => exact ⟨seg.sealed, by simp [hseg, hsealed, hne], seg.extends_sealed.durable⟩
  · exact ⟨seg, hseg, prefix_refl _⟩

/-- The orphans of a device that no writer appends to. -/
theorem Follows.sealOrphans (h : s.Follows)
    (hclosed : ∀ stream w, s.writers stream = some w → v ∉ w.vdevs) : (s.sealOrphans v).Follows := by
  refine ⟨fun u i hi ↦ by simp [State.sealOrphans, h.fresh u i hi], h.below, h.distinct,
    fun stream w hw u seg hseg ↦ ?_, fun stream w hw u hu ↦ ?_⟩
  · obtain ⟨old, hold, rfl | rfl⟩ := segments_sealOrphans hseg
    · exact h.short stream w hw u seg hold
    · exact h.short stream w hw u old hold
  · obtain ⟨seg, hseg, hlen⟩ := h.cursor stream w hw u hu
    refine ⟨seg, ?_, hlen⟩
    have hne : u ≠ v := fun heq ↦ hclosed stream w hw (heq ▸ hu)
    simpa [State.sealOrphans, hne] using hseg

theorem Placed.sealOrphans (h : s.Placed shard loc hash) (v : VdevId) : (s.sealOrphans v).Placed shard loc hash := by
  refine ⟨h.below, fun u seg hseg hoffset ↦ ?_, h.cursor, h.held.imp_left ?_⟩
  · obtain ⟨old, hold, rfl | rfl⟩ := segments_sealOrphans hseg
    · exact h.agree u seg hold hoffset
    · exact h.agree u old hold hoffset
  · rintro ⟨u, hu⟩
    exact ⟨u, keepsDurable_sealOrphans v u loc hash hu⟩

/-! ## The steps of the pool -/

variable [DecidableEq Hash] {params : Params} {failed : List VdevId} {ok : Bool}

/-- What a step of the pool does to the acknowledged records and to the fan-out of its writers. -/
structure Advances (params : Params) (s t : State Hash) : Prop where
  follows : t.Follows
  placed : ∀ shard loc hash, s.Placed shard loc hash → t.Placed shard loc hash
  writers : ∀ stream w', t.writers stream = some w' →
    (∃ w, s.writers stream = some w ∧ ∀ v ∈ w'.vdevs, v ∈ w.vdevs) ∨
      stream ∈ params.streams ∧ ∀ v ∈ w'.vdevs, v ∈ s.online
  online : ∀ v ∈ t.online, v ∈ s.online

theorem Advances.of_same (hs : s.Follows) (h : SameWriters s t) (honline : ∀ v ∈ t.online, v ∈ s.online) :
    Advances params s t where
  follows := h.follows hs
  placed _ _ _ := h.placed
  writers _ w hw := .inl ⟨w, h.writers ▸ hw, fun _ hv ↦ hv⟩
  online := honline

theorem Advances.refl (h : s.Follows) : Advances params s s :=
  .of_same h ⟨rfl, rfl, rfl⟩ fun _ hv ↦ hv

theorem Advances.trans (hst : Advances params s t) (htu : Advances params t u) : Advances params s u where
  follows := htu.follows
  placed shard loc hash hp := htu.placed shard loc hash (hst.placed shard loc hash hp)
  writers stream w hw := by
    rcases htu.writers stream w hw with ⟨w', hw', hsub⟩ | ⟨hstream, hsub⟩
    · exact (hst.writers stream w' hw').imp (fun ⟨w₀, hw₀, hsub'⟩ ↦ ⟨w₀, hw₀, fun v hv ↦ hsub' v (hsub v hv)⟩)
        (And.imp_right fun hsub' v hv ↦ hsub' v (hsub v hv))
    · exact .inr ⟨hstream, fun v hv ↦ hst.online v (hsub v hv)⟩
  online v hv := hst.online v (htu.online v hv)

theorem mem_streams : stream ∈ params.streams ↔ stream = .metadata ∨ ∃ shard ∈ params.shards, stream = .shard shard := by
  simp [Params.streams, or_comm, eq_comm]

theorem Follows.openSegment (h : s.Follows) (hstream : stream ∈ params.streams)
    (hopen : s.openSegment stream failed = some t) : Advances params s t := by
  obtain ⟨hnone, honline, hsame⟩ := openSegment_eq_some hopen
  refine ⟨hsame.follows (h.openOn stream _), fun _ _ _ hp ↦ hsame.placed (hp.openOn h hnone _),
    fun _ w' hw' ↦ ?_, fun v hv ↦ mem_of_mem_filter (honline ▸ hv)⟩
  rw [hsame.writers] at hw'
  rcases ite_eq_iff.1 hw' with ⟨rfl, ⟨⟩⟩ | ⟨-, hw'⟩
  · exact .inr ⟨hstream, fun v hv ↦ mem_of_mem_filter hv⟩
  · exact .inl ⟨w', hw', fun _ hv ↦ hv⟩

/-- The writer of one stream goes on, or is gone. -/
theorem Advances.of_setWriter {x : Option Writer} (hw : s.writers stream = some w)
    (hx : ∀ w₀, x = some w₀ → ∀ v ∈ w₀.vdevs, v ∈ w.vdevs) (hfollows : t.Follows)
    (hplaced : ∀ shard loc hash, s.Placed shard loc hash → t.Placed shard loc hash)
    (hwriters : t.writers = (s.setWriter stream x).writers) (honline : ∀ v ∈ t.online, v ∈ s.online) :
    Advances params s t := by
  refine ⟨hfollows, hplaced, fun _ w₁ hw₁ ↦ .inl ?_, honline⟩
  rw [hwriters] at hw₁
  rcases ite_eq_iff.1 hw₁ with ⟨rfl, hnew⟩ | ⟨-, hold⟩
  · exact ⟨w, hw, hx w₁ hnew⟩
  · exact ⟨w₁, hold, fun _ hv ↦ hv⟩

theorem Advances.of_appendTo (h : s.Follows) (hw : s.writers stream = some w) (hvdevs : ∀ v ∈ vdevs, v ∈ w.vdevs)
    (hsame : SameWriters (s.appendTo stream w vdevs hash) t) (honline : ∀ v ∈ t.online, v ∈ s.online) :
    Advances params s t := by
  refine .of_setWriter hw ?_ (hsame.follows (h.appendTo hw hvdevs hash))
    (fun _ _ _ hp ↦ hsame.placed (hp.appendTo h hw hvdevs hash)) hsame.writers honline
  rintro _ ⟨⟩
  exact hvdevs

/-- A shard's segment that every device fails is given up only when it is covered. -/
def GivesUpCovered (params : Params) (s : State Hash) (shard : ShardId) (failed : List VdevId) : Prop :=
  ∀ w ∈ s.writers (.shard shard), (∀ v ∈ w.vdevs, v ∈ failed) → Covered params s w

instance (s : State Hash) (shard : ShardId) : Decidable (GivesUpCovered params s shard failed) :=
  inferInstanceAs (Decidable (∀ w ∈ s.writers (.shard shard), _ → _))

/-- The writer of a shard goes only when its segment is covered. -/
def GoesCovered (params : Params) (gone : Bool) (s : State Hash) (stream : Stream) (failed : List VdevId) : Prop :=
  gone = true → ∀ shard, stream = .shard shard → GivesUpCovered params s shard failed

theorem SameWriters.givesUpCovered (h : SameWriters s t) (hs : GivesUpCovered params s shard failed) :
    GivesUpCovered params t shard failed := by
  simpa [GivesUpCovered, Covered, h.segments, h.writers] using hs

theorem filter_notMem_eq_nil {l : List VdevId} (h : l.filter (· ∉ failed) = []) : ∀ v ∈ l, v ∈ failed := by
  simpa using h

section

variable (h : s.Follows)

include h

namespace Follows

theorem move (hmove : Move (GoesCovered params) s t) : Advances params s t := by
  cases hmove with
  | acknowledge => exact .of_same h ⟨rfl, rfl, rfl⟩ fun _ hv ↦ hv
  | flush stream ok => exact .of_same h (sameWriters_flush stream ok) fun _ hv ↦ online_flush (s := s) stream ok ▸ hv
  | @sync _ w failed hw =>
    have hfollows := h.syncOn hw (w.mem_of_live failed)
    have hplaced := fun shard loc hash (hp : s.Placed shard loc hash) ↦
      hp.syncOn h hw (w.mem_of_live failed)
    refine .of_setWriter hw ?_ { hfollows with } (fun _ _ _ hp ↦ { hplaced _ _ _ hp with }) rfl
      fun _ hv ↦ mem_of_mem_filter hv
    rintro _ ⟨⟩
    exact w.mem_of_live failed
  | @close _ w failed hw hD =>
    have hfollows := h.closeOn hw (w.mem_of_live failed)
    have hplaced := fun shard loc hash (hp : s.Placed shard loc hash) ↦
      hp.closeOn h hw (w.mem_of_live failed) fun hstream hnil ↦
        hD rfl shard hstream w (hstream ▸ hw) (filter_notMem_eq_nil hnil)
    exact .of_setWriter hw (by simp) { hfollows with } (fun _ _ _ hp ↦ { hplaced _ _ _ hp with }) rfl
      fun _ hv ↦ mem_of_mem_filter hv
  | @append _ w failed _ _ hw _ hlive | @putMeta w failed _ _ hw _ hlive =>
    exact .of_appendTo h hw (hlive ▸ w.mem_of_live failed) ⟨rfl, rfl, rfl⟩ fun _ hv ↦ mem_of_mem_filter hv

theorem moves (hmoves : Moves (GoesCovered params) s t) : Advances params s t := by
  induction hmoves with
  | refl => exact .refl h
  | tail _ hmove ih => exact ih.trans (ih.follows.move hmove)

/-- The record that a shard acknowledges is placed. -/
theorem landing (happend : s.append params shard hash failed ok = some t) :
    ∀ x ∈ s.landing shard hash failed, t.Placed x.1 x.2.1 x.2.2 := by
  obtain ⟨w, hw, rfl⟩ := map_eq_some_iff.1 happend
  intro x hx
  obtain ⟨_, hw', hx⟩ := bind_eq_some_iff.1 hx
  cases hw.symm.trans hw'
  obtain ⟨hany, ⟨⟩⟩ := ite_none_right_eq_some.1 hx
  dsimp only
  split
  next hnil =>
    obtain ⟨v, hv, hnot⟩ := any_eq_true.1 hany
    exact absurd (filter_notMem_eq_nil hnil v hv) (of_decide_eq_true hnot)
  next first rest hlive =>
    have hvdevs : ∀ v ∈ first :: rest, v ∈ w.vdevs := hlive ▸ w.mem_of_live failed
    have hfollows := h.appendTo hw hvdevs hash
    have hplaced := placed_appendTo h hw hvdevs hash
    refine (Follows.moves ?_ (moves_finishAppend shard hash ok) : Advances params _ _).placed _ _ _ ?_
    · exact { hfollows with }
    · exact { hplaced with }

theorem fsync (stream : Stream) (failed : List VdevId) (ok : Bool) :
    Advances params s (s.fsync stream failed ok) :=
  h.moves (moves_fsync ok (by simp [GoesCovered]))

theorem closeSegment (stream : Stream) (failed : List VdevId) (ok : Bool)
    (hcovered : ∀ shard, stream = .shard shard → GivesUpCovered params s shard failed) :
    Advances params s (s.closeSegment stream failed ok) :=
  h.moves (moves_closeSegment ok fun _ shard hstream ↦ (sameWriters_flush stream ok).givesUpCovered (hcovered shard hstream))

theorem fault (failed : List VdevId) : Advances params s (s.fault failed) :=
  .of_same h (sameWriters_fault failed) fun _ hv ↦ mem_of_mem_filter hv

theorem healOnto (target : VdevId) (kind : StreamKind) (hash : Hash) :
    Advances params s (s.healOnto target kind hash) := by
  set seg := complete kind (.shard 0) [hash] with hseg
  have hsame : SameWriters (s.createSegment [target] seg) (s.healOnto target kind hash) ∧
      (s.healOnto target kind hash).online = s.online := by
    unfold State.healOnto
    dsimp only
    split_ifs
    · exact ⟨⟨rfl, rfl, rfl⟩, rfl⟩
    · exact ⟨⟨rfl, rfl, rfl⟩, rfl⟩
  refine ⟨hsame.1.follows (h.createSegment _ _), fun _ _ _ hp ↦ hsame.1.placed (hp.createSegment h _ _),
    fun _ w hw ↦ .inl ⟨w, hsame.1.writers ▸ hw, fun _ hv ↦ hv⟩, fun v hv ↦ hsame.2 ▸ hv⟩

end Follows

end

theorem closeSegment_done (h : s.closeSucceeds stream failed ok = true) :
    (s.closeSegment stream failed ok).writers stream = none ∧
      (s.closeSegment stream failed ok).pendingIndex stream = [] := by
  obtain ⟨hflush, -⟩ := Bool.and_eq_true_iff.1 h
  have hpending : (s.flush stream ok).pendingIndex stream = [] := by simp [flush, setPending]
  have hwriters := (sameWriters_flush (s := s) stream ok).writers
  unfold closeSegment
  dsimp only
  rw [if_pos hflush]
  split
  next hnone => exact ⟨by rw [hwriters, hnone], hpending⟩
  next w _ => exact ⟨by simp [fault, setWriter], hpending⟩

end State

namespace Replicas

variable [DecidableEq Hash] {params : Params} {r t : Replicas Hash}
variable {j : Join Hash} {failed : List VdevId} {ok : Bool} {hash : Hash} {phase : JoinPhase Hash}

/-- A visit passes a hash over, finds no source for it, copies it, or fails the join. -/
theorem visit_eq_some (h : r.visit hash ok j = some t) : ∃ todo, j.phase = .walk todo ∧
      (((r.pool.index.entries.lookup (hash, .vdev j.target)).isSome ∨
            (r.pool.index.entries.lookup (hash, .striped)).isSome) ∧
          t = r.next true j (.walk (todo.erase hash)) ∨
        r.pool.source j.target hash = none ∧ t = r.next true j (.walk (todo.erase hash)) ∨
        (∃ kind, r.pool.source j.target hash = some kind ∧ j.target ∈ r.pool.online ∧
          t = (r.setPool (r.pool.healOnto j.target kind hash)).next true j (.walk (todo.erase hash))) ∨
        t = r.fail j) := by
  unfold visit at h
  split at h
  case h_1 todo hphase =>
    refine ⟨todo, hphase, ?_⟩
    obtain ⟨-, h⟩ := ite_none_left_eq_some.1 h
    split at h
    case isTrue hnamed => exact .inl ⟨hnamed, (some.inj h).symm⟩
    case isFalse =>
      split at h
      case h_1 hsource => exact .inr (.inl ⟨hsource, (some.inj h).symm⟩)
      case h_2 kind hsource =>
        split at h
        case isTrue honline =>
          exact .inr (.inr (.inl ⟨kind, hsource, honline.1, (some.inj h).symm⟩))
        case isFalse => exact .inr (.inr (.inr (some.inj h).symm))
  case h_2 => cases h

/-- Acknowledged records are placed, and a device on its way back is not written to any more
by the streams that have been rolled. -/
structure Kept (params : Params) (r : Replicas Hash) : Prop where
  follows : r.pool.Follows
  streams : ∀ stream w, r.pool.writers stream = some w → stream ∈ params.streams
  placed : ∀ x ∈ r.landed, r.pool.Placed x.1 x.2.1 x.2.2
  joining : ∀ j todo, r.join = some j → j.phase = .rollBefore todo → j.target ∉ r.pool.online ∧
    ∀ stream w, r.pool.writers stream = some w → stream ∈ todo ∨ j.target ∉ w.vdevs

theorem Kept.advance (h : r.Kept params) (hpool : Advances params r.pool t.pool)
    (hjoin : t.join = r.join := by rfl)
    (hlanded : ∀ x ∈ t.landed, x ∈ r.landed ∨ t.pool.Placed x.1 x.2.1 x.2.2 := by exact fun _ ↦ .inl) :
    t.Kept params := by
  refine ⟨hpool.follows, fun stream w hw ↦ ?_, fun x hx ↦ ?_, fun j todo hj hphase ↦ ?_⟩
  · rcases hpool.writers stream w hw with ⟨w', hw', -⟩ | ⟨hstream, -⟩
    · exact h.streams stream w' hw'
    · exact hstream
  · rcases hlanded x hx with hx | hx
    · exact hpool.placed _ _ _ (h.placed x hx)
    · exact hx
  · obtain ⟨hoffline, hrolled⟩ := h.joining j todo (hjoin ▸ hj) hphase
    refine ⟨fun hmem ↦ hoffline (hpool.online _ hmem), fun stream w hw ↦ ?_⟩
    rcases hpool.writers stream w hw with ⟨w', hw', hsub⟩ | ⟨-, hsub⟩
    · exact (hrolled stream w' hw').imp_right fun hnot hmem ↦ hnot (hsub _ hmem)
    · exact .inr fun hmem ↦ hoffline (hsub _ hmem)

theorem Kept.setJoin (h : r.Kept params) {join : Option (Join Hash)}
    (hjoin : ∀ j todo, join = some j → j.phase = .rollBefore todo → j.target ∉ r.pool.online ∧
      ∀ stream w, r.pool.writers stream = some w → stream ∈ todo ∨ j.target ∉ w.vdevs) :
    (r.setJoin join).Kept params :=
  ⟨h.follows, h.streams, h.placed, hjoin⟩

theorem Kept.fail (h : r.Kept params) (j : Join Hash) : (r.fail j).Kept params := by
  have hfault : (r.setPool (r.pool.fault [j.target])).Kept params :=
    h.advance (h.follows.fault [j.target])
  unfold Replicas.fail
  split
  · exact h.setJoin (by simp)
  · exact hfault.setJoin (by simp)

/-- A join goes on with a phase after the first rolls, or fails. -/
theorem Kept.next (h : r.Kept params) (ok : Bool) (j : Join Hash)
    (hphase : ok = true → ∀ todo, phase = .rollBefore todo → j.target ∉ r.pool.online ∧
      ∀ stream w, r.pool.writers stream = some w → stream ∈ todo ∨ j.target ∉ w.vdevs) :
    (r.next ok j phase).Kept params := by
  unfold Replicas.next
  split_ifs with hok
  · refine h.setJoin ?_
    rintro _ todo ⟨⟩ heq
    exact hphase hok todo heq
  · exact h.fail j

/-- The shard whose writer a join rolls next. -/
def rolls (r : Replicas Hash) : Option ShardId :=
  r.join.bind fun j ↦
    match j.phase with
    | .rollBefore (.shard shard :: _) | .rollAfter (.shard shard :: _) => some shard
    | _ => none

/-- A shard's segment is given up, with every device it still had failing, only when some device
has all its records durably. -/
def AbandonsCovered (params : Params) (r : Replicas Hash) : ReplicaAction Hash → Prop
  | .write (.append shard _ failed _) => r.pool.GivesUpCovered params shard failed
  | .write (.closeSegment (.shard shard) failed _) => r.pool.GivesUpCovered params shard failed
  | .joinStep failed _ => ∀ shard ∈ r.rolls, r.pool.GivesUpCovered params shard failed
  | _ => True

instance (r : Replicas Hash) (a : ReplicaAction Hash) : Decidable (AbandonsCovered params r a) := by
  unfold AbandonsCovered
  split <;> infer_instance

section

variable (h : r.Kept params) {v : VdevId} {id : SegmentId} {stream : Stream}

include h

theorem Kept.write {a : Action Hash} (hcovered : AbandonsCovered params r (.write a))
    (hstep : r.write params a = some t) : t.Kept params := by
  obtain ⟨hwrite, hstep⟩ := ite_none_right_eq_some.1 hstep
  obtain ⟨_, hpool, rfl⟩ := map_eq_some_iff.1 hstep
  cases a with
  | openSegment =>
    obtain ⟨hstream, hopen⟩ := ite_none_right_eq_some.1 hpool
    exact h.advance (h.follows.openSegment (mem_streams.2 hstream) hopen)
  | append =>
    refine h.advance (h.follows.moves (moves_append ?_ hpool)) rfl fun x hx ↦ ?_
    · rintro _ - _ ⟨⟩
      exact hcovered
    · rcases mem_append.1 hx with hx | hx
      · exact .inr (h.follows.landing hpool x (mem_toList.1 hx))
      · exact .inl hx
  | dedupHit hash =>
    obtain ⟨-, ⟨⟩⟩ := ite_none_right_eq_some.1 hpool
    exact h.advance (h.follows.move (.acknowledge hash))
  | flush shard ok =>
    cases hpool
    exact h.advance (h.follows.move (.flush (.shard shard) ok))
  | fsync stream failed ok =>
    cases hpool
    exact h.advance (h.follows.fsync stream failed ok)
  | closeSegment stream failed ok =>
    cases hpool
    refine h.advance (h.follows.closeSegment stream failed ok ?_)
    rintro _ rfl
    exact hcovered
  | putMeta =>
    exact h.advance (h.follows.moves (moves_putMeta (by simp [GoesCovered]) hpool))
  | fault v =>
    cases hpool
    exact h.advance (h.follows.fault [v])
  | _ => simp [Action.isWrite] at hwrite

theorem isOpen_eq_false (hopen : r.isOpen params v id = false) {w : Writer}
    (hw : r.pool.writers stream = some w) : ¬(w.segmentId = id ∧ v ∈ w.vdevs) := by
  rintro ⟨rfl, hv⟩
  have htrue : r.isOpen params v w.segmentId = true :=
    any_eq_true.2 ⟨stream, h.streams stream w hw, by simp [hw, hv]⟩
  rw [hopen] at htrue
  cases htrue

theorem Kept.lose (hopen : r.isOpen params v id = false) :
    (r.setPool (r.pool.lose v id)).Kept params :=
  ⟨h.follows.lose fun _ _ hw ↦ isOpen_eq_false h hopen hw, h.streams,
    fun x hx ↦ (h.placed x hx).lose v id, h.joining⟩

/-- One roll of a join: the stream's writer is gone, and what it opens next is not on the device. -/
theorem Kept.roll (hj : r.join = some j)
    (hcovered : ∀ shard, stream = .shard shard → r.pool.GivesUpCovered params shard failed)
    (hphase : ∀ todo, phase = .rollBefore todo → j.phase = .rollBefore (stream :: todo)) :
    ((r.setPool (r.pool.closeSegment stream failed ok)).next (r.pool.closeSucceeds stream failed ok) j
      phase).Kept params := by
  have hclose := h.follows.closeSegment stream failed ok hcovered
  have hkept : (r.setPool (r.pool.closeSegment stream failed ok)).Kept params :=
    h.advance hclose
  refine hkept.next _ j fun hok todo heq ↦ ?_
  obtain ⟨hoffline, hrolled⟩ := hkept.joining j _ hj (hphase todo heq)
  refine ⟨hoffline, fun stream' w hw ↦ ?_⟩
  rcases hrolled stream' w hw with hmem | hnot
  · rcases mem_cons.1 hmem with rfl | hmem
    · -- The rolled stream has no writer.
      cases hw.symm.trans (closeSegment_done hok).1
    · exact .inl hmem
  · exact .inr hnot

theorem Kept.attach (hj : r.join = some j) (hphase : j.phase = .rollBefore []) :
    ((r.setPool ((r.pool.sealOrphans j.target).attach j.target)).next true j
      (.rollAfter params.streams)).Kept params := by
  obtain ⟨-, hrolled⟩ := h.joining j [] hj hphase
  have hclosed : ∀ stream w, r.pool.writers stream = some w → j.target ∉ w.vdevs := fun stream w hw ↦
    (hrolled stream w hw).resolve_left not_mem_nil
  have hseal := h.follows.sealOrphans hclosed
  refine ⟨{ hseal with }, h.streams, fun x hx ↦ ?_, ?_⟩
  · have hplaced := (h.placed x hx).sealOrphans j.target
    exact { hplaced with }
  · rintro _ _ ⟨⟩ heq
    cases heq

theorem Kept.joinStep (hj : r.join = some j)
    (hcovered : ∀ shard ∈ r.rolls, r.pool.GivesUpCovered params shard failed)
    (hstep : r.joinStep params failed ok j = some t) : t.Kept params := by
  unfold Replicas.joinStep at hstep
  split at hstep
  next stream todo hphase =>
    cases hstep
    refine h.roll hj ?_ ?_
    · rintro shard rfl
      exact hcovered shard (by simp [rolls, hj, hphase])
    · rintro _ ⟨⟩
      exact hphase
  next hphase =>
    split_ifs at hstep
    · cases hstep
      exact h.attach hj hphase
    · cases hstep
      exact h.fail j
  next todo hphase =>
    cases hstep
    refine h.roll hj ?_ (by simp)
    rintro shard rfl
    exact hcovered shard (by simp [rolls, hj, hphase])
  next =>
    cases hstep
    exact h.next _ j (by simp)
  next shard _ _ =>
    cases hstep
    have hflush : (r.setPool (r.pool.flush (.shard shard) ok)).Kept params :=
      h.advance (h.follows.move (.flush (.shard shard) ok))
    exact hflush.next _ j (by simp)
  next =>
    cases hstep
    exact h.next true j (by simp)
  · cases hstep

theorem Kept.visit (hstep : r.visit hash ok j = some t) : t.Kept params := by
  obtain ⟨_, -, ⟨-, rfl⟩ | ⟨-, rfl⟩ | ⟨kind, -, -, rfl⟩ | rfl⟩ := visit_eq_some hstep
  · exact h.next true j (by simp)
  · exact h.next true j (by simp)
  · have hheal : (r.setPool (r.pool.healOnto j.target kind hash)).Kept params :=
      h.advance (h.follows.healOnto j.target kind hash)
    exact hheal.next true j (by simp)
  · exact h.fail j

theorem Kept.step {a : ReplicaAction Hash} (hcovered : AbandonsCovered params r a)
    (hstep : r.step params a = some t) : t.Kept params := by
  cases a with
  | write => exact h.write hcovered hstep
  | lose =>
    obtain ⟨hopen, ⟨⟩⟩ := ite_none_left_eq_some.1 hstep
    exact h.lose (Bool.not_eq_true _ ▸ hopen)
  | beginJoin =>
    obtain ⟨hguard, ⟨⟩⟩ := ite_none_right_eq_some.1 hstep
    refine h.setJoin ?_
    rintro j _ ⟨⟩ ⟨⟩
    exact ⟨hguard.2, fun stream w hw ↦ .inl (h.streams stream w hw)⟩
  | beginResilver =>
    obtain ⟨-, ⟨⟩⟩ := ite_none_right_eq_some.1 hstep
    refine h.setJoin ?_
    rintro j _ ⟨⟩ ⟨⟩
  | joinStep =>
    obtain ⟨j, hj, hstep⟩ := bind_eq_some_iff.1 hstep
    exact h.joinStep hj hcovered hstep
  | visit =>
    obtain ⟨j, -, hstep⟩ := bind_eq_some_iff.1 hstep
    exact h.visit hstep
  | failJoin =>
    obtain ⟨j, -, rfl⟩ := map_eq_some_iff.1 hstep
    exact h.fail j
  | finishJoin =>
    obtain ⟨j, -, hstep⟩ := bind_eq_some_iff.1 hstep
    split at hstep
    next =>
      cases hstep
      exact h.setJoin (by simp)
    · cases hstep

end

theorem Created.kept (h : r.Created) : r.Kept params := by
  obtain ⟨⟨hsegments, -, -, -, -, hwriters, -⟩, hlanded, hjoin⟩ := h
  refine ⟨⟨fun v id _ ↦ hsegments v id, ?_, ?_, ?_, ?_⟩, ?_, ?_, ?_⟩
  · simp [hwriters]
  · simp [hwriters]
  · simp [hwriters]
  · simp [hwriters]
  · simp [hwriters]
  · simp [hlanded]
  · simp [hjoin]

theorem kept_of_reachable (h : (replicating Hash params).ReachableUnder (AbandonsCovered params) r) :
    r.Kept params :=
  h.invariant (fun _ ↦ Created.kept) fun _ _ _ _ hinv hcond hstep ↦ hinv.step hcond hstep

/-- A successful sync makes everything durable that its shard has acknowledged. -/
theorem Kept.durableAt_fsync (h : r.Kept params) {shard : ShardId}
    (hsucceeds : r.pool.fsyncSucceeds (.shard shard) failed = true) {loc : Location}
    (hlanded : (shard, loc, hash) ∈ r.landed) :
    ∃ v, (r.pool.fsync (.shard shard) failed ok).durableAt (.vdev v) loc = some hash := by
  have hplaced := h.placed _ hlanded
  have hadvance : State.Advances params r.pool (r.pool.fsync (.shard shard) failed ok) :=
    h.follows.fsync (.shard shard) failed ok
  obtain ⟨v, hv⟩ | ⟨w', hw', hid⟩ := (hadvance.placed _ _ _ hplaced).held
  · exact ⟨v, hv⟩
  -- The record is in the open segment, which some device syncs.
  unfold State.fsync at hw' ⊢
  split at hw'
  next hnone =>
    rw [(State.sameWriters_flush (.shard shard) ok).writers, hnone] at hw'
    cases hw'
  next w hw =>
    obtain ⟨v, hv, hnot⟩ : ∃ v ∈ w.vdevs, v ∉ failed := by
      simpa [State.fsyncSucceeds, hw] using hsucceeds
    have hmem : v ∈ w.live failed := List.mem_filter.2 ⟨hv, by simpa using hnot⟩
    have hne : w.live failed ≠ [] := List.ne_nil_of_mem hmem
    have hflush := State.sameWriters_flush (s := (r.pool.syncOn (.shard shard) w (w.live failed)).fault
      (w.dead failed)) (.shard shard) ok
    dsimp only at hw' ⊢
    rw [if_neg hne] at hw' ⊢
    have hsync : w.segmentId = loc.segmentId := by
      have hw' := (congrFun hflush.writers _).symm.trans hw'
      obtain rfl : _ = w' := by simpa [State.fault, State.syncOn, State.setWriter] using hw'
      exact hid
    obtain ⟨seg, hseg, hlen⟩ := h.follows.cursor _ w hw v hv
    have hget := hplaced.agree v seg (hsync ▸ hseg) (hlen ▸ hplaced.cursor _ w hw hsync)
    refine ⟨v, (hflush.durableAt v loc).trans (State.durableAt_vdev.2 ⟨seg.fsync, ?_, ?_⟩)⟩
    · rw [← hsync]
      exact (State.segments_updateSegment_of_mem hmem).trans (congrArg (Option.map Segment.fsync) hseg)
    · simpa [Segment.fsync] using hget

/-- When `fsync_data` of a shard returns without an error, every record the shard acknowledged,
in the segment that is open or in any before it, is durable on some device. -/
theorem fsync_data_covers_acknowledged {shard : ShardId} {failed : List VdevId} {ok : Bool}
    (h : (replicating Hash params).ReachableUnder (AbandonsCovered params) r)
    (hstep : r.step params (.write (.fsync (.shard shard) failed ok)) = some t)
    (hok : (r.pool.fsyncSucceeds (.shard shard) failed && r.pool.flushSucceeds (.shard shard) ok) = true) :
    ∀ loc hash, (shard, loc, hash) ∈ t.landed → ∃ v, t.pool.durableAt (.vdev v) loc = some hash := by
  intro _ _ hlanded
  have hwrite : r.write params (.fsync (.shard shard) failed ok) = some t := hstep
  obtain ⟨-, hwrite⟩ := ite_none_right_eq_some.1 hwrite
  obtain ⟨_, hpool, rfl⟩ := map_eq_some_iff.1 hwrite
  cases hpool
  exact (kept_of_reachable h).durableAt_fsync (Bool.and_eq_true_iff.1 hok).1 hlanded

def createdReplicas : Replicas Nat where
  pool := State.created
  landed := []
  join := none

theorem createdReplicas_created : createdReplicas.Created :=
  ⟨created_created, rfl, rfl⟩

/-- Device 1 fails the second append and device 0 the third, with or without a barrier between
them. Device 1 is joined again and the shard goes on in a new segment. -/
def abandonRun (between : List (ReplicaAction Nat)) : List (ReplicaAction Nat) :=
  [.write (.openSegment (.shard 0) []), .write (.append 0 7 [] true), .write (.append 0 8 [1] true)] ++ between ++
    [.write (.append 0 9 [0] true), .beginJoin 1, .joinStep [] true, .joinStep [] true, .joinStep [] true,
      .write (.openSegment (.shard 0) []), .write (.append 0 10 [] true)]

/-- With a barrier before the segment is given up. -/
theorem fsync_data_covers_acknowledged_abandonRun :
    ∃ r t, (replicating Nat State.twoDevices).ReachableUnder (AbandonsCovered State.twoDevices) r ∧
      r.step State.twoDevices (.write (.fsync (.shard 0) [] true)) = some t ∧
      ∃ v, t.pool.durableAt (.vdev v) ⟨0, 1⟩ = some 8 := by
  obtain ⟨r, t, hr, hstep, hok, hlanded⟩ : ∃ r t,
      (replicating Nat State.twoDevices).ReachableUnder (AbandonsCovered State.twoDevices) r ∧
      r.step State.twoDevices (.write (.fsync (.shard 0) [] true)) = some t ∧
      (r.pool.fsyncSucceeds (.shard 0) [] && r.pool.flushSucceeds (.shard 0) true) = true ∧
      (0, ⟨0, 1⟩, 8) ∈ t.landed :=
    Machine.exists_step_of_run createdReplicas_created (abandonRun [.write (.fsync (.shard 0) [] true)])
      (by decide +kernel)
  exact ⟨r, t, hr, hstep, fsync_data_covers_acknowledged hr hstep hok ⟨0, 1⟩ 8 hlanded⟩

/-- Without it: the second record was acknowledged on device 0, which never synced it. The
barrier of the new segment succeeds all the same. -/
theorem abandoned_record_not_durable :
    ∃ r t : Replicas Nat, (replicating Nat State.twoDevices).Reachable r ∧
      r.step State.twoDevices (.write (.fsync (.shard 0) [] true)) = some t ∧
      r.pool.fsyncSucceeds (.shard 0) [] = true ∧ r.pool.flushSucceeds (.shard 0) true = true ∧
      (0, ⟨0, 1⟩, 8) ∈ t.landed ∧ 8 ∈ t.pool.acked ∧
      ∀ v ∈ State.twoDevices.vdevs, t.pool.durableAt (.vdev v) ⟨0, 1⟩ = none := by
  exact Machine.exists_step_of_run createdReplicas_created (abandonRun []) (by decide +kernel)

end Replicas

end Lchfs.Index
