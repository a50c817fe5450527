import Lchfs.Index.Barriers
import Lchfs.Index.Completeness

/-!
# The index tells the truth about devices

What the index, a batch or the cache names on a device is `Secure` there: it is durable, or
the device is still one of those the open segment goes to, so that the next barrier syncs it.
A device that is dropped from a segment leaves the fan-out but stays named: the property
asks that it had synced what it has of the segment.

A resilver passes over what the index names on its device, so it relies on this. What it does
not find there it copies, and what is written while it runs goes to the device directly,
since every writer was rolled after the device came online.
-/

set_option linter.unusedSectionVars false

namespace Lchfs.Index

open Lchfs.Format (ShardId SegmentId)
open Lchfs.Library
open List Option State Segment Entries

variable {Hash : Type} {id : SegmentId}

namespace State

/-- A writer has this copy open. -/
def OpenOn (s : State Hash) (v : VdevId) (id : SegmentId) : Prop :=
  ∃ stream w, s.writers stream = some w ∧ w.segmentId = id ∧ v ∈ w.vdevs

/-- The record is on the device, and durable there or in a copy that the next barrier syncs. -/
def Secure (s : State Hash) (v : VdevId) (loc : Location) (hash : Hash) : Prop :=
  s.recordAt (.vdev v) loc = some hash ∧
    (s.durableAt (.vdev v) loc = some hash ∨ s.OpenOn v loc.segmentId)

def Held (s : State Hash) (v : VdevId) (hash : Hash) : Prop :=
  ∃ loc, s.Secure v loc hash

/-- The device has synced all it has of the segment. -/
def Whole (s : State Hash) (v : VdevId) (id : SegmentId) : Prop :=
  ∀ seg ∈ s.segments v id, seg.records.length ≤ seg.durable

instance (s : State Hash) (v : VdevId) (id : SegmentId) : Decidable (s.Whole v id) :=
  inferInstanceAs (Decidable (∀ seg ∈ s.segments v id, _))

/-- A device has no copy of a segment that a stream has open or has a batch for. -/
def Absent (s : State Hash) (v : VdevId) (stream : Stream) : Prop :=
  (∀ w, s.writers stream = some w → s.segments v w.segmentId = none) ∧
    ∀ e ∈ s.pendingIndex stream, s.segments v e.location.segmentId = none

variable [DecidableEq Hash] {params : Params} {P : Stream → VdevId → Prop} {s t u : State Hash}
variable {target v : VdevId} {hash : Hash} {stream : Stream} {w : Writer} {failed : List VdevId}
  {loc : Location} {entries : List ((Hash × Tag) × Location)}

/-- `P` says for which streams and devices the fan-out is not complete yet. -/
structure Accounted (params : Params) (P : Stream → VdevId → Prop) (s : State Hash) : Prop where
  sound : s.Sound
  mirrored : ∀ hash, s.index.entries.lookup (hash, .striped) = none
  index : ∀ hash v loc, s.index.entries.lookup (hash, .vdev v) = some loc → s.Secure v loc hash
  cache : ∀ hash v loc, s.cache hash = some (loc, .vdev v) → s.Secure v loc hash
  pending : ∀ stream, ∀ e ∈ s.pendingIndex stream, ∀ v ∈ e.vdevs, s.Secure v e.location e.hash
  streams : ∀ stream, stream ∉ params.streams → s.writers stream = none ∧ s.pendingIndex stream = []
  fan : ∀ stream v, v ∈ s.online → ¬P stream v →
    (∀ w, s.writers stream = some w → v ∈ w.vdevs) ∧ ∀ e ∈ s.pendingIndex stream, v ∈ e.vdevs

/-- What a step keeps of the records, and what it adds to the index. -/
structure Passes (P : Stream → VdevId → Prop) (s t : State Hash) : Prop where
  secure : ∀ v loc hash, s.Secure v loc hash → t.Secure v loc hash
  news : ∀ hash, t.indexed hash = true → s.indexed hash = true ∨
    ∀ v ∈ t.online, (∀ stream, ¬P stream v) → t.Held v hash
  online : ∀ v ∈ t.online, v ∈ s.online
  absent : ∀ v, v ∉ s.online → ∀ stream, s.Absent v stream → t.Absent v stream

theorem Passes.refl (s : State Hash) : Passes P s s where
  secure _ _ _ h := h
  news _ h := .inl h
  online _ h := h
  absent _ _ _ h := h

theorem Passes.held (h : Passes P s t) (hs : s.Held v hash) : t.Held v hash :=
  hs.imp fun loc hloc ↦ h.secure v loc hash hloc

theorem Passes.trans (hst : Passes P s t) (htu : Passes P t u) : Passes P s u where
  secure v loc hash h := htu.secure v loc hash (hst.secure v loc hash h)
  news hash h := by
    rcases htu.news hash h with h | h
    · exact (hst.news hash h).imp_right fun h v hv hP ↦ htu.held (h v (htu.online v hv) hP)
    · exact .inr h
  online v h := hst.online v (htu.online v h)
  absent v hv stream h :=
    htu.absent v (fun hmem ↦ hv (hst.online v hmem)) stream (hst.absent v hv stream h)

/-- A record stays secure if its copy does not shrink and, when its writer drops it, is whole. -/
theorem Secure.of_frame (h : s.Secure v loc hash) (hframe : Frame s t)
    (hopen : s.OpenOn v loc.segmentId → t.OpenOn v loc.segmentId ∨ t.Whole v loc.segmentId) :
    t.Secure v loc hash := by
  have hrecord := hframe.recordAt h.1
  refine ⟨hrecord, ?_⟩
  rcases h.2 with hdurable | hs
  · exact .inl (hframe.durableAt hdurable)
  · rcases hopen hs with ht | hwhole
    · exact .inr ht
    · obtain ⟨seg, hseg, hget⟩ := recordAt_vdev.1 hrecord
      refine .inl (durableAt_vdev.2 ⟨seg, hseg, ?_⟩)
      rw [take_of_length_le (hwhole seg hseg)]
      exact hget

/-! ## The index, the batches and the cache -/

theorem indexed_putIndex (h : (s.putIndex entries).indexed hash = true) :
    s.indexed hash = true ∨ ∃ entry ∈ entries, entry.1.1 = hash := by
  obtain ⟨tag, loc, hlookup⟩ := has_iff.1 h
  rcases lookup_putAll hlookup with hmem | ⟨hold, -⟩
  · exact .inr ⟨_, hmem, rfl⟩
  · exact .inl (has_iff.2 ⟨tag, loc, hold⟩)

theorem Accounted.putIndex (h : s.Accounted params P)
    (hentries : ∀ entry ∈ entries, ∃ v, entry.1.2 = .vdev v ∧ s.Secure v entry.2 entry.1.1)
    (hnews : ∀ entry ∈ entries, s.indexed entry.1.1 = true ∨
      ∀ v ∈ s.online, (∀ stream, ¬P stream v) → s.Held v entry.1.1) :
    (s.putIndex entries).Accounted params P ∧ Passes P s (s.putIndex entries) := by
  refine ⟨⟨h.sound.putIndex fun entry hentry ↦ ?_, fun hash ↦ ?_, fun hash v loc hlookup ↦ ?_, h.cache, h.pending,
    h.streams, h.fan⟩, fun _ _ _ hs ↦ hs, fun hash hindexed ↦ ?_, fun _ hv ↦ hv, fun _ _ _ ha ↦ ha⟩
  · obtain ⟨v, htag, hsecure⟩ := hentries entry hentry
    exact htag ▸ hsecure.1
  · cases hlookup : (s.putIndex entries).index.entries.lookup (hash, .striped) with
    | none => rfl
    | some =>
      rcases lookup_putAll hlookup with hmem | ⟨hold, -⟩
      · obtain ⟨v, htag, -⟩ := hentries _ hmem
        cases htag
      · rw [h.mirrored hash] at hold
        cases hold
  · rcases lookup_putAll hlookup with hmem | ⟨hold, -⟩
    · obtain ⟨v', htag, hsecure⟩ := hentries _ hmem
      obtain rfl : v = v' := by simpa using htag
      exact hsecure
    · exact h.index hash v loc hold
  · rcases indexed_putIndex hindexed with hold | ⟨entry, hentry, rfl⟩
    · exact .inl hold
    · exact hnews entry hentry

theorem Accounted.putCache (h : s.Accounted params P) (hsecure : s.Secure v loc hash) :
    (s.putCache hash loc (.vdev v)).Accounted params P ∧ Passes P s (s.putCache hash loc (.vdev v)) := by
  refine ⟨⟨h.sound.putCache hsecure.1, h.mirrored, h.index, fun hash' v' loc' hget ↦ ?_, h.pending, h.streams, h.fan⟩,
    fun _ _ _ hs ↦ hs, fun _ hi ↦ .inl hi, fun _ hv ↦ hv, fun _ _ _ ha ↦ ha⟩
  rcases ite_eq_iff.1 hget with ⟨rfl, ⟨⟩⟩ | ⟨-, hget⟩
  · exact hsecure
  · exact h.cache hash' v' loc' hget

/-- A batch whose entries are old or have a property. -/
theorem mem_setPending {stream' : Stream} {batch : List (IndexEntry Hash)} {e : IndexEntry Hash}
    {Q : IndexEntry Hash → Prop} (hbatch : ∀ e ∈ batch, e ∈ s.pendingIndex stream ∨ Q e)
    (h : e ∈ (s.setPending stream batch).pendingIndex stream') : e ∈ s.pendingIndex stream' ∨ stream' = stream ∧ Q e := by
  simp only [setPending] at h
  split_ifs at h with heq
  · subst heq
    exact (hbatch e h).imp_right fun hnew ↦ ⟨rfl, hnew⟩
  · exact .inl h

section

variable (h : s.Accounted params P)

include h

/-- A batch gets entries of the segment its stream has open. -/
theorem Accounted.setPending (stream : Stream) (batch : List (IndexEntry Hash))
    (hbatch : ∀ e ∈ batch, e ∈ s.pendingIndex stream ∨
      (∃ w, s.writers stream = some w ∧ e.location.segmentId = w.segmentId) ∧
        (∀ v ∈ e.vdevs, s.Secure v e.location e.hash) ∧ ∀ v ∈ s.online, ¬P stream v → v ∈ e.vdevs) :
    (s.setPending stream batch).Accounted params P ∧ Passes P s (s.setPending stream batch) := by
  have hsound : (s.setPending stream batch).Sound := by
    refine h.sound.setPending (fun e he ↦ ?_) fun e he ↦ ?_
    · rcases hbatch e he with he | ⟨-, hsecure, -⟩
      · exact h.sound.pending stream e he
      · exact fun v hv ↦ (hsecure v hv).1
    · rcases hbatch e he with he | ⟨⟨w, hw, hid⟩, -, -⟩
      · exact h.sound.batch stream e he
      · exact hid ▸ h.sound.writer stream w hw
  refine ⟨⟨hsound, h.mirrored, h.index, h.cache, fun stream' e he ↦ ?_, fun stream' hstream ↦ ?_,
    fun stream' v hv hP ↦ ⟨(h.fan stream' v hv hP).1, fun e he ↦ ?_⟩⟩,
    fun _ _ _ hs ↦ hs, fun _ hi ↦ .inl hi, fun _ hv ↦ hv, fun v hv stream' ha ↦ ⟨ha.1, fun e he ↦ ?_⟩⟩
  · rcases mem_setPending hbatch he with hold | ⟨rfl, -, hsecure, -⟩
    · exact h.pending stream' e hold
    · exact hsecure
  · obtain ⟨hw, hp⟩ := h.streams stream' hstream
    refine ⟨hw, ?_⟩
    rw [eq_nil_iff_forall_not_mem]
    intro e he
    rcases mem_setPending hbatch he with hold | ⟨rfl, ⟨w, hw', -⟩, -⟩
    · simp [hp] at hold
    · rw [hw] at hw'
      cases hw'
  · rcases mem_setPending hbatch he with hold | ⟨rfl, -, -, hfan⟩
    · exact (h.fan stream' v hv hP).2 e hold
    · exact hfan v hv hP
  · rcases mem_setPending hbatch he with hold | ⟨rfl, ⟨w, hw, hid⟩, -⟩
    · exact ha.2 e hold
    · exact hid ▸ ha.1 w hw

/-- What a batch names is on every online device whose fan-out is complete. -/
theorem Accounted.flush (stream : Stream) (ok : Bool) :
    (s.flush stream ok).Accounted params P ∧ Passes P s (s.flush stream ok) := by
  cases ok with
  | false => exact h.setPending stream [] (by simp)
  | true =>
    have hentries : ∀ entry ∈ entriesOf (s.pendingIndex stream), ∃ v, entry.1.2 = .vdev v ∧
        s.Secure v entry.2 entry.1.1 := fun entry hentry ↦ by
      obtain ⟨e, he, v, hv, rfl⟩ := mem_entriesOf.1 hentry
      exact ⟨v, rfl, h.pending stream e he v hv⟩
    obtain ⟨hput, hpass⟩ := h.putIndex hentries fun _ hentry ↦ by
      obtain ⟨e, he, _, _, rfl⟩ := mem_entriesOf.1 hentry
      exact .inr fun v hv hP ↦
        ⟨e.location, h.pending stream e he v ((h.fan stream v hv (hP stream)).2 e he)⟩
    obtain ⟨hset, hpass'⟩ := hput.setPending stream [] (by simp)
    exact ⟨hset, hpass.trans hpass'⟩

theorem Accounted.acknowledge (hash : Hash) :
    (s.acknowledge hash).Accounted params P ∧ Passes P s (s.acknowledge hash) :=
  ⟨⟨{ h.sound with }, h.mirrored, h.index, h.cache, h.pending, h.streams, h.fan⟩,
    fun _ _ _ hs ↦ hs, fun _ hi ↦ .inl hi, fun _ hv ↦ hv, fun _ _ _ ha ↦ ha⟩

theorem Accounted.fault (failed : List VdevId) :
    (s.fault failed).Accounted params P ∧ Passes P s (s.fault failed) :=
  ⟨⟨{ h.sound with }, h.mirrored, h.index, h.cache, h.pending, h.streams,
      fun stream v hv ↦ h.fan stream v (mem_of_mem_filter hv)⟩,
    fun _ _ _ hs ↦ hs, fun _ hi ↦ .inl hi, fun _ hv ↦ mem_of_mem_filter hv, fun _ _ _ ha ↦ ha⟩

/-! ## Segments and writers -/

/-- A step that leaves the index, the batches and the cache alone. -/
theorem Accounted.rewrite (hsound : t.Sound)
    (hsecure : ∀ v loc hash, s.Secure v loc hash → t.Secure v loc hash) (hindex : t.index = s.index)
    (hcache : t.cache = s.cache) (hpending : t.pendingIndex = s.pendingIndex)
    (honline : ∀ v ∈ t.online, v ∈ s.online)
    (hwriters : ∀ stream w, t.writers stream = some w → stream ∈ params.streams ∧
      ∀ v ∈ t.online, ¬P stream v → v ∈ w.vdevs)
    (habsent : ∀ v, v ∉ s.online → ∀ stream, s.Absent v stream → t.Absent v stream) :
    t.Accounted params P ∧ Passes P s t := by
  refine ⟨⟨hsound, hindex ▸ h.mirrored, fun hash v loc hlookup ↦ ?_, fun hash v loc hget ↦ ?_,
    fun stream e he v hv ↦ ?_, fun stream hstream ↦ ⟨?_, hpending ▸ (h.streams stream hstream).2⟩,
    fun stream v hv hP ↦ ⟨fun w hw ↦ (hwriters stream w hw).2 v hv hP, fun e he ↦ ?_⟩⟩,
    hsecure, fun hash hi ↦ .inl ?_, honline, habsent⟩
  · exact hsecure v loc hash (h.index hash v loc (hindex ▸ hlookup))
  · exact hsecure v loc hash (h.cache hash v loc (hcache ▸ hget))
  · exact hsecure v _ _ (h.pending stream e (hpending ▸ he) v hv)
  · rw [eq_none_iff_forall_ne_some]
    exact fun w hw ↦ hstream (hwriters stream w hw).1
  · exact (h.fan stream v (honline v hv) hP).2 e (hpending ▸ he)
  · simpa [indexed, hindex] using hi

theorem stream_mem_of_writers (hw : s.writers stream = some w) : stream ∈ params.streams := by
  by_contra hnot
  rw [(h.streams stream hnot).1] at hw
  cases hw

theorem Accounted.openSegment
    (hstream : stream ∈ params.streams) (hopen : s.openSegment stream failed = some t) :
    t.Accounted params P ∧ Passes P s t := by
  obtain ⟨hsound, hframe⟩ := h.sound.openSegment hopen
  obtain ⟨hnone, _, hsame⟩ := openSegment_eq_some hopen
  obtain ⟨-, ⟨⟩⟩ := ite_none_right_eq_some.1 hopen
  set vdevs := s.online.filter (· ∉ failed)
  have hsegments : ∀ v, v ∉ s.online → ∀ id, (s.openOn stream vdevs).segments v id = s.segments v id := by
    intro v hv _
    have hnot : v ∉ vdevs := fun hmem ↦ hv (mem_of_mem_filter hmem)
    simp [openOn, setWriter, createSegment, hnot]
  refine h.rewrite hsound (fun v _ _ hs ↦ hs.of_frame hframe ?_) rfl rfl rfl
    (fun v hv ↦ mem_of_mem_filter hv) (fun stream' w hw ↦ ?_) (fun v hv stream' ha ↦ ⟨fun w hw ↦ ?_, fun e he ↦ ?_⟩)
  · rintro ⟨stream', w, hw, hid, hv⟩
    have hne : stream' ≠ stream := by
      rintro rfl
      rw [hnone] at hw
      cases hw
    exact .inl ⟨stream', w, by simpa [State.fault, setWriter, createSegment, hne] using hw, hid, hv⟩
  · rw [hsame.writers] at hw
    rcases ite_eq_iff.1 hw with ⟨rfl, ⟨⟩⟩ | ⟨-, hw⟩
    · exact ⟨hstream, fun v hv _ ↦ hv⟩
    · exact ⟨stream_mem_of_writers h hw, fun v hv hP ↦
        (h.fan stream' v (mem_of_mem_filter hv) hP).1 w hw⟩
  · rw [hsame.writers] at hw
    refine (hsegments v hv w.segmentId).trans ?_
    rcases ite_eq_iff.1 hw with ⟨rfl, ⟨⟩⟩ | ⟨-, hw⟩
    · exact (h.sound.fresh _ (Nat.le_refl _)).1 v
    · exact ha.1 w hw
  · exact (hsegments v hv e.location.segmentId).trans (ha.2 e he)

end

/-- A device of the open segment fails only when it has synced all it has of the segment. -/
def DropsSynced (s : State Hash) (stream : Stream) (failed : List VdevId) : Prop :=
  ∀ w ∈ s.writers stream, ∀ v ∈ w.vdevs, v ∈ failed → s.Whole v w.segmentId

instance (s : State Hash) (stream : Stream) (failed : List VdevId) : Decidable (s.DropsSynced stream failed) :=
  inferInstanceAs (Decidable (∀ w ∈ s.writers stream, ∀ v ∈ w.vdevs, _ → _))

theorem SameWriters.dropsSynced (h : SameWriters s t) (hs : s.DropsSynced stream failed) :
    t.DropsSynced stream failed := by
  simpa [DropsSynced, Whole, h.segments, h.writers] using hs

section

variable (h : s.Accounted params P) {P' : Stream → VdevId → Prop}

include h

namespace Accounted

/-- The copies on the devices that do not fail change, the writer goes on with them or is gone,
and the others leave the online set. -/
theorem update
    (hw : s.writers stream = some w) (hdrop : s.DropsSynced stream failed) {f : Segment Hash → Segment Hash}
    {x : Option Writer} (ht : t = ((s.updateSegment (w.live failed) w.segmentId f).setWriter stream x).fault (w.dead failed))
    (hsound : t.Sound) (hf : ∀ seg : Segment Hash, seg.Extends (f seg))
    (hx : ∀ w₀, x = some w₀ → w₀.segmentId = w.segmentId ∧ w₀.vdevs = w.live failed)
    (hgone : x = none → ∀ seg : Segment Hash, (f seg).records.length ≤ (f seg).durable) :
    t.Accounted params P ∧ Passes P s t := by
  subst ht
  set vdevs := w.live failed
  have hframe := frame_updateSegment vdevs (h.sound.writer stream w hw) hf
  have habsent : ∀ v id, s.segments v id = none → (s.updateSegment vdevs w.segmentId f).segments v id = none := by
    intro v _ hnone
    simp [updateSegment, hnone]
  refine h.rewrite hsound (fun v _ _ hs ↦ hs.of_frame { hframe with } ?_) rfl rfl rfl
    (fun v hv ↦ mem_of_mem_filter hv) (fun stream' w₁ hw₁ ↦ ?_)
    (fun v hv stream' ha ↦ ⟨fun w₁ hw₁ ↦ ?_, fun e he ↦ habsent v _ (ha.2 e he)⟩)
  · rintro ⟨stream', w₁, hw₁, hid, hv⟩
    by_cases hstream : stream' = stream
    · subst hstream
      cases hw.symm.trans hw₁
      by_cases hfailed : v ∈ failed
      · -- A dropped copy does not change.
        refine .inr fun seg hseg ↦ ?_
        rcases segments_updateSegment hseg with ⟨hold, -⟩ | ⟨-, hmem, -⟩
        · exact hdrop w hw v hv hfailed seg (hid ▸ hold)
        · exact absurd hfailed (by simpa using (mem_filter.1 hmem).2)
      · have hmem : v ∈ vdevs := mem_filter.2 ⟨hv, by simpa using hfailed⟩
        cases hcase : x with
        | some w₀ =>
          obtain ⟨hid', hvdevs'⟩ := hx w₀ hcase
          exact .inl ⟨stream', w₀, by simp [State.fault, setWriter], hid'.trans hid, hvdevs' ▸ hmem⟩
        | none =>
          refine .inr fun _ hseg ↦ ?_
          rcases segments_updateSegment hseg with ⟨-, hnot⟩ | ⟨-, -, old, -, rfl⟩
          · exact absurd ⟨hid.symm, hmem⟩ hnot
          · exact hgone hcase old
    · exact .inl ⟨stream', w₁, by simpa [State.fault, setWriter, updateSegment, hstream] using hw₁, hid, hv⟩
  · rcases ite_eq_iff.1 hw₁ with ⟨rfl, hnew⟩ | ⟨-, hold⟩
    · refine ⟨stream_mem_of_writers h hw, fun v hv hP ↦ ?_⟩
      obtain ⟨hv, hnot⟩ := mem_filter.1 hv
      have hmem := (h.fan _ v hv hP).1 w hw
      have hfailed : v ∉ failed := fun hin ↦ by simp [hmem, hin] at hnot
      rw [(hx w₁ hnew).2]
      exact mem_filter.2 ⟨hmem, by simpa using hfailed⟩
    · exact ⟨stream_mem_of_writers h hold, fun v hv hP ↦
        (h.fan stream' v (mem_of_mem_filter hv) hP).1 w₁ hold⟩
  · rcases ite_eq_iff.1 hw₁ with ⟨rfl, hnew⟩ | ⟨-, hold⟩
    · rw [(hx w₁ hnew).1]
      exact habsent v _ (ha.1 w hw)
    · exact habsent v _ (ha.1 w₁ hold)

/-- A landed record is secure on every device that took it, and those are all online devices with
a complete fan-out. -/
theorem land {first : VdevId} {rest : List VdevId} (hw : s.writers stream = some w)
    (hdrop : s.DropsSynced stream failed) (hlive : w.live failed = first :: rest) (hash : Hash) :
    let t := (s.fault (w.dead failed)).land stream w (first :: rest) first hash
    t.Accounted params P ∧ Passes P s t ∧ (∃ w', t.writers stream = some w' ∧ w'.segmentId = w.segmentId) ∧
      (∀ v ∈ first :: rest, t.Secure v ⟨w.segmentId, w.cursor⟩ hash) ∧
      ∀ v ∈ t.online, ¬P stream v → v ∈ first :: rest := by
  rw [← hlive]
  intro t
  have hsound := h.sound.updateOpen hw (w.live failed) (w.cursor + 1) (w.mem_of_live failed) (f := (·.append hash))
    (fun seg ↦ ⟨seg.extends_append hash, rfl, rfl⟩) fun seg hlen ↦ by simp [Segment.append, hlen]
  obtain ⟨happend, hpass⟩ := h.update hw hdrop rfl { hsound with } (fun seg ↦ seg.extends_append hash)
    (by rintro _ ⟨⟩; exact ⟨rfl, rfl⟩) (by simp)
  set u := ((s.updateSegment (w.live failed) w.segmentId (·.append hash)).setWriter stream
    (some ⟨w.segmentId, w.live failed, w.cursor + 1⟩)).fault (w.dead failed) with hu
  have hwriter : u.writers stream = some ⟨w.segmentId, w.live failed, w.cursor + 1⟩ := by
    simp [hu, State.fault, setWriter]
  have hsecure : ∀ v ∈ w.live failed, u.Secure v ⟨w.segmentId, w.cursor⟩ hash := by
    intro v hv
    have hrecord := recordAt_append hash hv (h.sound.cursor stream w hw v (w.mem_of_live failed v hv))
    exact ⟨hrecord, .inr ⟨stream, _, hwriter, rfl, hv⟩⟩
  obtain ⟨hcache, hpass'⟩ := happend.putCache (hsecure first (hlive ▸ mem_cons_self))
  exact ⟨hcache, hpass.trans hpass', ⟨_, hwriter, rfl⟩, hsecure, fun v hv hP ↦ (happend.fan stream v hv hP).1 _ hwriter⟩

theorem move (hmove : Move (fun _ ↦ DropsSynced) s t) : t.Accounted params P ∧ Passes P s t := by
  have hsound := (h.sound.move hmove).1
  cases hmove with
  | acknowledge hash => exact h.acknowledge hash
  | flush stream ok => exact h.flush stream ok
  | sync hw hD =>
    exact h.update hw hD rfl hsound extends_fsync (by rintro _ ⟨⟩; exact ⟨rfl, rfl⟩) (by simp)
  | close hw hD =>
    exact h.update hw hD rfl hsound Segment.extends_sealed (by simp) fun _ _ ↦ by simp [Segment.sealed, Segment.fsync]
  | @append shard w _ _ _ hw hD hlive hash =>
    obtain ⟨hland, hpass, ⟨w', hw', hid⟩, hsecure, hfan⟩ := h.land hw hD hlive hash
    refine (hland.setPending (.shard shard) _ fun e he ↦ ?_).imp_right hpass.trans
    rcases mem_append.1 he with he | he
    · exact .inl he
    · obtain rfl := mem_singleton.1 he
      exact .inr ⟨⟨w', hw', hid.symm⟩, hsecure, hfan⟩
  | putMeta hw hD hlive hash =>
    obtain ⟨hland, hpass, -, hsecure, hfan⟩ := h.land hw hD hlive hash
    refine (hland.putIndex (fun entry hentry ↦ ?_) fun _ hentry ↦ .inr fun v hv hP ↦ ?_).imp_right hpass.trans
    · obtain ⟨v, hv, rfl⟩ := mem_take_entriesOf hentry
      exact ⟨v, rfl, hsecure v hv⟩
    · obtain ⟨_, -, rfl⟩ := mem_take_entriesOf hentry
      exact ⟨_, hsecure v (hfan v hv (hP .metadata))⟩

theorem moves (hmoves : Moves (fun _ ↦ DropsSynced) s t) : t.Accounted params P ∧ Passes P s t :=
  hmoves.rel .refl .trans (fun h hmove ↦ h.move hmove) h

theorem closeSegment (ok : Bool) (hdrop : s.DropsSynced stream failed) :
    (s.closeSegment stream failed ok).Accounted params P ∧ Passes P s (s.closeSegment stream failed ok) :=
  h.moves (moves_closeSegment ok ((sameWriters_flush stream ok).dropsSynced hdrop))

/-! ## Joins -/

theorem createSegment (htarget : target ∈ s.online) (seg : Segment Hash) :
    (s.createSegment [target] seg).Accounted params P ∧ Passes P s (s.createSegment [target] seg) := by
  have hframe := frame_createSegment h.sound [target] seg
  have hsegments : ∀ v, v ∉ s.online → ∀ id, (s.createSegment [target] seg).segments v id = s.segments v id := by
    intro v hv _
    have hne : v ≠ target := fun heq ↦ hv (heq ▸ htarget)
    simp [State.createSegment, hne]
  refine h.rewrite (h.sound.createSegment [target] seg) (fun v _ _ hs ↦ hs.of_frame hframe .inl) rfl rfl rfl
    (fun _ hv ↦ hv) (fun stream w hw ↦ ⟨stream_mem_of_writers h hw, fun v hv hP ↦ (h.fan stream v hv hP).1 w hw⟩)
    (fun v hv _ ha ↦ ⟨fun w hw ↦ ?_, fun e he ↦ ?_⟩)
  · exact (hsegments v hv _).trans (ha.1 w hw)
  · exact (hsegments v hv _).trans (ha.2 e he)

theorem healOnto (htarget : target ∈ s.online)
    (kind : StreamKind) (hindexed : s.indexed hash = true) :
    (s.healOnto target kind hash).Accounted params P ∧ Passes P s (s.healOnto target kind hash) ∧
      (s.healOnto target kind hash).Held target hash := by
  obtain ⟨hcreate, hpass⟩ := h.createSegment htarget (.complete kind (.shard 0) [hash])
  set u := s.createSegment [target] (.complete kind (.shard 0) [hash])
  have hsecure : u.Secure target ⟨s.nextSegmentId, 0⟩ hash :=
    ⟨recordAt_createSegment (mem_singleton_self target) rfl,
      .inl (durableAt_createSegment (mem_singleton_self target) rfl)⟩
  have hentries : ∀ entry ∈ [((hash, Tag.vdev target), (⟨s.nextSegmentId, 0⟩ : Location))],
      ∃ v, entry.1.2 = .vdev v ∧ u.Secure v entry.2 entry.1.1 := by
    simpa using hsecure
  obtain ⟨hput, hpass'⟩ := hcreate.putIndex hentries fun _ hentry ↦ by
    obtain rfl := mem_singleton.1 hentry
    exact .inl hindexed
  unfold State.healOnto
  dsimp only
  split_ifs
  · obtain ⟨hcache, hpass''⟩ := hput.putCache (hpass'.secure _ _ _ hsecure)
    exact ⟨hcache, (hpass.trans hpass').trans hpass'', ⟨_, hpass''.secure _ _ _ (hpass'.secure _ _ _ hsecure)⟩⟩
  · exact ⟨hput, hpass.trans hpass', ⟨_, hpass'.secure _ _ _ hsecure⟩⟩

/-- Copies change, but nothing that is secure or durable goes, and no open copy changes. -/
theorem sound_of_segments {segments : VdevId → SegmentId → Option (Segment Hash)} {online : List VdevId}
    (hsecure : ∀ v loc hash, s.Secure v loc hash → Secure { s with segments, online } v loc hash)
    (hdurable : KeepsDurable s { s with segments, online })
    (hnone : ∀ v id, s.segments v id = none → segments v id = none)
    (hbatch : ∀ stream, ∀ e ∈ s.pendingIndex stream, OpenFor { s with segments, online } stream e.location.segmentId)
    (hwriter : ∀ stream w, s.writers stream = some w → OpenFor { s with segments, online } stream w.segmentId)
    (hcursor : ∀ stream w, s.writers stream = some w → ∀ v ∈ w.vdevs, segments v w.segmentId = s.segments v w.segmentId) :
    Sound { s with segments, online } where
  fresh id hid := ⟨fun v ↦ hnone v id ((h.sound.fresh id hid).1 v), (h.sound.fresh id hid).2⟩
  index hash tag loc hlookup := by
    cases tag with
    | striped => exact h.sound.index hash .striped loc hlookup
    | vdev v => exact (hsecure v loc hash (h.index hash v loc hlookup)).1
  cache hash loc tag hget := by
    cases tag with
    | striped => exact h.sound.cache hash loc .striped hget
    | vdev v => exact (hsecure v loc hash (h.cache hash v loc hget)).1
  file file hfile hash tag loc hlookup := by
    cases tag with
    | striped => exact h.sound.file file hfile hash .striped loc hlookup
    | vdev v => exact hdurable v loc hash (h.sound.file file hfile hash (.vdev v) loc hlookup)
  pending stream e he v hv := (hsecure v _ _ (h.pending stream e he v hv)).1
  batch := hbatch
  writer := hwriter
  cursor stream w hw v hv := by
    obtain ⟨seg, hseg, hlen⟩ := h.sound.cursor stream w hw v hv
    exact ⟨seg, (hcursor stream w hw v hv).trans hseg, hlen⟩

/-- What a closed copy can lose is nothing that is secure. -/
theorem lose (hclosed : ∀ stream w, s.writers stream = some w → ¬(w.segmentId = id ∧ v ∈ w.vdevs)) :
    (s.lose v id).Accounted params P ∧ Passes P s (s.lose v id) := by
  have hdurable : KeepsDurable s (s.lose v id) :=
    keepsDurable_updateSegment fun seg ↦ by simp [cut, take_take]
  have hother : ∀ u i, ¬(i = id ∧ u = v) → (s.lose v id).segments u i = s.segments u i := by
    intro u i hne
    simp [State.lose, updateSegment, hne]
  have hsecure : ∀ u loc hash, s.Secure u loc hash → (s.lose v id).Secure u loc hash := by
    intro u loc hash hs
    rcases hs.2 with hdur | ⟨stream, w, hw, hid, hu⟩
    · exact ⟨recordAt_of_durableAt (hdurable u loc hash hdur), .inl (hdurable u loc hash hdur)⟩
    · have hne : ¬(loc.segmentId = id ∧ u = v) := fun hwas ↦
        hclosed stream w hw ⟨hid.trans hwas.1, hwas.2 ▸ hu⟩
      obtain ⟨seg, hseg, hget⟩ := recordAt_vdev.1 hs.1
      exact ⟨recordAt_vdev.2 ⟨seg, (hother u _ hne).trans hseg, hget⟩, .inr ⟨stream, w, hw, hid, hu⟩⟩
  have hopen : ∀ {stream i}, s.OpenFor stream i → (s.lose v id).OpenFor stream i := by
    intro _ i ho
    refine ⟨ho.1, fun u seg hseg ↦ ?_⟩
    rcases segments_updateSegment hseg with ⟨hseg, -⟩ | ⟨hid, -, old, hold, rfl⟩
    · exact ho.2 u seg hseg
    · exact ho.2 u old (hid ▸ hold)
  have hnone : ∀ u i, s.segments u i = none → (s.lose v id).segments u i = none := by
    intro u i hn
    simp [State.lose, updateSegment, hn]
  have hsound : (s.lose v id).Sound := by
    refine h.sound_of_segments hsecure hdurable hnone (fun stream e he ↦ hopen (h.sound.batch stream e he))
      (fun stream w hw ↦ hopen (h.sound.writer stream w hw)) fun stream w hw u hu ↦ ?_
    have hne : ¬(w.segmentId = id ∧ u = v) := fun hwas ↦ hclosed stream w hw ⟨hwas.1, hwas.2 ▸ hu⟩
    exact hother u _ hne
  exact h.rewrite hsound hsecure rfl rfl rfl (fun _ hv ↦ hv)
    (fun stream w hw ↦ ⟨stream_mem_of_writers h hw, fun u hu hP ↦ (h.fan stream u hu hP).1 w hw⟩)
    (fun u _ _ ha ↦ ⟨fun w hw ↦ hnone u _ (ha.1 w hw), fun e he ↦ hnone u _ (ha.2 e he)⟩)

/-- The orphans of a device are sealed where no stream has a segment on it, and the device comes
online with every stream still to be rolled. -/
theorem attach (habsent : ∀ stream, s.Absent v stream)
    (hP : ∀ stream u, ¬P' stream u → ¬P stream u ∧ (u = v → stream ∉ params.streams)) :
    ((s.sealOrphans v).attach v).Accounted params P' := by
  have hother : ∀ u i, u ≠ v → (s.sealOrphans v).segments u i = s.segments u i := by
    intro u i hne
    simp [State.sealOrphans, hne]
  have hsecure : ∀ u loc hash, s.Secure u loc hash → ((s.sealOrphans v).attach v).Secure u loc hash := by
    intro u loc hash hs
    refine ⟨?_, hs.2.imp_left (keepsDurable_sealOrphans v u loc hash)⟩
    obtain ⟨seg, hseg, hget⟩ := recordAt_vdev.1 hs.1
    have hne : seg.records ≠ [] := by
      intro hnil
      simp [hnil] at hget
    refine recordAt_vdev.2 ?_
    by_cases huv : u = v
    · subst huv
      cases hsealed : seg.isSealed with
      | true => exact ⟨seg, by simp [State.attach, State.sealOrphans, hseg, hsealed], hget⟩
      | false => exact ⟨seg.sealed, by simp [State.attach, State.sealOrphans, hseg, hsealed, hne], hget⟩
    · exact ⟨seg, (hother u _ huv).trans hseg, hget⟩
  -- The copies of the segments that are open or in a batch are on other devices.
  have hopen : ∀ {stream i}, s.OpenFor stream i → s.segments v i = none → (s.sealOrphans v).OpenFor stream i := by
    intro _ i ho hnone
    refine ⟨ho.1, fun u seg hseg ↦ ?_⟩
    by_cases huv : u = v
    · simp [State.sealOrphans, huv, hnone] at hseg
    · exact ho.2 u seg ((hother u i huv).symm.trans hseg)
  have hsound : ((s.sealOrphans v).attach v).Sound := by
    refine h.sound_of_segments hsecure (keepsDurable_sealOrphans v) (fun u i hnone ↦ ?_)
      (fun stream e he ↦ hopen (h.sound.batch stream e he) ((habsent stream).2 e he))
      (fun stream w hw ↦ hopen (h.sound.writer stream w hw) ((habsent stream).1 w hw)) fun stream w hw u hu ↦ ?_
    · simp [State.sealOrphans, hnone]
    · obtain ⟨_, hseg, -⟩ := h.sound.cursor stream w hw u hu
      refine hother u _ ?_
      rintro rfl
      rw [(habsent stream).1 w hw] at hseg
      cases hseg
  refine ⟨hsound, h.mirrored, fun hash u loc hl ↦ hsecure u loc hash (h.index hash u loc hl),
    fun hash u loc hget ↦ hsecure u loc hash (h.cache hash u loc hget),
    fun stream e he u hu ↦ hsecure u _ _ (h.pending stream e he u hu), h.streams, fun stream u hu hnot ↦ ?_⟩
  obtain ⟨hPold, hstream⟩ := hP stream u hnot
  by_cases huv : u = v
  · obtain ⟨hw, hp⟩ := h.streams stream (hstream huv)
    simp [State.attach, State.sealOrphans, hw, hp]
  · refine h.fan stream u ?_ hPold
    simpa [State.attach, State.sealOrphans, huv] using hu

/-- A stream that has nothing open and nothing in its batch has no fan-out to complete. -/
theorem mono (hP : ∀ stream v, v ∈ s.online → P stream v → P' stream v ∨
      (s.writers stream = none ∧ s.pendingIndex stream = [])) : s.Accounted params P' := by
  refine ⟨h.sound, h.mirrored, h.index, h.cache, h.pending, h.streams, fun stream v hv hnot ↦ ?_⟩
  by_cases hold : P stream v
  · obtain ⟨hw, hp⟩ := (hP stream v hv hold).resolve_left hnot
    simp [hw, hp]
  · exact h.fan stream v hv hold

end Accounted

end

theorem absent_of_done (hw : s.writers stream = none) (hp : s.pendingIndex stream = []) : s.Absent v stream := by
  simp [Absent, hw, hp]

/-- A hash that the index names on another online device has a source. -/
theorem Accounted.source_ne_none (h : s.Accounted params P) (hv : v ∈ s.online)
    (hne : v ≠ target) (hnamed : (s.index.entries.lookup (hash, .vdev v)).isSome) : s.source target hash ≠ none := by
  obtain ⟨loc, hlookup⟩ := isSome_iff_exists.1 hnamed
  obtain ⟨_, hseg, hget⟩ := recordAt_vdev.1 (h.index hash v loc hlookup).1
  intro hnone
  have hall := findSome?_eq_none_iff.1 hnone v (mem_filter.2 ⟨hv, by simpa using hne⟩)
  simp [hlookup, hseg, hget] at hall

theorem indexed_of_source {kind : StreamKind} (h : s.source target hash = some kind) : s.indexed hash = true := by
  obtain ⟨v, -, hsource⟩ := exists_of_findSome?_eq_some h
  obtain ⟨loc, hlookup, -⟩ := bind_eq_some_iff.1 hsource
  exact has_iff.2 ⟨.vdev v, loc, hlookup⟩

end State

namespace Replicas

variable [DecidableEq Hash] {params : Params} {r t : Replicas Hash}
variable {j : Join Hash} {failed : List VdevId} {ok : Bool} {pool : State Hash}

/-- The streams a join still has to roll since its device came online. -/
def Unrolled (r : Replicas Hash) (stream : Stream) (v : VdevId) : Prop :=
  ∃ j todo, r.join = some j ∧ j.phase = .rollAfter todo ∧ v = j.target ∧ stream ∈ todo

/-- The pool is accounted for; a device that is not back yet has no copy of what is rolled; and
the walk of a resilver leaves nothing behind that its device does not hold. -/
structure Trusted (params : Params) (r : Replicas Hash) : Prop where
  pool : r.pool.Accounted params r.Unrolled
  before : ∀ j todo, r.join = some j → j.phase = .rollBefore todo → j.target ∉ r.pool.online ∧
    ∀ stream, stream ∉ todo → r.pool.Absent j.target stream
  walk : ∀ j todo, r.join = some j → j.phase = .walk todo → j.target ∈ r.pool.online →
    ∀ hash, r.pool.indexed hash = true → hash ∈ todo ∨ r.pool.Held j.target hash

theorem Trusted.pass (h : r.Trusted params)
    (hpool : pool.Accounted params r.Unrolled ∧ Passes r.Unrolled r.pool pool)
    (hjoin : t.join = r.join) (ht : t.pool = pool) : t.Trusted params := by
  subst ht
  obtain ⟨haccounted, hpass⟩ := hpool
  have hunrolled : t.Unrolled = r.Unrolled := by
    funext stream v
    simp only [Unrolled, hjoin]
  refine ⟨hunrolled ▸ haccounted, fun j todo hj hphase ↦ ?_, fun j todo hj hphase htarget hash hindexed ↦ ?_⟩
  · obtain ⟨hoffline, habsent⟩ := h.before j todo (hjoin ▸ hj) hphase
    exact ⟨fun hmem ↦ hoffline (hpass.online _ hmem), fun stream hstream ↦
      hpass.absent _ hoffline stream (habsent stream hstream)⟩
  · rcases hpass.news hash hindexed with hold | hnew
    · exact (h.walk j todo (hjoin ▸ hj) hphase (hpass.online _ htarget) hash hold).imp_right hpass.held
    · exact .inr (hnew j.target htarget fun _ ↦ by simp [Unrolled, ← hjoin, hj, hphase])

theorem Trusted.complete (h : r.Trusted params) (hj : ∀ j, r.join = some j → ∀ todo, j.phase ≠ .rollAfter todo) :
    r.pool.Accounted params fun _ _ ↦ False := by
  refine h.pool.mono ?_
  rintro _ v - ⟨j, todo, hjoin, hphase, -, -⟩
  exact absurd hphase (hj j hjoin todo)

theorem Trusted.fail (h : r.Trusted params) (hj : r.join = some j) : (r.fail j).Trusted params := by
  obtain ⟨hfault, _⟩ := h.pool.fault [j.target]
  unfold Replicas.fail
  split
  next hphase =>
    exact ⟨(h.complete (by simp [hj, hphase])).mono (by simp), by simp [setJoin], by simp [setJoin]⟩
  next =>
    refine ⟨hfault.mono ?_, by simp [setJoin], by simp [setJoin]⟩
    rintro _ v hv ⟨_, _, hj', -, rfl, -⟩
    cases hj.symm.trans hj'
    simp [fault] at hv

/-- Goes on to a phase after the rolls, with the fan-out complete. -/
theorem Trusted.proceed (h : r.pool.Accounted params fun _ _ ↦ False) (j : Join Hash) {phase : JoinPhase Hash}
    (hbefore : ∀ todo, phase ≠ .rollBefore todo)
    (hwalk : ∀ todo, phase = .walk todo → j.target ∈ r.pool.online →
      ∀ hash, r.pool.indexed hash = true → hash ∈ todo ∨ r.pool.Held j.target hash) :
    (r.setJoin (some { j with phase := phase })).Trusted params := by
  refine ⟨h.mono (by simp), ?_, ?_⟩
  · rintro _ todo ⟨⟩ hphase
    exact absurd hphase (hbefore todo)
  · rintro _ todo ⟨⟩ hphase
    exact hwalk todo hphase

/-- The stream whose writer a join rolls next. -/
def rollsStream (r : Replicas Hash) : Option Stream :=
  r.join.bind fun j ↦
    match j.phase with
    | .rollBefore (stream :: _) | .rollAfter (stream :: _) => some stream
    | _ => none

/-- A device that fails a writer has synced what it has of the segment, and what a resilver looks
for is named on its device or on another one that is online. -/
def KeepsReplicas (r : Replicas Hash) : ReplicaAction Hash → Prop
  | .write (.append shard _ failed _) => r.pool.DropsSynced (.shard shard) failed
  | .write (.fsync stream failed _) => r.pool.DropsSynced stream failed
  | .write (.closeSegment stream failed _) => r.pool.DropsSynced stream failed
  | .write (.putMeta _ _ failed _) => r.pool.DropsSynced .metadata failed
  | .joinStep failed _ => ∀ stream ∈ r.rollsStream, r.pool.DropsSynced stream failed
  | .visit hash _ => ∀ j ∈ r.join, (r.pool.index.entries.lookup (hash, .vdev j.target)).isSome ∨
      ∃ v ∈ r.pool.online, v ≠ j.target ∧ (r.pool.index.entries.lookup (hash, .vdev v)).isSome
  | _ => True

instance (r : Replicas Hash) (a : ReplicaAction Hash) : Decidable (KeepsReplicas r a) := by
  induction a using ReplicaAction.casesOn
  case write a => induction a using Action.casesOn <;> unfold KeepsReplicas <;> infer_instance
  all_goals unfold KeepsReplicas; infer_instance

theorem Trusted.write (h : r.Trusted params) {a : Action Hash} (hkeeps : KeepsReplicas r (.write a))
    (hstep : r.write params a = some t) : t.Trusted params := by
  obtain ⟨hwrite, hstep⟩ := ite_none_right_eq_some.1 hstep
  obtain ⟨_, hpool, rfl⟩ := map_eq_some_iff.1 hstep
  refine h.pass ?_ rfl rfl
  cases a with
  | openSegment =>
    obtain ⟨hstream, hopen⟩ := ite_none_right_eq_some.1 hpool
    exact h.pool.openSegment (mem_streams.2 hstream) hopen
  | append => exact h.pool.moves (moves_append (fun _ ↦ hkeeps) hpool)
  | dedupHit hash =>
    obtain ⟨-, ⟨⟩⟩ := ite_none_right_eq_some.1 hpool
    exact h.pool.acknowledge hash
  | flush shard ok =>
    cases hpool
    exact h.pool.flush (.shard shard) ok
  | fsync _ _ ok =>
    cases hpool
    exact h.pool.moves (moves_fsync ok hkeeps)
  | closeSegment _ _ ok =>
    cases hpool
    exact h.pool.closeSegment ok hkeeps
  | putMeta => exact h.pool.moves (moves_putMeta hkeeps hpool)
  | fault v =>
    cases hpool
    exact h.pool.fault [v]
  | _ => simp [Action.isWrite] at hwrite

theorem Trusted.lose (h : r.Trusted params) {v : VdevId} (hopen : r.isOpen params v id = false) :
    (r.setPool (r.pool.lose v id)).Trusted params := by
  refine h.pass (h.pool.lose fun stream w hw ↦ ?_) rfl rfl
  rintro ⟨rfl, hv⟩
  have htrue : r.isOpen params v w.segmentId = true :=
    any_eq_true.2 ⟨stream, stream_mem_of_writers h.pool hw, by simp [hw, hv]⟩
  rw [hopen] at htrue
  cases htrue

section

variable (h : r.Trusted params) (hj : r.join = some j) {stream : Stream} {todo : List Stream}
  {hash : Hash}

include h hj

theorem Trusted.rollBefore (hphase : j.phase = .rollBefore (stream :: todo))
    (hdrop : r.pool.DropsSynced stream failed) :
    ((r.setPool (r.pool.closeSegment stream failed ok)).next (r.pool.closeSucceeds stream failed ok) j
      (.rollBefore todo)).Trusted params := by
  have hclose : (r.setPool (r.pool.closeSegment stream failed ok)).Trusted params :=
    h.pass (h.pool.closeSegment ok hdrop) rfl rfl
  unfold Replicas.next
  split_ifs with hok
  · obtain ⟨hoffline, habsent⟩ := hclose.before j _ hj hphase
    refine ⟨(hclose.complete (by simp [setPool, hj, hphase])).mono (by simp), ?_, ?_⟩
    · rintro _ _ ⟨⟩ ⟨⟩
      refine ⟨hoffline, fun stream' hstream' ↦ ?_⟩
      by_cases heq : stream' = stream
      · obtain ⟨hw, hp⟩ := closeSegment_done hok
        subst heq
        exact absent_of_done hw hp
      · exact habsent stream' fun hmem ↦ (mem_cons.1 hmem).elim heq hstream'
    · rintro _ _ ⟨⟩ ⟨⟩
  · exact hclose.fail hj

theorem Trusted.rollAfter (hphase : j.phase = .rollAfter (stream :: todo))
    (hdrop : r.pool.DropsSynced stream failed) :
    ((r.setPool (r.pool.closeSegment stream failed ok)).next (r.pool.closeSucceeds stream failed ok) j
      (.rollAfter todo)).Trusted params := by
  have hclose : (r.setPool (r.pool.closeSegment stream failed ok)).Trusted params :=
    h.pass (h.pool.closeSegment ok hdrop) rfl rfl
  unfold Replicas.next
  split_ifs with hok
  · refine ⟨hclose.pool.mono ?_, ?_, ?_⟩
    · rintro _ v - ⟨_, todo', hj', hphase', rfl, hmem⟩
      cases hj.symm.trans hj'
      obtain rfl : stream :: todo = todo' := by simpa [hphase] using hphase'
      rcases mem_cons.1 hmem with rfl | hmem
      · exact .inr (closeSegment_done hok)
      · exact .inl ⟨_, todo, rfl, rfl, rfl, hmem⟩
    · rintro _ _ ⟨⟩ ⟨⟩
    · rintro _ _ ⟨⟩ ⟨⟩
  · exact hclose.fail hj

theorem Trusted.attach (hphase : j.phase = .rollBefore []) :
    ((r.setPool ((r.pool.sealOrphans j.target).attach j.target)).next true j
      (.rollAfter params.streams)).Trusted params := by
  obtain ⟨-, habsent⟩ := h.before j [] hj hphase
  have hcomplete := h.complete (by simp [hj, hphase])
  refine ⟨hcomplete.attach (fun stream ↦ habsent stream not_mem_nil) fun _ v hnot ↦ ⟨not_false, ?_⟩, ?_, ?_⟩
  · rintro rfl hstream
    exact hnot ⟨_, params.streams, rfl, rfl, rfl, hstream⟩
  · rintro _ _ ⟨⟩ ⟨⟩
  · rintro _ _ ⟨⟩ ⟨⟩

theorem Trusted.joinStep
    (hkeeps : KeepsReplicas r (.joinStep failed ok)) (hstep : r.joinStep params failed ok j = some t) :
    t.Trusted params := by
  unfold Replicas.joinStep at hstep
  split at hstep
  next stream todo hphase =>
    cases hstep
    exact h.rollBefore hj hphase (hkeeps stream (by simp [rollsStream, hj, hphase]))
  next hphase =>
    split_ifs at hstep
    · cases hstep
      exact h.attach hj hphase
    · cases hstep
      exact h.fail hj
  next stream todo hphase =>
    cases hstep
    exact h.rollAfter hj hphase (hkeeps stream (by simp [rollsStream, hj, hphase]))
  next hphase =>
    cases hstep
    unfold Replicas.next
    split_ifs
    · -- Every stream is rolled.
      refine Trusted.proceed (h.pool.mono ?_) j (by simp) (by simp)
      rintro _ v - ⟨_, _, hj', hphase', -, hmem⟩
      cases hj.symm.trans hj'
      cases hphase.symm.trans hphase'
      cases hmem
    · exact h.fail hj
  next shard todo hphase =>
    cases hstep
    have hflush : (r.setPool (r.pool.flush (.shard shard) ok)).Trusted params :=
      h.pass (h.pool.flush (.shard shard) ok) rfl rfl
    unfold Replicas.next
    split_ifs
    · refine Trusted.proceed ?_ j (by simp) (by simp)
      exact ((h.complete (by simp [hj, hphase])).flush (.shard shard) ok).1
    · exact hflush.fail hj
  next hphase =>
    cases hstep
    refine Trusted.proceed (h.complete (by simp [hj, hphase])) j (by simp) ?_
    rintro _ ⟨⟩ - hash hindexed
    obtain ⟨tag, loc, hlookup⟩ := has_iff.1 hindexed
    refine .inl (mem_dedup.2 (mem_map.2 ⟨((hash, tag), loc), Table.mem_toList.2 hlookup, rfl⟩))
  · cases hstep

/-- A visit takes a hash off the list once the device holds it. -/
theorem Trusted.visited {todo : List Hash} (hphase : j.phase = .walk todo)
    (hpool : pool.Accounted params r.Unrolled ∧ Passes r.Unrolled r.pool pool)
    (hheld : pool.Held j.target hash) :
    ((r.setPool pool).next true j (.walk (todo.erase hash))).Trusted params := by
  have hpass : (r.setPool pool).Trusted params := h.pass hpool rfl rfl
  refine Trusted.proceed (hpass.complete (by simp [setPool, hj, hphase])) j (by simp) ?_
  rintro _ ⟨⟩ htarget hash' hindexed
  by_cases heq : hash' = hash
  · exact .inr (heq ▸ hheld)
  · exact (hpass.walk j todo hj hphase htarget hash' hindexed).imp_left (mem_erase_of_ne heq).2

theorem Trusted.visit (hkeeps : KeepsReplicas r (.visit hash ok))
    (hstep : r.visit hash ok j = some t) : t.Trusted params := by
  have hsame : r.pool.Accounted params r.Unrolled ∧ Passes r.Unrolled r.pool r.pool :=
    ⟨h.pool, .refl r.pool⟩
  have hnamed : (r.pool.index.entries.lookup (hash, .vdev j.target)).isSome → r.pool.Held j.target hash := by
    intro hsome
    obtain ⟨loc, hlookup⟩ := isSome_iff_exists.1 hsome
    exact ⟨loc, h.pool.index hash j.target loc hlookup⟩
  obtain ⟨_, hphase, ⟨hfound, rfl⟩ | ⟨hnone, rfl⟩ | ⟨kind, hsource, honline, rfl⟩ | rfl⟩ := visit_eq_some hstep
  · refine h.visited hj hphase hsame (hnamed (hfound.resolve_right ?_))
    simp [h.pool.mirrored hash]
  · refine h.visited hj hphase hsame (hnamed ((hkeeps j hj).resolve_right ?_))
    rintro ⟨v, hv, hne, hsome⟩
    exact h.pool.source_ne_none hv hne hsome hnone
  · obtain ⟨hheal, hpass, hheld⟩ := h.pool.healOnto honline kind (indexed_of_source hsource)
    exact h.visited hj hphase ⟨hheal, hpass⟩ hheld
  · exact h.fail hj

end

theorem Trusted.step (h : r.Trusted params) {a : ReplicaAction Hash} (hkeeps : KeepsReplicas r a)
    (hstep : r.step params a = some t) : t.Trusted params := by
  cases a with
  | write => exact h.write hkeeps hstep
  | lose =>
    obtain ⟨hopen, ⟨⟩⟩ := ite_none_left_eq_some.1 hstep
    exact h.lose (Bool.not_eq_true _ ▸ hopen)
  | beginJoin =>
    obtain ⟨hguard, ⟨⟩⟩ := ite_none_right_eq_some.1 hstep
    have hnone : r.join = none := isNone_iff_eq_none.1 hguard.1
    refine ⟨(h.complete (by simp [hnone])).mono (by simp), ?_, ?_⟩
    · rintro j _ ⟨⟩ ⟨⟩
      refine ⟨hguard.2, fun stream hstream ↦ ?_⟩
      obtain ⟨hw, hp⟩ := h.pool.streams stream hstream
      exact absent_of_done hw hp
    · rintro j _ ⟨⟩ ⟨⟩
  | beginResilver v =>
    obtain ⟨hguard, ⟨⟩⟩ := ite_none_right_eq_some.1 hstep
    have hnone : r.join = none := isNone_iff_eq_none.1 hguard.1
    exact Trusted.proceed (h.complete (by simp [hnone])) ⟨v, .flush params.shards⟩ (by simp) (by simp)
  | joinStep =>
    obtain ⟨j, hj, hstep⟩ := bind_eq_some_iff.1 hstep
    exact h.joinStep hj hkeeps hstep
  | visit =>
    obtain ⟨j, hj, hstep⟩ := bind_eq_some_iff.1 hstep
    exact h.visit hj hkeeps hstep
  | failJoin =>
    obtain ⟨j, hj, rfl⟩ := map_eq_some_iff.1 hstep
    exact h.fail hj
  | finishJoin =>
    obtain ⟨j, hj, hstep⟩ := bind_eq_some_iff.1 hstep
    split at hstep
    next hphase =>
      cases hstep
      exact ⟨(h.complete (by simp [hj, hphase])).mono (by simp), by simp [setJoin], by simp [setJoin]⟩
    · cases hstep

theorem Created.trusted (h : r.Created) : r.Trusted params := by
  obtain ⟨hpool, -, hjoin⟩ := h
  have hsound := hpool.soundTask.sound
  obtain ⟨-, -, -, hindex, -, hwriters, hpending, hcache, -⟩ := hpool
  refine ⟨⟨hsound, ?_, ?_, ?_, ?_, ?_, ?_⟩, by simp [hjoin], by simp [hjoin]⟩
  · simp [hindex]
  · simp [hindex]
  · simp [hcache]
  · simp [hpending]
  · simp [hwriters, hpending]
  · simp [hwriters, hpending]

theorem trusted_of_reachable (h : (replicating Hash params).ReachableUnder KeepsReplicas r) : r.Trusted params :=
  h.invariant (fun _ ↦ Created.trusted) fun _ _ _ _ hinv hkeeps hstep ↦ hinv.step hkeeps hstep

/-- The index names a device for a hash only if the device has the record durably, or in a copy
that the next barrier of its writer syncs; and once a resilver of an online device is through,
the device holds every hash the index has. -/
theorem index_accounts_for_devices (h : (replicating Hash params).ReachableUnder KeepsReplicas r) :
    (∀ hash v loc, r.pool.index.entries.lookup (hash, .vdev v) = some loc → r.pool.Secure v loc hash) ∧
      ∀ j t, r.join = some j → j.target ∈ r.pool.online → r.step params .finishJoin = some t →
        ∀ hash, t.pool.indexed hash = true → t.pool.Held j.target hash := by
  have htrusted := trusted_of_reachable h
  refine ⟨htrusted.pool.index, fun j t hj htarget hstep hash hindexed ↦ ?_⟩
  obtain ⟨_, hj', hfinish⟩ := bind_eq_some_iff.1 hstep
  cases hj.symm.trans hj'
  split at hfinish
  next hphase =>
    cases hfinish
    exact (htrusted.walk j [] hj hphase htarget hash hindexed).resolve_left not_mem_nil
  · cases hfinish

/-- Device 1 is joined again, and a resilver visits these hashes. -/
def joinRun (hashes : List Nat) : List (ReplicaAction Nat) :=
  .beginJoin 1 :: List.replicate 8 (.joinStep [] true) ++ hashes.map (.visit · true)

/-- Device 1 fails an append after a barrier, is joined again and gets the record it missed. -/
theorem index_accounts_for_devices_joinRun :
    ∃ r t, (replicating Nat State.twoDevices).ReachableUnder KeepsReplicas r ∧
      r.step State.twoDevices .finishJoin = some t ∧
      r.pool.index.entries.lookup (7, .vdev 1) = some ⟨0, 0⟩ ∧ r.pool.Secure 1 ⟨0, 0⟩ 7 ∧ t.pool.Held 1 8 := by
  obtain ⟨r, t, hr, hstep, hlookup, ⟨j, hj, htarget⟩, honline, hindexed⟩ : ∃ r t,
      (replicating Nat State.twoDevices).ReachableUnder KeepsReplicas r ∧
      r.step State.twoDevices .finishJoin = some t ∧ r.pool.index.entries.lookup (7, .vdev 1) = some ⟨0, 0⟩ ∧
      (∃ j ∈ r.join, j.target = 1) ∧ 1 ∈ r.pool.online ∧ t.pool.indexed 8 = true :=
    Machine.exists_step_of_run createdReplicas_created ([.write (.openSegment (.shard 0) []),
      .write (.append 0 7 [] true), .write (.fsync (.shard 0) [] true), .write (.append 0 8 [1] true)] ++
      joinRun [7, 8]) (by decide +kernel)
  have haccounts := index_accounts_for_devices hr
  have hheld := haccounts.2 j t hj (htarget ▸ honline) hstep 8 hindexed
  exact ⟨r, t, hr, hstep, hlookup, haccounts.1 7 1 ⟨0, 0⟩ hlookup, htarget ▸ hheld⟩

/-- Device 1 fails the first barrier and loses the record. The batch still names it, the index
takes the batch, and the resilver that brings the device back passes the record over. -/
theorem resilver_skips_lost_record :
    ∃ r t : Replicas Nat, (replicating Nat State.twoDevices).Reachable r ∧
      r.step State.twoDevices .finishJoin = some t ∧ 1 ∈ t.pool.online ∧
      t.pool.index.entries.lookup (7, .vdev 1) = some ⟨0, 0⟩ ∧ t.pool.recordAt (.vdev 1) ⟨0, 0⟩ = none ∧
      ∀ id < t.pool.nextSegmentId, ∀ seg ∈ t.pool.segments 1 id, 7 ∉ seg.records := by
  exact Machine.exists_step_of_run createdReplicas_created ([.write (.openSegment (.shard 0) []),
    .write (.append 0 7 [] true), .write (.fsync (.shard 0) [1] true), .lose 1 0] ++ joinRun [7]) (by decide +kernel)

end Replicas

end Lchfs.Index
