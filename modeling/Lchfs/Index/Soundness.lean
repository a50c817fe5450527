import Lchfs.Index.WriterSteps

/-!
# Known locations are sound

Every location in the index, in the cache and in a batch names a record with its hash, and
every location in the index file names one that a crash leaves. The steps of writers and
checkpoints keep this by themselves, once an index is only committed when all it names is
durable.
-/

set_option linter.unusedSectionVars false

namespace Lchfs.Index

open Lchfs.Format (ShardId SegmentId)
open Lchfs.Library
open List Option State Segment Entries

variable {Hash : Type} [DecidableEq Hash]

namespace State

variable {s t u : State Hash} {params : Params}
variable {hash : Hash} {tag : Tag} {loc : Location} {stream : Stream} {v : VdevId} {seg : Segment Hash}
  {failed vdevs : List VdevId} {entries : List ((Hash × Tag) × Location)}
  {pending : List (IndexEntry Hash)} {entry : (Hash × Tag) × Location} {kind : StreamKind}

/-- The copies of a segment that a stream has open, or left open, are unsealed and its own. -/
def OpenFor (s : State Hash) (stream : Stream) (id : SegmentId) : Prop :=
  id < s.nextSegmentId ∧
    ∀ v seg, s.segments v id = some seg → seg.isSealed = false ∧ seg.owner = stream

structure Sound (s : State Hash) : Prop where
  fresh : ∀ id, s.nextSegmentId ≤ id → (∀ v, s.segments v id = none) ∧ s.stripes id = none
  index : ∀ hash tag loc, s.index.entries.lookup (hash, tag) = some loc → s.recordAt tag loc = some hash
  cache : ∀ hash loc tag, s.cache hash = some (loc, tag) → s.recordAt tag loc = some hash
  file : ∀ file, s.indexFiles s.indexHome = some file →
    ∀ hash tag loc, file.entries.lookup (hash, tag) = some loc → s.durableAt tag loc = some hash
  pending : ∀ stream, ∀ e ∈ s.pendingIndex stream, ∀ v ∈ e.vdevs,
    s.recordAt (.vdev v) e.location = some e.hash
  batch : ∀ stream, ∀ e ∈ s.pendingIndex stream, s.OpenFor stream e.location.segmentId
  writer : ∀ stream w, s.writers stream = some w → s.OpenFor stream w.segmentId
  cursor : ∀ stream w, s.writers stream = some w → ∀ v ∈ w.vdevs,
    ∃ seg, s.segments v w.segmentId = some seg ∧ seg.records.length = w.cursor

/-- Everything the index names is durable. -/
def IndexDurable (s : State Hash) : Prop :=
  ∀ entry ∈ s.index.entries.toList, s.durableAt entry.1.2 entry.2 = some entry.1.1

instance : Decidable s.IndexDurable :=
  inferInstanceAs (Decidable (∀ entry ∈ _, _))

theorem IndexDurable.lookup (h : s.IndexDurable)
    (hlookup : s.index.entries.lookup (hash, tag) = some loc) : s.durableAt tag loc = some hash :=
  h _ (Table.mem_toList.2 hlookup)

/-- A segment with unsealed copies of its own is not settled on a device that has it. -/
theorem OpenFor.not_settled {id : SegmentId} (h : s.OpenFor stream id)
    (hseg : s.segments v id = some seg) : ¬s.Settled (.vdev v) id := by
  intro hs
  have hsealed := hs.2 v rfl seg hseg
  simp [(h.2 v seg hseg).1] at hsealed

theorem not_settled_next (tag : Tag) : ¬s.Settled tag s.nextSegmentId :=
  fun hs ↦ Nat.lt_irrefl _ hs.1

/-! ## Single changes -/

theorem frame_putIndex (hentries : ∀ entry ∈ entries, ¬s.Settled entry.1.2 entry.2.segmentId) :
    Frame s (s.putIndex entries) :=
  { Frame.refl s with
    index := fun _ _ h ↦ (lookup_putAll h).symm.imp And.left (hentries _) }

theorem Sound.putIndex (h : s.Sound)
    (hentries : ∀ entry ∈ entries, s.recordAt entry.1.2 entry.2 = some entry.1.1) :
    (s.putIndex entries).Sound :=
  { h with
    index := fun hash tag loc hlookup ↦
      (lookup_putAll hlookup).elim (hentries _) fun hold ↦ h.index hash tag loc hold.1 }

theorem Sound.eraseIndex (h : s.Sound) (id : SegmentId) (keys : List (Hash × Tag)) :
    (s.eraseIndex id keys).Sound :=
  { h with index := fun hash tag loc hlookup ↦ h.index hash tag loc (lookup_eraseIn hlookup).1 }

theorem frame_commitIndex : Frame s s.commitIndex :=
  { Frame.refl s with
    file := fun file' hfile' _ _ hlookup ↦ by
      obtain rfl : s.index = file' := by simpa [commitIndex] using hfile'
      exact .inr (.inl hlookup) }

theorem Sound.commitIndex (h : s.Sound)
    (hdurable : ∀ hash tag loc, s.index.entries.lookup (hash, tag) = some loc →
      s.durableAt tag loc = some hash) : s.commitIndex.Sound :=
  { h with
    file := fun file hfile ↦ by
      obtain rfl : s.index = file := by simpa [State.commitIndex] using hfile
      exact hdurable }

theorem frame_putCache (hash : Hash) (hloc : ¬s.Settled tag loc.segmentId) : Frame s (s.putCache hash loc tag) :=
  { Frame.refl s with
    cache := fun h _ _ hget ↦ by
      rcases ite_eq_iff.1 hget with ⟨-, ⟨⟩⟩ | ⟨-, hget⟩
      · exact .inr hloc
      · exact .inl hget }

theorem Sound.putCache (h : s.Sound)
    (hrecord : s.recordAt tag loc = some hash) : (s.putCache hash loc tag).Sound :=
  { h with
    cache := fun hash' loc' tag' hget ↦ by
      rcases ite_eq_iff.1 hget with ⟨rfl, ⟨⟩⟩ | ⟨-, hget⟩
      · exact hrecord
      · exact h.cache hash' loc' tag' hget }

theorem Sound.putCacheAll (h : s.Sound) {records : List (Hash × Location)}
    (hrecords : ∀ record ∈ records, s.recordAt tag record.2 = some record.1) : (s.putCacheAll tag records).Sound := by
  induction records generalizing s with
  | nil => exact h
  | cons _ _ ih =>
    rw [forall_mem_cons] at hrecords
    exact ih (h.putCache hrecords.1) hrecords.2

/-! ## Segments -/

theorem frame_createSegment (h : s.Sound) (vdevs : List VdevId) (seg : Segment Hash) :
    Frame s (s.createSegment vdevs seg) :=
  { Frame.refl s with
    segments := fun v id old hold ↦ by
      refine ⟨old, ?_, .refl old⟩
      simp only [createSegment]
      rw [if_neg, hold]
      rintro ⟨rfl, -⟩
      simp [(h.fresh _ (Nat.le_refl _)).1] at hold
    next := Nat.le_succ _
    same := fun v _ hs ↦ by
      simp only [createSegment]
      rw [if_neg]
      rintro ⟨rfl, -⟩
      exact not_settled_next _ hs }

theorem OpenFor.createSegment {id : SegmentId} (h : s.OpenFor stream id)
    (vdevs : List VdevId) (seg : Segment Hash) : (s.createSegment vdevs seg).OpenFor stream id := by
  refine ⟨Nat.lt_succ_of_lt h.1, fun v seg' hseg' ↦ h.2 v seg' ?_⟩
  simpa [State.createSegment, Nat.ne_of_lt h.1] using hseg'

theorem Sound.createSegment (h : s.Sound) (vdevs : List VdevId) (seg : Segment Hash) :
    (s.createSegment vdevs seg).Sound := by
  have hframe := frame_createSegment h vdevs seg
  refine ⟨fun id hid ↦ ?_, fun hash tag loc hlookup ↦ hframe.recordAt (h.index hash tag loc hlookup),
    fun hash loc tag hget ↦ hframe.recordAt (h.cache hash loc tag hget),
    fun file hfile hash tag loc hlookup ↦ hframe.durableAt (h.file file hfile hash tag loc hlookup),
    fun stream e he v hv ↦ hframe.recordAt (h.pending stream e he v hv),
    fun stream e he ↦ (h.batch stream e he).createSegment vdevs seg,
    fun stream w hw ↦ (h.writer stream w hw).createSegment vdevs seg, fun stream w hw v hv ↦ ?_⟩
  · have hold := h.fresh id (Nat.le_of_succ_le hid)
    refine ⟨fun v ↦ ?_, hold.2⟩
    simp only [State.createSegment]
    rw [if_neg, hold.1]
    rintro ⟨rfl, -⟩
    exact Nat.not_succ_le_self _ hid
  · obtain ⟨old, hold, hlen⟩ := h.cursor stream w hw v hv
    refine ⟨old, ?_, hlen⟩
    simpa [State.createSegment, Nat.ne_of_lt (h.writer stream w hw).1] using hold

theorem recordAt_createSegment (hv : v ∈ vdevs) (hloc : loc.segmentId = s.nextSegmentId) :
    (s.createSegment vdevs seg).recordAt (.vdev v) loc = seg.records[loc.offset]? := by
  simp [recordAt, createSegment, hloc, hv]

theorem durableAt_createSegment (hv : v ∈ vdevs) (hloc : loc.segmentId = s.nextSegmentId) :
    (s.createSegment vdevs seg).durableAt (.vdev v) loc = (seg.records.take seg.durable)[loc.offset]? := by
  simp [durableAt, createSegment, hloc, hv]

section Update

variable {stream : Stream} {w : Writer} {vdevs : List VdevId} {f : Segment Hash → Segment Hash}
variable {id : SegmentId} {stream' : Stream}

/-- A change of the copies of an open segment in which records only come at the end. -/
theorem frame_updateSegment (vdevs : List VdevId) (hopen : s.OpenFor stream w.segmentId)
    (hf : ∀ seg : Segment Hash, seg.Extends (f seg)) :
    Frame s (s.updateSegment vdevs w.segmentId f) :=
  { Frame.refl s with
    segments := fun v id seg hseg ↦ by
      simp only [updateSegment, hseg]
      split_ifs
      · exact ⟨f seg, rfl, hf seg⟩
      · exact ⟨seg, rfl, .refl seg⟩
    same := fun v id hs ↦ by
      simp only [updateSegment]
      split_ifs with heq
      · cases hseg : s.segments v id with
        | none => rfl
        | some => exact absurd hs (heq.1 ▸ hopen.not_settled (heq.1 ▸ hseg))
      · rfl }

theorem OpenFor.updateSegment (h : s.OpenFor stream' id)
    (hf : ∀ v ∈ vdevs, ∀ seg, s.segments v w.segmentId = some seg → id = w.segmentId →
      (f seg).isSealed = false ∧ (f seg).owner = seg.owner) :
    (s.updateSegment vdevs w.segmentId f).OpenFor stream' id := by
  refine ⟨h.1, fun v seg hseg ↦ ?_⟩
  rcases segments_updateSegment hseg with ⟨hold, -⟩ | ⟨rfl, hv, old, hold, rfl⟩
  · exact h.2 v seg hold
  · obtain ⟨hsealed, howner⟩ := hf v hv old hold rfl
    exact ⟨hsealed, howner.trans (h.2 v old hold).2⟩

/-- What stays sound when the writer of a stream and its segment's copies change together. -/
theorem Sound.updateWriter (h : s.Sound) (hw : s.writers stream = some w) {w' : Option Writer}
    (hf : ∀ seg : Segment Hash, seg.Extends (f seg) ∧ (f seg).owner = seg.owner)
    (hbatch : ∀ stream', ∀ e ∈ s.pendingIndex stream',
      (s.updateSegment vdevs w.segmentId f).OpenFor stream' e.location.segmentId)
    (hother : ∀ stream' w₀, stream' ≠ stream → s.writers stream' = some w₀ →
      (s.updateSegment vdevs w.segmentId f).OpenFor stream' w₀.segmentId)
    (hwriter : ∀ w₀, w' = some w₀ → (s.updateSegment vdevs w.segmentId f).OpenFor stream w₀.segmentId ∧
      ∀ v ∈ w₀.vdevs, ∃ seg, (s.updateSegment vdevs w.segmentId f).segments v w₀.segmentId = some seg ∧
        seg.records.length = w₀.cursor) :
    ((s.updateSegment vdevs w.segmentId f).setWriter stream w').Sound := by
  have hframe := frame_updateSegment vdevs (h.writer stream w hw) fun seg ↦ (hf seg).1
  refine ⟨fun id hid ↦ ?_, fun hash tag loc hlookup ↦ hframe.recordAt (h.index hash tag loc hlookup),
    fun hash loc tag hget ↦ hframe.recordAt (h.cache hash loc tag hget),
    fun file hfile hash tag loc hlookup ↦ hframe.durableAt (h.file file hfile hash tag loc hlookup),
    fun stream' e he v hv ↦ hframe.recordAt (h.pending stream' e he v hv), hbatch,
    fun stream' w₀ hw₀ ↦ ?_, fun stream' w₀ hw₀ ↦ ?_⟩
  · have hold := h.fresh id hid
    refine ⟨fun v ↦ ?_, hold.2⟩
    simp [setWriter, updateSegment, hold.1]
  · rcases ite_eq_iff.1 hw₀ with ⟨rfl, hnew⟩ | ⟨hne, hw₀⟩
    · exact (hwriter w₀ hnew).1
    · exact hother stream' w₀ hne hw₀
  · rcases ite_eq_iff.1 hw₀ with ⟨-, hw₀⟩ | ⟨hne, hw₀⟩
    · exact (hwriter w₀ hw₀).2
    · intro v hv
      obtain ⟨seg, hseg, hlen⟩ := h.cursor stream' w₀ hw₀ v hv
      -- The other writer's segment has another owner, so it is not the one that changes.
      refine ⟨seg, ?_, hlen⟩
      simp only [setWriter, updateSegment]
      rw [if_neg, hseg]
      rintro ⟨hid, -⟩
      have howner := ((h.writer stream' w₀ hw₀).2 v seg hseg).2
      exact hne (howner.symm.trans ((h.writer stream w hw).2 v seg (hid ▸ hseg)).2)

theorem OpenFor.of_unsealed (h : s.OpenFor stream' id)
    (hf : ∀ seg : Segment Hash, (f seg).isSealed = seg.isSealed ∧ (f seg).owner = seg.owner) :
    (s.updateSegment vdevs w.segmentId f).OpenFor stream' id :=
  h.updateSegment fun v _ seg hseg hid ↦
    ⟨(hf seg).1.trans (h.2 v seg (hid ▸ hseg)).1, (hf seg).2⟩

/-- The copies of the devices that stay in the fan-out change and none is sealed. -/
theorem Sound.updateOpen (h : s.Sound) (hw : s.writers stream = some w) (vdevs : List VdevId) (cursor : Nat)
    (hvdevs : ∀ v ∈ vdevs, v ∈ w.vdevs)
    (hf : ∀ seg : Segment Hash, seg.Extends (f seg) ∧ (f seg).isSealed = seg.isSealed ∧
      (f seg).owner = seg.owner)
    (hlen : ∀ seg : Segment Hash, seg.records.length = w.cursor → (f seg).records.length = cursor) :
    ((s.updateSegment vdevs w.segmentId f).setWriter stream (some ⟨w.segmentId, vdevs, cursor⟩)).Sound := by
  have hopen : ∀ {stream' id}, s.OpenFor stream' id →
      (s.updateSegment vdevs w.segmentId f).OpenFor stream' id :=
    fun h ↦ h.of_unsealed fun seg ↦ (hf seg).2
  refine h.updateWriter hw (fun seg ↦ ⟨(hf seg).1, (hf seg).2.2⟩) (fun stream' e he ↦ hopen (h.batch stream' e he))
    (fun stream' w₀ _ hw₀ ↦ hopen (h.writer stream' w₀ hw₀)) ?_
  rintro _ ⟨⟩
  refine ⟨hopen (h.writer stream w hw), fun v hv ↦ ?_⟩
  obtain ⟨seg, hseg, hcursor⟩ := h.cursor stream w hw v (hvdevs v hv)
  exact ⟨f seg, by simp [updateSegment, hseg, hv], hlen seg hcursor⟩

end Update

/-! ## Writers -/

theorem Sound.openSegment (h : s.Sound) (hopen : s.openSegment stream failed = some t) : t.Sound ∧ Frame s t := by
  simp only [State.openSegment] at hopen
  obtain ⟨-, ⟨⟩⟩ := ite_none_right_eq_some.1 hopen
  set vdevs := s.online.filter (· ∉ failed)
  set seg : Segment Hash := ⟨stream.kind, stream, [], false, 0⟩
  have hsound := h.createSegment vdevs seg
  refine ⟨{ hsound with writer := fun stream' w hw ↦ ?_, cursor := fun stream' w hw ↦ ?_ },
    { frame_createSegment h vdevs seg with }⟩
  · rcases ite_eq_iff.1 hw with ⟨heq, ⟨⟩⟩ | ⟨-, hw⟩
    · refine ⟨Nat.lt_succ_self _, fun v seg' hseg' ↦ ?_⟩
      have hfresh := (h.fresh _ (Nat.le_refl _)).1 v
      obtain ⟨-, rfl⟩ : v ∈ vdevs ∧ seg = seg' := by
        simpa [fault, setWriter, State.createSegment, hfresh] using hseg'
      exact ⟨rfl, heq.symm⟩
    · exact hsound.writer stream' w hw
  · rcases ite_eq_iff.1 hw with ⟨-, ⟨⟩⟩ | ⟨-, hw⟩
    · intro v hv
      exact ⟨seg, by simp [fault, setWriter, State.createSegment, hv], rfl⟩
    · exact hsound.cursor stream' w hw

theorem frame_setPending : Frame s (s.setPending stream pending) :=
  { Frame.refl s with }

theorem Sound.setPending (h : s.Sound)
    (hrecord : ∀ e ∈ pending, ∀ v ∈ e.vdevs, s.recordAt (.vdev v) e.location = some e.hash)
    (hopen : ∀ e ∈ pending, s.OpenFor stream e.location.segmentId) :
    (s.setPending stream pending).Sound :=
  { h with
    pending := fun stream' e he ↦ by
      simp only [State.setPending] at he
      split_ifs at he
      · exact hrecord e he
      · exact h.pending stream' e he
    batch := fun stream' e he ↦ by
      simp only [State.setPending] at he
      split_ifs at he with heq
      · exact heq ▸ hopen e he
      · exact h.batch stream' e he }

theorem mem_entriesOf {records : List (IndexEntry Hash)} : entry ∈ entriesOf records ↔
      ∃ e ∈ records, ∃ v ∈ e.vdevs, entry = ((e.hash, .vdev v), e.location) := by
  simp [entriesOf, eq_comm]

theorem frame_flush (h : s.Sound) (stream : Stream) (ok : Bool) : Frame s (s.flush stream ok) := by
  cases ok with
  | false => exact frame_setPending
  | true =>
    refine (frame_putIndex fun _ hentry ↦ ?_).trans frame_setPending
    obtain ⟨e, he, v, hv, rfl⟩ := mem_entriesOf.1 hentry
    obtain ⟨_, hseg, -⟩ := recordAt_vdev.1 (h.pending stream e he v hv)
    exact (h.batch stream e he).not_settled hseg

theorem Sound.flush (h : s.Sound) (stream : Stream) (ok : Bool) : (s.flush stream ok).Sound := by
  cases ok with
  | false => exact h.setPending (by simp) (by simp)
  | true =>
    refine Sound.setPending (h.putIndex fun _ hentry ↦ ?_) (by simp) (by simp)
    obtain ⟨e, he, v, hv, rfl⟩ := mem_entriesOf.1 hentry
    exact h.pending stream e he v hv

/-- The entries of one record that are put before a put fails. -/
theorem mem_take_entriesOf {e : IndexEntry Hash} {puts : Nat}
    (h : entry ∈ (entriesOf [e]).take puts) :
    ∃ v ∈ e.vdevs, entry = ((e.hash, .vdev v), e.location) := by
  obtain ⟨_, he', v, hv, rfl⟩ := mem_entriesOf.1 (mem_of_mem_take h)
  obtain rfl := mem_singleton.1 he'
  exact ⟨v, hv, rfl⟩

section Moves

variable {w : Writer} {first : VdevId} {rest : List VdevId}

/-- A landed record: its copies, and the open segment they are in. -/
theorem Sound.land (h : s.Sound) (hw : s.writers stream = some w) (hlive : w.live failed = first :: rest)
    (hash : Hash) : let t := (s.fault (w.dead failed)).land stream w (first :: rest) first hash
    t.Sound ∧ Frame s t ∧ t.OpenFor stream w.segmentId ∧
      ∀ v ∈ first :: rest, t.recordAt (.vdev v) ⟨w.segmentId, w.cursor⟩ = some hash := by
  intro t
  have hvdevs : ∀ v ∈ first :: rest, v ∈ w.vdevs := hlive ▸ w.mem_of_live failed
  have hopen := h.writer stream w hw
  have hframe := frame_updateSegment (first :: rest) hopen fun seg ↦ seg.extends_append hash
  have hsound := h.updateOpen hw (first :: rest) (w.cursor + 1) hvdevs (f := (·.append hash))
    (fun seg ↦ ⟨seg.extends_append hash, rfl, rfl⟩) (fun seg hlen ↦ by simp [Segment.append, hlen])
  have hrecord : ∀ v ∈ first :: rest, t.recordAt (.vdev v) ⟨w.segmentId, w.cursor⟩ = some hash :=
    fun v hv ↦ recordAt_append hash hv (h.cursor stream w hw v (hvdevs v hv))
  obtain ⟨seg, hseg, -⟩ := h.cursor stream w hw first (hvdevs first mem_cons_self)
  have hcache : Frame s (s.putCache hash ⟨w.segmentId, w.cursor⟩ (.vdev first)) :=
    frame_putCache hash (hopen.not_settled hseg)
  have hcached : (State.putCache _ hash ⟨w.segmentId, w.cursor⟩ (.vdev first)).Sound :=
    hsound.putCache (hrecord first mem_cons_self)
  exact ⟨{ hcached with }, { hframe with cache := hcache.cache },
    hopen.of_unsealed fun _ ↦ ⟨rfl, rfl⟩, hrecord⟩

/-- A batch of another stream is in segments of that stream's own. -/
theorem Sound.close (h : s.Sound) (hw : s.writers stream = some w)
    (hempty : s.pendingIndex stream = [] ∨ w.live failed = []) : (s.closeOn stream w (w.live failed)).Sound := by
  have hopen : ∀ stream' id, stream' ≠ stream → s.OpenFor stream' id →
      (s.updateSegment (w.live failed) w.segmentId sealed).OpenFor stream' id := by
    intro _ _ hne hid
    refine hid.updateSegment fun v _ seg hseg heq ↦ ?_
    exact absurd ((hid.2 v seg (heq ▸ hseg)).2.symm.trans ((h.writer stream w hw).2 v seg hseg).2) hne
  refine h.updateWriter hw (fun seg ↦ ⟨seg.extends_sealed, rfl⟩) (fun stream' e he ↦ ?_)
    (fun stream' w₀ hne hw₀ ↦ hopen stream' _ hne (h.writer stream' w₀ hw₀)) (by simp)
  rcases hempty with hnil | hnil
  · refine hopen stream' _ ?_ (h.batch stream' e he)
    rintro rfl
    simp [hnil] at he
  · rw [hnil, updateSegment_nil]
    exact h.batch stream' e he

variable {D : Bool → State Hash → Stream → List VdevId → Prop}

theorem Sound.move (h : s.Sound) (hmove : Move D s t) : t.Sound ∧ Frame s t := by
  cases hmove with
  | acknowledge => exact ⟨{ h with }, { Frame.refl s with }⟩
  | flush stream ok => exact ⟨h.flush stream ok, frame_flush h stream ok⟩
  | @sync stream w failed hw =>
    have hsync := h.updateOpen hw (w.live failed) w.cursor (w.mem_of_live failed) (f := Segment.fsync)
      (fun seg ↦ ⟨seg.extends_fsync, rfl, rfl⟩) fun seg hlen ↦ hlen
    exact ⟨{ hsync with },
      { frame_updateSegment (w.live failed) (h.writer stream w hw) extends_fsync with }⟩
  | @close stream w failed hw _ hempty =>
    exact ⟨{ h.close hw hempty with },
      { frame_updateSegment (w.live failed) (h.writer stream w hw) extends_sealed with }⟩
  | @append shard w _ _ _ hw _ hlive hash =>
    obtain ⟨hland, hframe, hopen, hrecord⟩ := h.land hw hlive hash
    refine ⟨hland.setPending (fun e he ↦ ?_) fun e he ↦ ?_, hframe.trans frame_setPending⟩
    · rcases mem_append.1 he with he | he
      · exact hland.pending (.shard shard) e he
      · obtain rfl := mem_singleton.1 he
        exact hrecord
    · rcases mem_append.1 he with he | he
      · exact hland.batch (.shard shard) e he
      · obtain rfl := mem_singleton.1 he
        exact hopen
  | putMeta hw _ hlive hash =>
    obtain ⟨hland, hframe, hopen, hrecord⟩ := h.land hw hlive hash
    refine ⟨hland.putIndex fun entry hentry ↦ ?_, hframe.trans (frame_putIndex fun _ hentry ↦ ?_)⟩
    · obtain ⟨v, hv, rfl⟩ := mem_take_entriesOf hentry
      exact hrecord v hv
    · obtain ⟨v, hv, rfl⟩ := mem_take_entriesOf hentry
      obtain ⟨_, hseg, -⟩ := recordAt_vdev.1 (hrecord v hv)
      exact hopen.not_settled hseg

/-- The coalescer's task is no writer's business. -/
theorem Sound.moves (h : s.Sound) (hmoves : Moves D s t) : t.Sound ∧ Frame s t ∧ t.task = s.task := by
  refine hmoves.rel (R := fun s t ↦ Frame s t ∧ t.task = s.task) (fun s ↦ ⟨.refl s, rfl⟩)
    (fun hst htu ↦ ⟨hst.1.trans htu.1, htu.2.trans hst.2⟩) (fun h hmove ↦ ?_) h
  obtain ⟨hsound, hframe⟩ := h.move hmove
  refine ⟨hsound, hframe, ?_⟩
  cases hmove with
  | flush _ ok => cases ok <;> rfl
  | _ => rfl

end Moves

/-- A heal syncs its copy before the index is committed, so it asks of the index only that what
it named before is durable. -/
theorem Sound.heal (h : s.Sound) (hdurable : s.IndexDurable) (hheal : s.heal v kind hash = some t) :
    t.Sound ∧ Frame s t := by
  simp only [State.heal] at hheal
  obtain ⟨-, hheal⟩ := ite_none_right_eq_some.1 hheal
  cases hheal
  set loc : Location := ⟨s.nextSegmentId, 0⟩
  set seg := complete kind (.shard 0) [hash]
  have hcreate := h.createSegment [v] seg
  have hcreateFrame := frame_createSegment h [v] seg
  have hrecord : (s.createSegment [v] seg).recordAt (.vdev v) loc = some hash :=
    recordAt_createSegment (by simp) rfl
  have hindex : ((s.createSegment [v] seg).putIndex [((hash, .vdev v), loc)]).Sound :=
    hcreate.putIndex (by simpa using hrecord)
  have hcommit : ((s.createSegment [v] seg).putIndex [((hash, .vdev v), loc)]).commitIndex.Sound := by
    refine hindex.commitIndex fun hash' tag loc' hlookup ↦ ?_
    rcases lookup_putAll hlookup with hnew | ⟨hold, -⟩
    · obtain ⟨⟨rfl, rfl⟩, rfl⟩ : (hash' = hash ∧ tag = .vdev v) ∧ loc' = loc := by simpa using hnew
      exact durableAt_createSegment (by simp) rfl
    · exact hcreateFrame.durableAt (hdurable.lookup hold)
  have hframe : Frame s ((s.createSegment [v] seg).putIndex [((hash, .vdev v), loc)]).commitIndex := by
    -- The new segment is not settled before it exists.
    have hput : Frame s ((s.createSegment [v] seg).putIndex [((hash, .vdev v), loc)]) :=
      { hcreateFrame with
        index := fun key loc' hlookup ↦ by
          rcases lookup_putAll hlookup with hnew | ⟨hold, -⟩
          · obtain ⟨rfl, rfl⟩ : key = (hash, .vdev v) ∧ loc' = loc := by simpa using hnew
            exact .inr (not_settled_next _)
          · exact .inl hold }
    exact hput.trans frame_commitIndex
  split_ifs
  · refine ⟨hcommit.putCache hrecord, { hframe with cache := fun _ _ _ hget ↦ ?_ }⟩
    rcases ite_eq_iff.1 hget with ⟨-, ⟨⟩⟩ | ⟨-, hget⟩
    · exact .inr (not_settled_next _)
    · exact .inl hget
  · exact ⟨hcommit, hframe⟩

theorem task_heal (h : s.heal v kind hash = some t) : t.task = s.task := by
  obtain ⟨-, h⟩ := ite_none_right_eq_some.1 h
  cases h
  split_ifs <;> rfl

/-! ## Checkpoints -/

theorem Sound.checkpointStep (h : s.Sound) {ok : Bool}
    (hdurable : ∀ c, s.checkpoint = some c → c.phase = .commit → s.IndexDurable)
    (hstep : s.checkpointStep params failed ok = some t) : t.Sound ∧ Frame s t ∧ t.task = s.task := by
  have hfsync (stream : Stream) (ok : Bool) : (s.fsync stream failed ok).Sound ∧ _ ∧ _ :=
    h.moves (moves_fsync (D := fun _ _ _ _ ↦ True) ok trivial)
  obtain ⟨c, hc, rfl⟩ := map_eq_some_iff.1 hstep
  split
  next shard todo _ =>
    obtain ⟨hsync, hframe, htask⟩ := hfsync (.shard shard) ok
    exact ⟨{ hsync with }, { hframe with }, htask⟩
  · exact ⟨{ h with }, { Frame.refl s with }, rfl⟩
  next =>
    obtain ⟨hsync, hframe, htask⟩ := hfsync .metadata true
    exact ⟨{ hsync with }, { hframe with }, htask⟩
  next shard todo _ =>
    obtain ⟨hflush, hframe, htask⟩ := h.moves (.single (.flush (.shard shard) ok) : Moves (fun _ _ _ _ ↦ True) s _)
    exact ⟨{ hflush with }, { hframe with }, htask⟩
  · exact ⟨{ h with }, { Frame.refl s with }, rfl⟩
  next hphase =>
    split_ifs
    · have hindex : { s with index := { s.index with generation := c.generation } }.Sound := { h with }
      have hframe : Frame s { s with index := { s.index with generation := c.generation } } :=
        { Frame.refl s with }
      have hcommit := hindex.commitIndex fun _ _ _ hlookup ↦ (hdurable c hc hphase).lookup hlookup
      exact ⟨{ hcommit with }, { hframe.trans frame_commitIndex with }, rfl⟩
    · exact ⟨{ h with }, { Frame.refl s with }, rfl⟩
  · exact ⟨{ h with }, { Frame.refl s with }, rfl⟩
  next v _ _ =>
    split_ifs
    · exact ⟨{ h with }, { Frame.refl s with }, rfl⟩
    · exact ⟨{ h with }, { Frame.refl s with }, rfl⟩
    · exact ⟨{ h with }, { Frame.refl s with }, rfl⟩
  · exact ⟨{ h with }, { Frame.refl s with }, rfl⟩

end State

end Lchfs.Index
