import Lchfs.Index.Detach

/-!
# When a live detach loses nothing

A device that is resilvered and then scrubbed has a verified copy of every hash in the index
that is not striped: the resilver sees to it that the index names the device, the scrub that
what it names verifies, and what is written meanwhile lands on the device. So the slot can go
as long as one such device is still online. With no other device online there is nothing to
check and the last copy goes.

A stripe is found by its shards on online devices. One whose other shards are all out is not
found, and its shard on a leaving device that is out as well goes with the slot.
-/

set_option linter.unusedSectionVars false

namespace Lchfs.Index

open Lchfs.Format (ShardId SegmentId)
open Lchfs.Library
open List Option State Table Segment Entries

variable {Hash : Type} [DecidableEq Hash] {todo records : List Hash} {rest : List VdevId}
  {id : SegmentId}

/-- The devices a step reports to have failed. -/
def Action.failed {Hash : Type} : Action Hash → List VdevId
  | .openSegment _ failed | .append _ _ failed _ | .fsync _ failed _ | .closeSegment _ failed _
  | .putMeta _ _ failed _ => failed
  | .fault v => [v]
  | _ => []

def DetachAction.failed {Hash : Type} : DetachAction Hash → List VdevId
  | .write a => a.failed
  | .advance failed _ => failed
  | _ => []

namespace State

variable {params : Params} {s t u : State Hash}
variable {stream : Stream} {hash : Hash} {v : VdevId} {a : Action Hash}
  {D : Bool → State Hash → Stream → List VdevId → Prop}

/-- A writer's step opens a segment, drops a device, or is made of moves. -/
theorem write_cases (ha : a.isWrite = true) (hstep : s.mountedStep params a = some t)
    (hD : ∀ gone u stream, D gone u stream a.failed) :
    (∃ stream ∈ params.streams, s.openSegment stream a.failed = some t) ∨ t = s.fault a.failed ∨ Moves D s t := by
  cases a with
  | openSegment stream =>
    obtain ⟨hstream, hopen⟩ := ite_none_right_eq_some.1 hstep
    exact .inl ⟨stream, mem_streams.2 hstream, hopen⟩
  | append => exact .inr (.inr (moves_append (fun gone ↦ hD gone s _) hstep))
  | dedupHit hash =>
    obtain ⟨-, ⟨⟩⟩ := ite_none_right_eq_some.1 hstep
    exact .inr (.inr (.single (.acknowledge hash)))
  | flush shard ok =>
    cases hstep
    exact .inr (.inr (.single (.flush (.shard shard) ok)))
  | fsync stream _ ok =>
    cases hstep
    exact .inr (.inr (moves_fsync ok (hD false s stream)))
  | closeSegment stream _ ok =>
    cases hstep
    exact .inr (.inr (moves_closeSegment ok (hD true _ stream)))
  | putMeta => exact .inr (.inr (moves_putMeta (hD false s .metadata) hstep))
  | fault =>
    cases hstep
    exact .inr (.inl rfl)
  | _ => simp [Action.isWrite] at ha

/-- A verified copy on a device, wherever it is. -/
def Present (s : State Hash) (v : VdevId) (hash : Hash) : Prop :=
  ∃ loc, s.recordAt (.vdev v) loc = some hash

def Striped (s : State Hash) (hash : Hash) : Prop :=
  (s.index.entries.lookup (hash, .striped)).isSome

def NamedAt (s : State Hash) (v : VdevId) (hash : Hash) : Prop :=
  s.Striped hash ∨ (s.index.entries.lookup (hash, .vdev v)).isSome ∨ s.Present v hash

def ServedAt (s : State Hash) (v : VdevId) (hash : Hash) : Prop :=
  s.Striped hash ∨ s.Present v hash

/-- What a step keeps of the content of the pool, and what it adds to the index: hashes whose
record is on every online device, or that a batch had. -/
structure Serves (s t : State Hash) : Prop where
  records : ∀ v loc hash, s.recordAt (.vdev v) loc = some hash → t.recordAt (.vdev v) loc = some hash
  entries : ∀ key, (s.index.entries.lookup key).isSome → (t.index.entries.lookup key).isSome
  striped : ∀ hash, t.index.entries.lookup (hash, .striped) = s.index.entries.lookup (hash, .striped)
  stripes : t.stripes = s.stripes
  online : ∀ v ∈ t.online, v ∈ s.online
  writers : ∀ stream w', t.writers stream = some w' →
    (∃ w, s.writers stream = some w ∧ ∀ v ∈ w'.vdevs, v ∈ w.vdevs) ∨ ∀ v ∈ w'.vdevs, v ∈ s.online
  news : ∀ v ∈ t.online, ∀ hash, t.indexed hash = true → s.indexed hash = true ∨ t.Present v hash ∨
    (t.index.entries.lookup (hash, .vdev v)).isSome ∧ ∃ stream, ∃ e ∈ s.pendingIndex stream, e.hash = hash
  pending : ∀ v ∈ t.online, ∀ stream, ∀ e ∈ t.pendingIndex stream,
    e ∈ s.pendingIndex stream ∨ t.Present v e.hash

namespace Serves

theorem present (h : Serves s t) (hs : s.Present v hash) : t.Present v hash :=
  hs.imp fun loc hloc ↦ h.records v loc hash hloc

theorem refl (s : State Hash) : Serves s s where
  records _ _ _ h := h
  entries _ h := h
  striped _ := rfl
  stripes := rfl
  online _ h := h
  writers _ w hw := .inl ⟨w, hw, fun _ h ↦ h⟩
  news _ _ _ h := .inl h
  pending _ _ _ _ h := .inl h

theorem trans (hst : Serves s t) (htu : Serves t u) : Serves s u where
  records v loc hash h := htu.records v loc hash (hst.records v loc hash h)
  entries key h := htu.entries key (hst.entries key h)
  striped hash := (htu.striped hash).trans (hst.striped hash)
  stripes := htu.stripes.trans hst.stripes
  online v h := hst.online v (htu.online v h)
  writers stream w hw := by
    rcases htu.writers stream w hw with ⟨w', hw', hsub⟩ | hsub
    · rcases hst.writers stream w' hw' with ⟨w'', hw'', hsub'⟩ | hsub'
      · exact .inl ⟨w'', hw'', fun v hv ↦ hsub' v (hsub v hv)⟩
      · exact .inr fun v hv ↦ hsub' v (hsub v hv)
    · exact .inr fun v hv ↦ hst.online v (hsub v hv)
  news v hv hash h := by
    rcases htu.news v hv hash h with h | h | ⟨hnamed, stream, e, he, rfl⟩
    · rcases hst.news v (htu.online v hv) hash h with h | h | ⟨hnamed, he⟩
      · exact .inl h
      · exact .inr (.inl (htu.present h))
      · exact .inr (.inr ⟨htu.entries _ hnamed, he⟩)
    · exact .inr (.inl h)
    · rcases hst.pending v (htu.online v hv) stream e he with he | he
      · exact .inr (.inr ⟨hnamed, stream, e, he, rfl⟩)
      · exact .inr (.inl (htu.present he))
  pending v hv stream e he := by
    rcases htu.pending v hv stream e he with he | he
    · exact (hst.pending v (htu.online v hv) stream e he).imp_right htu.present
    · exact .inr he

theorem striped_iff (h : Serves s t) : t.Striped hash ↔ s.Striped hash := by
  simp only [Striped, h.striped]

theorem namedAt (h : Serves s t) (hs : s.NamedAt v hash) : t.NamedAt v hash :=
  hs.imp h.striped_iff.2 (Or.imp (h.entries _) h.present)

theorem servedAt (h : Serves s t) (hs : s.ServedAt v hash) : t.ServedAt v hash :=
  hs.imp h.striped_iff.2 h.present

/-- Only segments and writers change, and records only come. -/
theorem of_segments
    (hrecords : ∀ v loc hash, s.recordAt (.vdev v) loc = some hash → t.recordAt (.vdev v) loc = some hash)
    (hindex : t.index = s.index) (hstripes : t.stripes = s.stripes) (hpending : t.pendingIndex = s.pendingIndex)
    (honline : ∀ v ∈ t.online, v ∈ s.online) (hwriters : ∀ stream w', t.writers stream = some w' →
      (∃ w, s.writers stream = some w ∧ ∀ v ∈ w'.vdevs, v ∈ w.vdevs) ∨ ∀ v ∈ w'.vdevs, v ∈ s.online) :
    Serves s t where
  records := hrecords
  entries key h := hindex ▸ h
  striped hash := by rw [hindex]
  stripes := hstripes
  online := honline
  writers := hwriters
  news v _ hash h := .inl (by simpa [indexed, hindex] using h)
  pending v _ stream e he := .inl (hpending ▸ he)

end Serves

/-! ## The index and the batches -/

/-- Puts of entries for devices only, whose hashes are known, on every device, or in a batch and
named on every device. -/
theorem serves_putIndex {entries : List ((Hash × Tag) × Location)} (htag : ∀ entry ∈ entries, entry.1.2 ≠ .striped)
    (hnews : ∀ entry ∈ entries, ∀ v ∈ s.online, s.indexed entry.1.1 = true ∨ s.Present v entry.1.1 ∨
      (∃ loc, ((entry.1.1, .vdev v), loc) ∈ entries) ∧ ∃ stream, ∃ e ∈ s.pendingIndex stream, e.hash = entry.1.1) :
    Serves s (s.putIndex entries) where
  records _ _ _ h := h
  entries key h := isSome_lookup_putAll.2 (.inr h)
  striped hash := lookup_putAll_of_ne fun entry hentry heq ↦ htag entry hentry (by rw [heq])
  stripes := rfl
  online _ h := h
  writers _ w hw := .inl ⟨w, hw, fun _ h ↦ h⟩
  news v hv hash h := by
    rcases indexed_putIndex h with hold | ⟨entry, hentry, rfl⟩
    · exact .inl hold
    · rcases hnews entry hentry v hv with h | h | ⟨⟨_, hloc⟩, he⟩
      · exact .inl h
      · exact .inr (.inl h)
      · exact .inr (.inr ⟨isSome_lookup_putAll.2 (.inl ⟨_, hloc, rfl⟩), he⟩)
  pending _ _ _ _ h := .inl h

section

variable (h : s.Fanned params) {w : Writer}

include h

namespace Fanned

theorem putIndex (entries : List ((Hash × Tag) × Location)) : (s.putIndex entries).Fanned params :=
  ⟨{ h.follows with }, h.streams, h.writers, h.batches, h.stripes⟩

theorem acknowledge (hash : Hash) :
    (s.acknowledge hash).Fanned params ∧ Serves s (s.acknowledge hash) :=
  ⟨⟨{ h.follows with }, h.streams, h.writers,
    h.batches, h.stripes⟩, .of_segments (fun _ _ _ h ↦ h) rfl rfl rfl (fun _ h ↦ h) fun _ w hw ↦ .inl ⟨w, hw, fun _ h ↦ h⟩⟩

theorem fault (failed : List VdevId) : (s.fault failed).Fanned params ∧ Serves s (s.fault failed) :=
  ⟨⟨{ h.follows with }, h.streams,
    fun stream w hw v hv ↦ h.writers stream w hw v (mem_of_mem_filter hv),
    fun stream e he ↦ ⟨(h.batches stream e he).1, fun v hv ↦ (h.batches stream e he).2 v (mem_of_mem_filter hv)⟩,
    h.stripes⟩, .of_segments (fun _ _ _ h ↦ h) rfl rfl rfl (fun _ h ↦ mem_of_mem_filter h) fun _ w hw ↦
      .inl ⟨w, hw, fun _ h ↦ h⟩⟩

theorem setPending (stream : Stream) (batch : List (IndexEntry Hash))
    (hbatch : ∀ e ∈ batch, e ∈ s.pendingIndex stream ∨ (∃ shard ∈ params.shards, stream = .shard shard) ∧
      ∀ v ∈ s.online, v ∈ e.vdevs ∧ s.Present v e.hash) :
    (s.setPending stream batch).Fanned params ∧ Serves s (s.setPending stream batch) := by
  refine ⟨⟨{ h.follows with }, h.streams,
    h.writers, fun stream' e he ↦ ?_, h.stripes⟩, fun _ _ _ h ↦ h, fun _ h ↦ h, fun _ ↦ rfl, rfl, fun _ h ↦ h,
    fun _ w hw ↦ .inl ⟨w, hw, fun _ h ↦ h⟩, fun _ _ _ h ↦ .inl h, fun v hv stream' e he ↦ ?_⟩
  · rcases mem_setPending hbatch he with hold | ⟨rfl, hshard, hnew⟩
    · exact h.batches stream' e hold
    · exact ⟨hshard, fun v hv ↦ (hnew v hv).1⟩
  · exact (mem_setPending hbatch he).imp_right fun hnew ↦ (hnew.2.2 v hv).2

theorem flush (stream : Stream) (ok : Bool) :
    (s.flush stream ok).Fanned params ∧ Serves s (s.flush stream ok) := by
  cases ok with
  | false => exact h.setPending stream [] (by simp)
  | true =>
    have hserves : Serves s (s.putIndex (entriesOf (s.pendingIndex stream))) := by
      refine serves_putIndex (fun entry hentry ↦ ?_) fun _ hentry v hv ↦ ?_
      · obtain ⟨e, -, v, -, rfl⟩ := mem_entriesOf.1 hentry
        simp
      · obtain ⟨e, he, -, -, rfl⟩ := mem_entriesOf.1 hentry
        refine .inr (.inr ⟨⟨e.location, mem_entriesOf.2 ⟨e, he, v, ?_, rfl⟩⟩, stream, e, he, rfl⟩)
        exact (h.batches stream e he).2 v hv
    obtain ⟨hset, hserves'⟩ := (h.putIndex (entriesOf (s.pendingIndex stream))).setPending stream [] (by simp)
    exact ⟨hset, hserves.trans hserves'⟩

/-! ## Segments and writers -/

theorem createSegment (vdevs : List VdevId) (seg : Segment Hash) :
    (s.createSegment vdevs seg).Fanned params ∧ Serves s (s.createSegment vdevs seg) :=
  ⟨⟨h.follows.createSegment vdevs seg, h.streams, h.writers, h.batches,
    fun id hid ↦ h.stripes id (Nat.le_of_succ_le hid)⟩,
    .of_segments (records_createSegment h.follows vdevs seg) rfl rfl rfl (fun _ h ↦ h) fun _ w hw ↦
      .inl ⟨w, hw, fun _ h ↦ h⟩⟩

theorem openSegment {failed : List VdevId}
    (hstream : stream ∈ params.streams) (hopen : s.openSegment stream failed = some t) :
    t.Fanned params ∧ Serves s t := by
  obtain ⟨_, _, hsame⟩ := openSegment_eq_some hopen
  obtain ⟨-, ⟨⟩⟩ := ite_none_right_eq_some.1 hopen
  set vdevs := s.online.filter (· ∉ failed)
  have hadvance := h.follows.openSegment hstream hopen
  refine ⟨⟨hadvance.follows, fun stream' w hw ↦ ?_, fun stream' w hw v hv ↦ ?_, fun stream' e he ↦ ?_,
    fun id hid ↦ h.stripes id (Nat.le_of_succ_le hid)⟩, .of_segments (records_createSegment h.follows vdevs _)
    rfl rfl rfl (fun _ h ↦ mem_of_mem_filter h) fun stream' w hw ↦ ?_⟩
  · rcases hadvance.writers stream' w hw with ⟨w', hw', -⟩ | ⟨hmem, -⟩
    · exact h.streams stream' w' hw'
    · exact hmem
  · rw [hsame.writers] at hw
    rcases ite_eq_iff.1 hw with ⟨rfl, ⟨⟩⟩ | ⟨-, hw⟩
    · exact hv
    · exact h.writers stream' w hw v (mem_of_mem_filter hv)
  · exact ⟨(h.batches stream' e he).1, fun v hv ↦ (h.batches stream' e he).2 v (mem_of_mem_filter hv)⟩
  · exact (hadvance.writers stream' w hw).imp_right And.right

/-- The copies on the devices that do not fail change, the writer goes on with them or is gone,
and the others leave the online set. -/
theorem update {failed : List VdevId} (hw : s.writers stream = some w)
    {f : Segment Hash → Segment Hash} {x : Option Writer}
    (ht : t = ((s.updateSegment (w.live failed) w.segmentId f).setWriter stream x).fault (w.dead failed))
    (hfollows : t.Follows) (hf : ∀ seg : Segment Hash, seg.Extends (f seg))
    (hx : ∀ w₀, x = some w₀ → w₀.vdevs = w.live failed) : t.Fanned params ∧ Serves s t := by
  subst ht
  refine ⟨⟨hfollows, fun stream' w₁ hw₁ ↦ ?_, fun stream' w₁ hw₁ v hv ↦ ?_, fun stream' e he ↦ ?_, h.stripes⟩,
    .of_segments (records_of_extends hf) rfl rfl rfl (fun _ h ↦ mem_of_mem_filter h) fun stream' w₁ hw₁ ↦
      .inl ?_⟩
  · rcases ite_eq_iff.1 hw₁ with ⟨rfl, -⟩ | ⟨-, hold⟩
    · exact h.streams _ w hw
    · exact h.streams stream' w₁ hold
  · obtain ⟨hv, hnot⟩ := mem_filter.1 hv
    rcases ite_eq_iff.1 hw₁ with ⟨rfl, hnew⟩ | ⟨-, hold⟩
    · have hmem := h.writers _ w hw v hv
      have hfailed : v ∉ failed := fun hin ↦ by simp [hmem, hin] at hnot
      rw [hx w₁ hnew]
      exact mem_filter.2 ⟨hmem, by simpa using hfailed⟩
    · exact h.writers stream' w₁ hold v hv
  · exact ⟨(h.batches stream' e he).1, fun v hv ↦ (h.batches stream' e he).2 v (mem_of_mem_filter hv)⟩
  · rcases ite_eq_iff.1 hw₁ with ⟨rfl, hnew⟩ | ⟨-, hold⟩
    · exact ⟨w, hw, fun v hv ↦ mem_of_mem_filter (hx w₁ hnew ▸ hv)⟩
    · exact ⟨w₁, hold, fun _ h ↦ h⟩

/-- A landed record is on every online device. -/
theorem land {failed : List VdevId} {first : VdevId} (hw : s.writers stream = some w)
    (hlive : w.live failed = first :: rest) (hash : Hash) :
    let t := (s.fault (w.dead failed)).land stream w (first :: rest) first hash
    t.Fanned params ∧ Serves s t ∧ ∀ v ∈ t.online, v ∈ first :: rest ∧ t.Present v hash := by
  rw [← hlive]
  intro t
  have happend := h.follows.appendTo hw (w.mem_of_live failed) hash
  obtain ⟨hland, hserves⟩ := h.update hw rfl { happend with } (fun seg ↦ seg.extends_append hash)
    (by rintro _ ⟨⟩; rfl)
  refine ⟨⟨{ hland.follows with }, hland.streams, hland.writers, hland.batches, hland.stripes⟩,
    { hserves with }, fun v hv ↦ ?_⟩
  have hmem : v ∈ w.live failed :=
    hland.writers stream ⟨w.segmentId, w.live failed, w.cursor + 1⟩ (by simp [State.fault, setWriter]) v hv
  exact ⟨hmem, _, recordAt_append hash hmem (h.follows.cursor stream w hw v (w.mem_of_live failed v hmem))⟩

theorem move (hmove : Move D s t) : t.Fanned params ∧ Serves s t := by
  cases hmove with
  | acknowledge hash => exact h.acknowledge hash
  | flush stream ok => exact h.flush stream ok
  | @sync _ w failed hw =>
    have hsync := h.follows.syncOn hw (w.mem_of_live failed)
    exact h.update hw rfl { hsync with } extends_fsync (by rintro _ ⟨⟩; rfl)
  | @close _ w failed hw =>
    have hclose := h.follows.closeOn hw (w.mem_of_live failed)
    exact h.update hw rfl { hclose with } extends_sealed (by simp)
  | @append shard w _ _ _ hw _ hlive hash =>
    obtain ⟨hland, hserves, hpresent⟩ := h.land hw hlive hash
    refine (hland.setPending (.shard shard) _ fun e he ↦ ?_).imp_right hserves.trans
    rcases mem_append.1 he with he | he
    · exact .inl he
    · obtain rfl := mem_singleton.1 he
      refine .inr ⟨?_, hpresent⟩
      simpa [Params.streams] using h.streams _ w hw
  | putMeta hw _ hlive hash =>
    obtain ⟨hland, hserves, hpresent⟩ := h.land hw hlive hash
    refine ⟨hland.putIndex _, hserves.trans (serves_putIndex (fun entry hentry ↦ ?_) fun _ hentry v hv ↦ ?_)⟩
    · obtain ⟨v, -, rfl⟩ := mem_take_entriesOf hentry
      simp
    · obtain ⟨-, -, rfl⟩ := mem_take_entriesOf hentry
      exact .inr (.inl (hpresent v hv).2)

theorem moves (hmoves : Moves D s t) : t.Fanned params ∧ Serves s t :=
  hmoves.rel .refl .trans (fun h hmove ↦ h.move hmove) h

theorem healOnto (target : VdevId) (kind : StreamKind) (hindexed : s.indexed hash = true) :
    (s.healOnto target kind hash).Fanned params ∧ Serves s (s.healOnto target kind hash) ∧
      (s.healOnto target kind hash).Present target hash := by
  obtain ⟨hcreate, hserves⟩ := h.createSegment [target] (.complete kind (.shard 0) [hash])
  set u := s.createSegment [target] (.complete kind (.shard 0) [hash])
  have hrecord : u.recordAt (.vdev target) ⟨s.nextSegmentId, 0⟩ = some hash :=
    recordAt_createSegment (mem_singleton_self target) rfl
  have hserves' : Serves u (u.putIndex [((hash, .vdev target), ⟨s.nextSegmentId, 0⟩)]) := by
    refine serves_putIndex (by simp) fun _ hentry v _ ↦ .inl ?_
    obtain rfl := mem_singleton.1 hentry
    exact hindexed
  have hput := hcreate.putIndex [((hash, .vdev target), ⟨s.nextSegmentId, 0⟩)]
  have hall := hserves.trans hserves'
  unfold State.healOnto
  dsimp only
  split_ifs
  · exact ⟨⟨{ hput.follows with }, hput.streams, hput.writers, hput.batches, hput.stripes⟩,
      { hall with }, _, hrecord⟩
  · exact ⟨hput, hall, _, hrecord⟩

theorem write (ha : a.isWrite = true) (hstep : s.mountedStep params a = some t) :
    t.Fanned params ∧ Serves s t := by
  rcases write_cases (D := fun _ _ _ _ ↦ True) ha hstep fun _ _ _ ↦ trivial with
    ⟨stream, hstream, hopen⟩ | rfl | hmoves
  · exact h.openSegment hstream hopen
  · exact h.fault a.failed
  · exact h.moves hmoves

/-- A stripe is decoded. Entries of stripes only go, those of the stripe among them. -/
theorem unstripeAll (failed : List VdevId) (hrecords : s.stripes id = some records) :
    (s.unstripeAll id records failed).Fanned params ∧
      (∀ v loc hash, s.recordAt (.vdev v) loc = some hash →
        (s.unstripeAll id records failed).recordAt (.vdev v) loc = some hash) ∧
      (s.unstripeAll id records failed).online = s.online.filter (· ∉ failed) ∧
      ∀ hash loc, (s.unstripeAll id records failed).index.entries.lookup (hash, .striped) = some loc →
        s.index.entries.lookup (hash, .striped) = some loc ∧
          (s.recordAt .striped loc = some hash → loc.segmentId ≠ id ∧
            (s.unstripeAll id records failed).recordAt .striped loc = some hash) := by
  unfold State.unstripeAll
  dsimp only
  set written := s.online.filter (· ∉ failed)
  set r : Rewrite Hash := ⟨.striped, id, s.nextSegmentId, entries s.nextSegmentId records, [], written⟩ with hr
  set vdevs := if records.isEmpty then [] else written
  obtain ⟨hcreate, hserves⟩ := h.createSegment vdevs (.complete .data (.shard 0) records)
  rw [repointCache_eq r]
  refine ⟨⟨{ hcreate.follows with }, hcreate.streams, fun stream w hw v hv ↦ h.writers stream w hw v (mem_of_mem_filter hv),
    fun stream e he ↦ ⟨(h.batches stream e he).1, fun v hv ↦ (h.batches stream e he).2 v (mem_of_mem_filter hv)⟩,
    fun i hi ↦ ?_⟩, hserves.records, rfl, fun hash loc hlookup ↦ ?_⟩
  · have hnone : s.stripes i = none := h.stripes i (Nat.le_of_succ_le hi)
    change (if i = id then none else s.stripes i) = none
    rw [hnone, ite_self]
  · have hlookup : (putAll (eraseIn id s.index.entries (r.kept.map fun record ↦ (record.1, .striped)))
        r.entries).lookup (hash, .striped) = some loc := hlookup
    rw [lookup_putAll_of_ne] at hlookup
    · obtain ⟨hold, hne⟩ := lookup_eraseIn hlookup
      refine ⟨hold, fun hrecord ↦ ?_⟩
      have hid : loc.segmentId ≠ id := by
        intro heq
        obtain ⟨records', hrecords', hget⟩ := bind_eq_some_iff.1 hrecord
        obtain rfl : records' = records := by
          rw [heq, hrecords] at hrecords'
          exact (some.inj hrecords').symm
        refine hne (mem_map.2 ⟨(hash, ⟨s.nextSegmentId, loc.offset⟩), ?_, rfl⟩) heq
        exact mem_map.2 ⟨(hash, loc.offset), mem_zipIdx_iff_getElem?.2 hget, rfl⟩
      refine ⟨hid, Eq.trans ?_ hrecord⟩
      change ((if loc.segmentId = id then none else s.stripes loc.segmentId).bind _) = _
      rw [if_neg hid]
      rfl
    · intro _ hentry heq
      obtain ⟨_, -, hin⟩ := mem_flatMap.1 hentry
      obtain ⟨v, -, rfl⟩ := mem_map.1 hin
      cases heq

end Fanned

end

theorem lookup_deleteVdev {t : Entries Hash} {key : Hash × Tag} {loc : Location} :
    (t.deleteVdev v).lookup key = some loc ↔ t.lookup key = some loc ∧ key.2 ≠ .vdev v := by
  rw [← Table.mem_toList, ← Table.mem_toList]
  constructor
  · intro h
    obtain ⟨entry, hentry, ⟨⟩⟩ := mem_map.1 h
    exact ⟨mem_map.2 ⟨entry, (mem_filter.1 hentry).1, rfl⟩, by simpa using (mem_filter.1 hentry).2⟩
  · rintro ⟨h, hne⟩
    obtain ⟨entry, hentry, ⟨⟩⟩ := mem_map.1 h
    exact mem_map.2 ⟨entry, mem_filter.2 ⟨hentry, by simpa using hne⟩, rfl⟩

/-- A device that no open segment is on. -/
theorem Fanned.eraseVdev (h : s.Fanned params)
    (hclosed : ∀ stream w, s.writers stream = some w → v ∉ w.vdevs) : (s.eraseVdev v).Fanned params := by
  refine ⟨⟨fun u id hid ↦ ?_, h.follows.below, h.follows.distinct, fun stream w hw u seg hseg ↦ ?_,
    fun stream w hw u hu ↦ ?_⟩, h.streams, h.writers, h.batches, h.stripes⟩
  · simp [State.eraseVdev, h.follows.fresh u id hid]
  · simp only [State.eraseVdev] at hseg
    split_ifs at hseg
    exact h.follows.short stream w hw u seg hseg
  · have hne : u ≠ v := fun heq ↦ hclosed stream w hw (heq ▸ hu)
    simpa [State.eraseVdev, hne] using h.follows.cursor stream w hw u hu

/-! ## Walks over the index -/

/-- Every hash in the index is still to be visited or has the property. -/
def Walked (s : State Hash) (todo : List Hash) (P : Hash → Prop) : Prop :=
  ∀ hash, s.indexed hash = true → hash ∈ todo ∨ P hash

theorem walked_indexedHashes (s : State Hash) (P : Hash → Prop) : s.Walked s.indexedHashes P := by
  intro hash hindexed
  obtain ⟨tag, loc, hlookup⟩ := has_iff.1 hindexed
  refine .inl (mem_dedup.2 (mem_map.2 ⟨((hash, tag), loc), mem_toList.2 hlookup, rfl⟩))

theorem Walked.erase {P : Hash → Prop} (h : s.Walked todo P) (hP : s.indexed hash = true → P hash) :
    s.Walked (todo.erase hash) P := by
  intro hash' hindexed
  by_cases heq : hash' = hash
  · subst heq
    exact .inr (hP hindexed)
  · exact (h hash' hindexed).imp_left (mem_erase_of_ne heq).2

/-- What is in a batch is on every online device. -/
def Landed (s : State Hash) (stream : Stream) : Prop :=
  ∀ e ∈ s.pendingIndex stream, ∀ v ∈ s.online, s.Present v e.hash

theorem Fanned.landed (h : s.Fanned params)
    (hstream : ∀ shard ∈ params.shards, stream ≠ .shard shard) : s.Landed stream := by
  intro e he
  obtain ⟨⟨shard, hshard, heq⟩, -⟩ := h.batches stream e he
  exact absurd heq (hstream shard hshard)

namespace Serves

theorem landed (h : Serves s t) (hs : s.Landed stream) : t.Landed stream := by
  intro e he v hv
  rcases h.pending v hv stream e he with hold | hnew
  · exact h.present (hs e hold v (h.online v hv))
  · exact hnew

theorem walked_named (h : Serves s t) (hv : v ∈ t.online) (hs : s.Walked todo (s.NamedAt v)) :
    t.Walked todo (t.NamedAt v) := by
  intro hash hindexed
  rcases h.news v hv hash hindexed with hold | hpresent | ⟨hnamed, -⟩
  · exact (hs hash hold).imp_right h.namedAt
  · exact .inr (.inr (.inr hpresent))
  · exact .inr (.inr (.inl hnamed))

theorem walked_served (h : Serves s t) (hlanded : ∀ stream, s.Landed stream) (hv : v ∈ t.online)
    (hs : s.Walked todo (s.ServedAt v)) : t.Walked todo (t.ServedAt v) := by
  intro hash hindexed
  rcases h.news v hv hash hindexed with hold | hpresent | ⟨-, stream, e, he, rfl⟩
  · exact (hs hash hold).imp_right h.servedAt
  · exact .inr (.inr hpresent)
  · exact .inr (.inr (h.present (hlanded stream e he v (h.online v hv))))

end Serves

theorem mem_online_moves (hmoves : Moves (fun _ _ _ failed ↦ v ∉ failed) s t) (hv : v ∈ s.online) :
    v ∈ t.online := by
  induction hmoves with
  | refl => exact hv
  | tail _ hmove ih =>
    cases hmove with
    | acknowledge => exact ih
    | flush stream ok => exact (congrArg (v ∈ ·) (online_flush stream ok)).mpr ih
    | sync _ hD | close _ hD | append _ hD | putMeta _ hD => exact mem_filter.2 ⟨ih, by simp [hD]⟩

/-- The devices of the open segments that fail are those the step reports. -/
theorem online_write (ha : a.isWrite = true) (hstep : s.mountedStep params a = some t)
    (hv : v ∈ s.online) (hnot : v ∉ a.failed) : v ∈ t.online := by
  rcases write_cases (D := fun _ _ _ failed ↦ v ∉ failed) ha hstep fun _ _ _ ↦ hnot with ⟨_, -, hopen⟩ | rfl | hmoves
  · exact (openSegment_eq_some hopen).2.1 ▸ mem_filter.2 ⟨hv, by simpa using hnot⟩
  · exact mem_filter.2 ⟨hv, by simpa using hnot⟩
  · exact mem_online_moves hmoves hv

end State

/-! ## The phases of a call -/

namespace Detaching

variable {params : Params} {d t : Detaching Hash}
variable {v : VdevId} {pool : State Hash} {phase : DetachPhase Hash} {ok unrecoverable : Bool} {hash : Hash}
  {call : Option (DetachPhase Hash)} {l : List VdevId} {unrecoverable' : Bool}

/-- An entry of a stripe names a record of it, and the stripes that name the device are still to
be decoded. -/
def Apart (d : Detaching Hash) (v : VdevId) (todo : List SegmentId) : Prop :=
  ∀ hash loc, d.pool.index.entries.lookup (hash, .striped) = some loc →
    d.pool.recordAt .striped loc = some hash ∧ (v ∈ d.shards loc.segmentId → loc.segmentId ∈ todo)

/-- Holds of every online device but the leaving one. -/
def Others (d : Detaching Hash) (P : VdevId → Prop) : Prop :=
  ∀ v ∈ d.pool.online, v ≠ d.leaving → P v

/-- What a call has established when it gets to a phase. The resilver has the index name every
device, then the scrub has every device serve what the index has; the flush between them is what
keeps batches from naming a device that does not have the record. -/
def PhaseSafe (d : Detaching Hash) : DetachPhase Hash → Prop
  | .unstripeFlush _ =>
    ∀ hash loc, d.pool.index.entries.lookup (hash, .striped) = some loc → d.pool.recordAt .striped loc = some hash
  | .unstripe todo => d.Apart d.leaving todo
  | .resilverFlush _ v rest =>
    d.Apart d.leaving [] ∧ d.Others fun u ↦ u ∈ v :: rest ∨ d.pool.Walked [] (d.pool.NamedAt u)
  | .resilver todo unrecoverable v rest =>
    d.Apart d.leaving [] ∧ d.Others fun u ↦ u ∈ rest ∨ d.pool.Walked [] (d.pool.NamedAt u) ∨
      u = v ∧ (unrecoverable = false → d.pool.Walked todo (d.pool.NamedAt u))
  | .scrubFlush todo =>
    d.Apart d.leaving [] ∧ (d.Others fun u ↦ d.pool.Walked [] (d.pool.NamedAt u)) ∧
      ∀ shard ∉ todo, d.pool.Landed (.shard shard)
  | .scrub todo unrecoverable v rest =>
    d.Apart d.leaving [] ∧ (d.Others fun u ↦ d.pool.Walked [] (d.pool.NamedAt u)) ∧
      (∀ stream, d.pool.Landed stream) ∧ (unrecoverable = false → d.Others fun u ↦ u ∈ rest ∨
        d.pool.Walked [] (d.pool.ServedAt u) ∨ u = v ∧ d.pool.Walked todo (d.pool.ServedAt u))
  | .remove =>
    d.Apart d.leaving [] ∧ (∀ stream, d.pool.Landed stream) ∧ d.Others fun u ↦ d.pool.Walked [] (d.pool.ServedAt u)
  | .roll todo =>
    d.Apart d.count [] ∧ (∀ stream, d.pool.Landed stream) ∧
      (∀ u ∈ d.pool.online, u ≠ d.count ∧ d.pool.Walked [] (d.pool.ServedAt u)) ∧
      ∀ stream ∉ todo, ∀ w, d.pool.writers stream = some w → d.count ∉ w.vdevs

structure Guarded (params : Params) (d : Detaching Hash) : Prop where
  fanned : d.pool.Fanned params
  safe : ∀ phase, d.call = some phase → d.PhaseSafe phase

theorem Apart.serve {todo : List SegmentId} (h : d.Apart v todo)
    (hserves : Serves d.pool pool) : (d.setPool pool).Apart v todo := by
  intro hash loc hlookup
  obtain ⟨hrecord, hshards⟩ := h hash loc ((hserves.striped hash).symm.trans hlookup)
  refine ⟨?_, hshards⟩
  simpa [setPool, recordAt, hserves.stripes] using hrecord

theorem Others.imp {P Q : VdevId → Prop} (h : d.Others P) (hleaving : t.leaving = d.leaving)
    (himp : ∀ v ∈ t.pool.online, v ∈ d.pool.online ∧ (P v → Q v)) : t.Others Q :=
  fun v hv hne ↦ (himp v hv).2 (h v (himp v hv).1 (hleaving ▸ hne))

/-- What a call has established stands whatever the writers do. -/
theorem PhaseSafe.serve (h : d.PhaseSafe phase)
    (hserves : Serves d.pool pool) : (d.setPool pool).PhaseSafe phase := by
  have honline : ∀ {P Q : VdevId → Prop}, (∀ v ∈ pool.online, P v → Q v) →
      ∀ v ∈ (d.setPool pool).pool.online, v ∈ d.pool.online ∧ (P v → Q v) :=
    fun himp v hv ↦ ⟨hserves.online v hv, himp v hv⟩
  cases phase with
  | unstripeFlush =>
    intro hash loc hlookup
    have hrecord := h hash loc ((hserves.striped hash).symm.trans hlookup)
    simpa [setPool, recordAt, hserves.stripes] using hrecord
  | unstripe => exact Apart.serve h hserves
  | resilverFlush =>
    exact ⟨h.1.serve hserves, h.2.imp rfl (honline fun u hu ↦ Or.imp_right (hserves.walked_named hu))⟩
  | resilver =>
    refine ⟨h.1.serve hserves, h.2.imp rfl (honline fun u hu ↦ Or.imp_right (Or.imp (hserves.walked_named hu) ?_))⟩
    exact And.imp_right fun hwalk hfalse ↦ hserves.walked_named hu (hwalk hfalse)
  | scrubFlush =>
    exact ⟨h.1.serve hserves, h.2.1.imp rfl (honline fun u hu ↦ hserves.walked_named hu), fun shard hshard ↦
      hserves.landed (h.2.2 shard hshard)⟩
  | scrub =>
    obtain ⟨hapart, hnamed, hlanded, hserved⟩ := h
    refine ⟨hapart.serve hserves, hnamed.imp rfl (honline fun u hu ↦ hserves.walked_named hu), fun stream ↦
      hserves.landed (hlanded stream), fun hfalse ↦ (hserved hfalse).imp rfl (honline fun u hu ↦ Or.imp_right ?_)⟩
    exact Or.imp (hserves.walked_served hlanded hu) (And.imp_right (hserves.walked_served hlanded hu))
  | remove =>
    obtain ⟨hapart, hlanded, hserved⟩ := h
    exact ⟨hapart.serve hserves, fun stream ↦ hserves.landed (hlanded stream),
      hserved.imp rfl (honline fun u hu ↦ hserves.walked_served hlanded hu)⟩
  | roll =>
    obtain ⟨hapart, hlanded, hserved, hrolled⟩ := h
    refine ⟨hapart.serve hserves, fun stream ↦ hserves.landed (hlanded stream), fun u hu ↦ ?_,
      fun stream hstream w hw ↦ ?_⟩
    · obtain ⟨hne, hwalk⟩ := hserved u (hserves.online u hu)
      exact ⟨hne, hserves.walked_served hlanded hu hwalk⟩
    · rcases hserves.writers stream w hw with ⟨w', hw', hsub⟩ | hsub
      · exact fun hmem ↦ hrolled stream hstream w' hw' (hsub _ hmem)
      · exact fun hmem ↦ (hserved _ (hsub _ hmem)).1 rfl

/-- A step of the call that keeps the slots and every record, and drops only the devices it
reports. -/
structure Holds (failed : List VdevId) (d t : Detaching Hash) : Prop where
  count : t.count = d.count
  records : ∀ v loc hash, d.pool.recordAt (.vdev v) loc = some hash → t.pool.recordAt (.vdev v) loc = some hash
  online : ∀ v ∈ d.pool.online, v ∉ failed → v ∈ t.pool.online

theorem Holds.refl (failed : List VdevId) (d : Detaching Hash) (call : Option (DetachPhase Hash)) :
    Holds failed d (d.setCall call) :=
  ⟨rfl, fun _ _ _ h ↦ h, fun _ h _ ↦ h⟩

/-- The call goes on, or ends with an error, after a step of the pool. -/
theorem Guarded.proceed (hfanned : pool.Fanned params)
    (hsafe : ∀ phase, call = some phase → (d.setPool pool).PhaseSafe phase) :
    ((d.setPool pool).setCall call).Guarded params :=
  ⟨hfanned, hsafe⟩

theorem PhaseSafe.resilverNext (hfanned : d.pool.Fanned params) (hapart : d.Apart d.leaving [])
    (hnamed : d.Others fun u ↦ u ∈ l ∨ d.pool.Walked [] (d.pool.NamedAt u))
    (h : d.resilverNext params l = some phase) : d.PhaseSafe phase := by
  cases l with
  | nil =>
    cases h
    refine ⟨hapart, hnamed.imp rfl fun u hu ↦ ⟨hu, fun h ↦ h.resolve_left not_mem_nil⟩, fun _ hshard ↦ ?_⟩
    refine hfanned.landed fun _ hshard' heq ↦ hshard ?_
    rw [Stream.shard.inj heq]
    exact hshard'
  | cons =>
    obtain ⟨-, ⟨⟩⟩ := ite_none_right_eq_some.1 h
    exact ⟨hapart, hnamed⟩

theorem PhaseSafe.scrubNext (hapart : d.Apart d.leaving [])
    (hnamed : d.Others fun u ↦ d.pool.Walked [] (d.pool.NamedAt u))
    (hlanded : ∀ stream, d.pool.Landed stream)
    (hserved : unrecoverable = false → d.Others fun u ↦ u ∈ l ∨ d.pool.Walked [] (d.pool.ServedAt u))
    (h : d.scrubNext unrecoverable l = some phase) : d.PhaseSafe phase := by
  cases l with
  | nil =>
    obtain ⟨hfalse, ⟨⟩⟩ := ite_none_left_eq_some.1 h
    exact ⟨hapart, hlanded, (hserved (Bool.not_eq_true _ ▸ hfalse)).imp rfl fun u hu ↦
      ⟨hu, fun h ↦ h.resolve_left not_mem_nil⟩⟩
  | cons =>
    cases h
    refine ⟨hapart, hnamed, hlanded, fun hfalse ↦ (hserved hfalse).imp rfl fun u hu ↦ ⟨hu, fun h ↦ ?_⟩⟩
    rcases h with hmem | hwalk
    · rcases mem_cons.1 hmem with rfl | hmem
      · exact .inr (.inr ⟨rfl, walked_indexedHashes _ _⟩)
      · exact .inl hmem
    · exact .inr (.inl hwalk)

/-- One shard of a flush. -/
theorem Guarded.flushShard (h : d.Guarded params) {shard : ShardId}
    (failed : List VdevId) (hsafe : (d.setPool (d.pool.flush (.shard shard) ok)).PhaseSafe phase) :
    (d.flushShard shard ok phase).Guarded params ∧ Holds failed d (d.flushShard shard ok phase) := by
  obtain ⟨hfanned, hserves⟩ := h.fanned.flush (.shard shard) ok
  refine ⟨Guarded.proceed hfanned fun _ hcall ↦ ?_, rfl, hserves.records, fun v hv _ ↦ ?_⟩
  · obtain ⟨-, ⟨⟩⟩ := ite_none_right_eq_some.1 hcall
    exact hsafe
  · exact online_flush (s := d.pool) (.shard shard) ok ▸ hv

theorem Guarded.setCall (h : d.Guarded params) (failed : List VdevId)
    (hsafe : ∀ phase, call = some phase → d.PhaseSafe phase) :
    (d.setCall call).Guarded params ∧ Holds failed d (d.setCall call) :=
  ⟨Guarded.proceed h.fanned hsafe, .refl failed d call⟩

/-! ## What a detach needs -/

/-- A detach starts with entries of stripes that name records of them; the stripes that name the
leaving device have a shard on a device that is online when they are listed; and when the slot
goes, and when its device is erased, another device is online. -/
def DetachesSafely (d : Detaching Hash) : DetachAction Hash → Prop
  | .detachVdevLive =>
    ∀ entry ∈ d.pool.index.entries.toList, entry.1.2 = .striped → d.pool.recordAt .striped entry.2 = some entry.1.1
  | .advance _ _ =>
    match d.call with
    | some (.unstripeFlush []) =>
      ∀ id < d.pool.nextSegmentId, (d.pool.stripes id).isSome → d.leaving ∈ d.shards id →
        ∃ v ∈ d.shards id, v ∈ d.pool.online
    | some (.roll []) => d.pool.online ≠ []
    | _ => True
  | .remove => ∃ v ∈ d.pool.online, v ≠ d.leaving
  | _ => True

instance (d : Detaching Hash) (a : DetachAction Hash) : Decidable (d.DetachesSafely a) := by
  unfold DetachesSafely
  split
  · infer_instance
  · split <;> infer_instance
  · infer_instance
  · infer_instance

/-- The stripes that name the leaving device are listed. -/
theorem apart_namedStripes (hfanned : d.pool.Fanned params)
    (hsound : ∀ hash loc, d.pool.index.entries.lookup (hash, .striped) = some loc →
      d.pool.recordAt .striped loc = some hash)
    (hlisted : ∀ id < d.pool.nextSegmentId, (d.pool.stripes id).isSome → d.leaving ∈ d.shards id →
      ∃ v ∈ d.shards id, v ∈ d.pool.online) : d.Apart d.leaving d.namedStripes := by
  intro hash loc hlookup
  have hrecord := hsound hash loc hlookup
  refine ⟨hrecord, fun hleaving ↦ ?_⟩
  obtain ⟨_, hstripe, -⟩ := bind_eq_some_iff.1 hrecord
  have hlt : loc.segmentId < d.pool.nextSegmentId := by
    by_contra hge
    rw [hfanned.stripes _ (Nat.le_of_not_lt hge)] at hstripe
    cases hstripe
  have hsome : (d.pool.stripes loc.segmentId).isSome := by simp [hstripe]
  have hany := hlisted _ hlt hsome hleaving
  exact mem_filter.2 ⟨mem_range.2 hlt, by simpa [hsome, hleaving] using hany⟩

theorem Apart.unstripeAll {todo : List SegmentId} (h : d.Apart d.leaving (id :: todo))
    (hfanned : d.pool.Fanned params) (hrecords : d.pool.stripes id = some records)
    (failed : List VdevId) (call : Option (DetachPhase Hash)) :
    Apart ⟨d.pool.unstripeAll id records failed, d.count, fun i ↦ if i = id then [] else d.shards i, call⟩
      d.leaving todo := by
  obtain ⟨-, -, -, hstriped⟩ := hfanned.unstripeAll failed hrecords
  intro hash loc hlookup
  obtain ⟨hold, hstays⟩ := hstriped hash loc hlookup
  obtain ⟨hrecord, hshards⟩ := h hash loc hold
  obtain ⟨hne, hstay⟩ := hstays hrecord
  refine ⟨hstay, fun hleaving ↦ ?_⟩
  simp only [if_neg hne] at hleaving
  exact (mem_cons.1 (hshards hleaving)).resolve_left hne

/-- A step of the call, up to the removal of the slot. -/
theorem Guarded.advance (h : d.Guarded params) {failed : List VdevId}
    (hC : d.DetachesSafely (.advance failed ok)) (hphase : d.call = some phase)
    (hstep : d.advance params failed ok phase = some t) :
    t.Guarded params ∧ (Holds failed d t ∨ phase = .roll [] ∧ t = (d.setPool (d.pool.eraseVdev d.count)).setCall none) := by
  have hsafe := h.safe phase hphase
  have hserve := fun shard ↦ hsafe.serve (h.fanned.flush (.shard shard) ok).2
  have hkeep : ∀ call, t = d.setCall call → (∀ phase', call = some phase' → d.PhaseSafe phase') →
      t.Guarded params ∧ (Holds failed d t ∨ phase = .roll [] ∧
        t = (d.setPool (d.pool.eraseVdev d.count)).setCall none) := by
    rintro _ rfl hnext
    obtain ⟨hguarded, hholds⟩ := h.setCall failed hnext
    exact ⟨hguarded, .inl hholds⟩
  unfold Detaching.advance at hstep
  split at hstep
  case h_1 shard todo =>
    cases hstep
    have hnext : (d.setPool (d.pool.flush (.shard shard) ok)).PhaseSafe (.unstripeFlush todo) := hserve shard
    exact (h.flushShard failed hnext).imp_right .inl
  case h_2 =>
    refine hkeep _ (some.inj hstep).symm ?_
    rintro _ ⟨⟩
    simp only [DetachesSafely, hphase] at hC
    exact apart_namedStripes h.fanned hsafe hC
  case h_3 id todo =>
    split at hstep
    case h_1 records hrecords =>
      split at hstep
      case isTrue =>
        cases hstep
        obtain ⟨hfanned, hkept, honline, -⟩ := h.fanned.unstripeAll failed hrecords
        refine ⟨⟨hfanned, ?_⟩, .inl ⟨rfl, hkept, fun v hv hnot ↦ ?_⟩⟩
        · rintro _ ⟨⟩
          exact Apart.unstripeAll hsafe h.fanned hrecords failed _
        · exact honline ▸ mem_filter.2 ⟨hv, by simpa using hnot⟩
      case isFalse => exact hkeep none (some.inj hstep).symm (by simp)
    case h_2 => exact hkeep none (some.inj hstep).symm (by simp)
  case h_4 =>
    refine hkeep _ (some.inj hstep).symm fun phase' hnext ↦ PhaseSafe.resilverNext h.fanned hsafe ?_ hnext
    exact fun u hu hne ↦ .inl (mem_filter.2 ⟨hu, by simpa using hne⟩)
  case h_5 shard todo v rest =>
    cases hstep
    have hnext : (d.setPool (d.pool.flush (.shard shard) ok)).PhaseSafe (.resilverFlush todo v rest) := hserve shard
    exact (h.flushShard failed hnext).imp_right .inl
  case h_6 v rest =>
    refine hkeep _ (some.inj hstep).symm ?_
    rintro _ ⟨⟩
    refine ⟨hsafe.1, hsafe.2.imp rfl fun u hu ↦ ⟨hu, fun hnamed ↦ ?_⟩⟩
    rcases hnamed with hmem | hwalk
    · rcases mem_cons.1 hmem with rfl | hmem
      · exact .inr (.inr ⟨rfl, fun _ ↦ walked_indexedHashes _ _⟩)
      · exact .inl hmem
    · exact .inr (.inl hwalk)
  case h_7 unrecoverable v rest =>
    refine hkeep _ (some.inj hstep).symm fun phase' hnext ↦ ?_
    obtain ⟨hfalse, hnext⟩ := ite_none_left_eq_some.1 hnext
    refine PhaseSafe.resilverNext h.fanned hsafe.1 (hsafe.2.imp rfl fun u hu ↦ ⟨hu, Or.imp_right ?_⟩) hnext
    rintro (hwalk | ⟨-, hwalk⟩)
    · exact hwalk
    · exact hwalk (Bool.not_eq_true _ ▸ hfalse)
  case h_8 shard todo =>
    cases hstep
    obtain ⟨hapart, hnamed, hlanded⟩ := hserve shard
    have hnext : ∀ shard' ∉ todo, (d.pool.flush (.shard shard) ok).Landed (.shard shard') := by
      intro shard' hshard
      by_cases heq : shard' = shard
      · subst heq
        intro e he
        simp [flush, setPending] at he
      · exact hlanded shard' fun hmem ↦ (mem_cons.1 hmem).elim heq hshard
    have hflushed : (d.setPool (d.pool.flush (.shard shard) ok)).PhaseSafe (.scrubFlush todo) :=
      ⟨hapart, hnamed, hnext⟩
    exact (h.flushShard failed hflushed).imp_right .inl
  case h_9 =>
    obtain ⟨hapart, hnamed, hlanded⟩ := hsafe
    refine hkeep _ (some.inj hstep).symm fun phase' hnext ↦ ?_
    refine PhaseSafe.scrubNext hapart hnamed (fun stream ↦ ?_) (fun _ u hu _ ↦ .inl hu) hnext
    cases stream with
    | shard id => exact hlanded id not_mem_nil
    | metadata => exact h.fanned.landed (by simp)
  case h_10 unrecoverable v rest =>
    obtain ⟨hapart, hnamed, hlanded, hserved⟩ := hsafe
    refine hkeep _ (some.inj hstep).symm fun phase' hnext ↦ ?_
    refine PhaseSafe.scrubNext hapart hnamed hlanded (fun hfalse ↦ (hserved hfalse).imp rfl fun u hu ↦
      ⟨hu, Or.imp_right ?_⟩) hnext
    rintro (hwalk | ⟨-, hwalk⟩)
    · exact hwalk
    · exact hwalk
  case h_11 stream todo =>
    cases hstep
    obtain ⟨hfanned, hserves⟩ := h.fanned.moves (moves_closeSegment (D := fun _ _ _ _ ↦ True) ok trivial)
    obtain ⟨hapart, hlanded, hserved, hrolled⟩ := hsafe.serve hserves
    refine ⟨Guarded.proceed hfanned fun _ hnext ↦ ?_, .inl ⟨rfl, hserves.records, fun v hv hnot ↦
      mem_online_moves (moves_closeSegment ok hnot) hv⟩⟩
    obtain ⟨hdone, ⟨⟩⟩ := ite_none_right_eq_some.1 hnext
    refine ⟨hapart, hlanded, hserved, fun stream' hstream w hw ↦ ?_⟩
    by_cases heq : stream' = stream
    · subst heq
      cases hw.symm.trans (closeSegment_done hdone).1
    · exact hrolled stream' (fun hmem ↦ (mem_cons.1 hmem).elim heq hstream) w hw
  case h_12 =>
    cases hstep
    obtain ⟨-, -, -, hrolled⟩ := hsafe
    refine ⟨Guarded.proceed (h.fanned.eraseVdev fun stream w hw ↦ hrolled stream not_mem_nil w hw) (by simp),
      .inr ⟨rfl, rfl⟩⟩
  case h_13 => cases hstep

/-- A heal finds no source, copies the record, or ends the call. -/
theorem heal_cases (d : Detaching Hash) (vdev : VdevId) (hash : Hash) (ok : Bool) (healed unsourced : DetachPhase Hash) :
    d.heal vdev hash ok healed unsourced = d.setCall (some unsourced) ∨
      (∃ kind, d.pool.source vdev hash = some kind ∧ d.heal vdev hash ok healed unsourced =
        (d.setPool (d.pool.healOnto vdev kind hash)).setCall (some healed)) ∨
      d.heal vdev hash ok healed unsourced = d.setCall none := by
  unfold Detaching.heal
  split
  case h_1 => exact .inl rfl
  case h_2 kind hsource =>
    split_ifs
    · exact .inr (.inl ⟨kind, hsource, rfl⟩)
    · exact .inr (.inr rfl)

/-- A heal within a walk. -/
theorem Guarded.heal (h : d.Guarded params) (hphase : d.call = some phase) {healed unsourced : DetachPhase Hash}
    (hhealed : ∀ kind, (d.setPool (d.pool.healOnto v kind hash)).PhaseSafe phase →
      (d.pool.healOnto v kind hash).Present v hash → (d.setPool (d.pool.healOnto v kind hash)).PhaseSafe healed)
    (hunsourced : d.PhaseSafe unsourced) :
    (d.heal v hash ok healed unsourced).Guarded params ∧ Holds [] d (d.heal v hash ok healed unsourced) := by
  rcases heal_cases d v hash ok healed unsourced with heq | ⟨kind, hsource, heq⟩ | heq
  · rw [heq]
    exact h.setCall [] (by rintro _ ⟨⟩; exact hunsourced)
  · obtain ⟨hfanned, hserves, hpresent⟩ := h.fanned.healOnto v kind (indexed_of_source hsource)
    rw [heq]
    refine ⟨Guarded.proceed hfanned ?_, rfl, hserves.records, fun u hu _ ↦ ?_⟩
    · rintro _ ⟨⟩
      exact hhealed kind ((h.safe phase hphase).serve hserves) hpresent
    · unfold setPool Detaching.setCall healOnto
      dsimp only
      split_ifs
      · exact hu
      · exact hu
  · rw [heq]
    exact h.setCall [] (by simp)

/-- A resilver goes past a hash. -/
theorem PhaseSafe.resilver_erase (h : d.PhaseSafe (.resilver todo unrecoverable v rest))
    (hnamed : unrecoverable' = false → unrecoverable = false ∧ d.pool.NamedAt v hash) :
    d.PhaseSafe (.resilver (todo.erase hash) unrecoverable' v rest) := by
  refine ⟨h.1, h.2.imp rfl fun u hu ↦ ⟨hu, Or.imp_right (Or.imp_right ?_)⟩⟩
  rintro ⟨rfl, hwalk⟩
  exact ⟨rfl, fun hfalse ↦ (hwalk (hnamed hfalse).1).erase fun _ ↦ (hnamed hfalse).2⟩

/-- A scrub goes past a hash that the index names on its device or that the device does have. -/
theorem PhaseSafe.scrub_erase (h : d.PhaseSafe (.scrub todo unrecoverable v rest))
    (hserved : unrecoverable' = false → unrecoverable = false ∧
      (v ≠ d.leaving → d.pool.NamedAt v hash → d.pool.ServedAt v hash)) :
    d.PhaseSafe (.scrub (todo.erase hash) unrecoverable' v rest) := by
  obtain ⟨hapart, hnamed, hlanded, hwalks⟩ := h
  refine ⟨hapart, hnamed, hlanded, fun hfalse u hu hne ↦ ?_⟩
  obtain ⟨hfalse', hserve⟩ := hserved hfalse
  refine (hwalks hfalse' u hu hne).imp_right (Or.imp_right ?_)
  rintro ⟨rfl, hwalk⟩
  exact ⟨rfl, hwalk.erase fun hindexed ↦ hserve hne ((hnamed u hu hne hash hindexed).resolve_left not_mem_nil)⟩

theorem Guarded.visit (h : d.Guarded params)
    (hphase : d.call = some phase) (hstep : d.visit hash ok phase = some t) : t.Guarded params ∧ Holds [] d t := by
  have hsafe := h.safe phase hphase
  unfold Detaching.visit at hstep
  split at hstep
  case h_1 todo unrecoverable v rest =>
    obtain ⟨-, hstep⟩ := ite_none_left_eq_some.1 hstep
    split at hstep
    case isTrue hnamed =>
      cases hstep
      refine h.setCall [] ?_
      rintro _ ⟨⟩
      exact hsafe.resilver_erase fun hfalse ↦ ⟨hfalse, hnamed.elim (fun hentry ↦ .inr (.inl hentry)) .inl⟩
    case isFalse =>
      cases hstep
      refine h.heal hphase (fun kind hnext hpresent ↦ ?_) (hsafe.resilver_erase (by simp))
      exact hnext.resilver_erase fun hfalse ↦ ⟨hfalse, .inr (.inr hpresent)⟩
  case h_2 todo unrecoverable v rest =>
    obtain ⟨-, hstep⟩ := ite_none_left_eq_some.1 hstep
    split at hstep
    case isTrue hverified =>
      cases hstep
      refine h.setCall [] ?_
      rintro _ ⟨⟩
      refine hsafe.scrub_erase fun hfalse ↦ ⟨hfalse, fun _ hnamed ↦ ?_⟩
      rcases hnamed with hstriped | hentry | hpresent
      · exact .inl hstriped
      · rcases hverified with hstriped | hverifies
        · exact .inl hstriped
        · obtain ⟨loc, hlookup⟩ := isSome_iff_exists.1 hentry
          rw [hlookup, all_some] at hverifies
          obtain ⟨-, hrecord⟩ := Bool.and_eq_true_iff.1 hverifies
          exact .inr ⟨loc, eq_of_beq hrecord⟩
      · exact .inr hpresent
    case isFalse =>
      cases hstep
      refine h.heal hphase (fun _ hnext hpresent ↦ ?_) (hsafe.scrub_erase fun hfalse ↦ ?_)
      · exact hnext.scrub_erase fun hfalse ↦ ⟨hfalse, fun _ _ ↦ .inr hpresent⟩
      · simp only [Bool.or_eq_false_iff, decide_eq_false_iff_not, not_not] at hfalse
        exact ⟨hfalse.1, fun hne ↦ absurd hfalse.2 hne⟩
  case h_3 => cases hstep

/-- Every step keeps the slots and the records, but for the removal of the slot and the erasure of
its device. -/
theorem Guarded.step (h : d.Guarded params) {a : DetachAction Hash} (hC : d.DetachesSafely a)
    (hstep : d.step params a = some t) : t.Guarded params ∧ (a ≠ .remove ∧ Holds a.failed d t ∨
      d.call = some .remove ∧ a = .remove ∧ t = ⟨d.pool.fault [d.leaving], d.leaving, d.shards, some (.roll params.streams)⟩ ∨
      d.call = some (.roll []) ∧ a ≠ .remove ∧ (∃ v, v ∈ d.pool.online) ∧
        t = (d.setPool (d.pool.eraseVdev d.count)).setCall none) := by
  cases a with
  | write =>
    obtain ⟨ha, hwrite⟩ := ite_none_right_eq_some.1 hstep
    obtain ⟨_, hpool, rfl⟩ := map_eq_some_iff.1 hwrite
    obtain ⟨hfanned, hserves⟩ := h.fanned.write ha hpool
    exact ⟨⟨hfanned, fun phase hphase ↦ (h.safe phase hphase).serve hserves⟩,
      .inl ⟨by simp, rfl, hserves.records, fun v ↦ online_write ha hpool⟩⟩
  | detachVdevLive =>
    obtain ⟨-, ⟨⟩⟩ := ite_none_right_eq_some.1 hstep
    refine (h.setCall [] ?_).imp_right fun hholds ↦ .inl ⟨by simp, hholds⟩
    rintro _ ⟨⟩ hash loc hlookup
    exact hC ((hash, .striped), loc) (mem_toList.2 hlookup) rfl
  | advance =>
    obtain ⟨_, hphase, hadvance⟩ := bind_eq_some_iff.1 hstep
    obtain ⟨hguarded, hholds | ⟨rfl, ht⟩⟩ := h.advance hC hphase hadvance
    · exact ⟨hguarded, .inl ⟨by simp, hholds⟩⟩
    · simp only [DetachesSafely, hphase] at hC
      exact ⟨hguarded, .inr (.inr ⟨hphase, by simp, exists_mem_of_ne_nil _ hC, ht⟩)⟩
  | visit =>
    obtain ⟨_, hphase, hvisit⟩ := bind_eq_some_iff.1 hstep
    exact (h.visit hphase hvisit).imp_right fun hholds ↦ .inl ⟨by simp, hholds⟩
  | remove =>
    obtain ⟨_, hphase, hremove⟩ := bind_eq_some_iff.1 hstep
    split at hremove
    case h_1 =>
      cases hremove
      obtain ⟨hfanned, hserves⟩ := h.fanned.fault [d.leaving]
      obtain ⟨hapart, hlanded, hserved⟩ := (h.safe _ hphase).serve hserves
      refine ⟨⟨hfanned, ?_⟩, .inr (.inl ⟨hphase, rfl, rfl⟩)⟩
      rintro _ ⟨⟩
      refine ⟨hapart, hlanded, fun u hu ↦ ?_, fun stream hstream w hw ↦ ?_⟩
      · have hne : u ≠ d.leaving := by simpa using (mem_filter.1 hu).2
        exact ⟨hne, hserved u hu hne⟩
      · exact absurd (h.fanned.streams stream w hw) hstream
    case h_2 => cases hremove

theorem guarded_of_reachable (h : (detaching Hash params).ReachableUnder DetachesSafely d) : d.Guarded params :=
  h.invariant (fun _ hinit ↦ ⟨hinit.1, by simp [hinit.2]⟩) fun _ _ _ _ hinv hC hstep ↦ (hinv.step hC hstep).1

/-- A hash that is not lost with a device: a verified copy is on another online device, or the
record is in a stripe with no shard on the device. -/
def Survives (d : Detaching Hash) (v : VdevId) (hash : Hash) : Prop :=
  (∃ u ∈ d.pool.online, u ≠ v ∧ d.pool.Present u hash) ∨
    ∃ loc, d.pool.index.entries.lookup (hash, .striped) = some loc ∧ d.pool.recordAt .striped loc = some hash ∧
      v ∉ d.shards loc.segmentId

theorem survives_of_served (hapart : d.Apart v []) {u : VdevId} (hu : u ∈ d.pool.online) (hne : u ≠ v)
    (hserved : d.pool.Walked [] (d.pool.ServedAt u)) (hindexed : d.pool.indexed hash = true) : d.Survives v hash := by
  rcases (hserved hash hindexed).resolve_left not_mem_nil with hstriped | hpresent
  · obtain ⟨loc, hlookup⟩ := isSome_iff_exists.1 hstriped
    obtain ⟨hrecord, hshards⟩ := hapart hash loc hlookup
    exact .inr ⟨loc, hlookup, hrecord, fun hmem ↦ not_mem_nil (hshards hmem)⟩
  · exact .inl ⟨u, hu, hne, hpresent⟩

/-- The record of a hash that the index names on two devices is damaged on the first. -/
def damaged (online : List VdevId) : Detaching Nat where
  pool := { State.created with
    segments := fun v id ↦ if id = 0 then some (.complete .data (.shard 0) [if v = 1 then 7 else 6]) else none
    index := ⟨Entries.putAll ∅ [((7, .vdev 0), ⟨0, 0⟩), ((7, .vdev 1), ⟨0, 0⟩)], 0⟩
    nextSegmentId := 1
    online := online }
  count := 2
  shards _ := []
  call := none

theorem damaged_init (online : List VdevId) : (detaching Nat twoDevices).init (damaged online) := by
  refine ⟨⟨⟨fun v _ hid ↦ ?_, by simp [damaged, created], by simp [damaged, created],
    by simp [damaged, created], by simp [damaged, created]⟩, by simp [damaged, created],
    by simp [damaged, created], by simp [damaged, created], fun _ _ ↦ rfl⟩, rfl⟩
  exact if_neg (Nat.ne_of_gt hid)

/-- The detach of device 1: the walks of these devices visit the record, and the phases between
them pass. -/
def detachRun (resilvered scrubbed : List VdevId) : List (DetachAction Nat) :=
  .detachVdevLive :: List.replicate 3 (.advance [] true) ++
    resilvered.flatMap (fun _ ↦ [.advance [] true, .advance [] true, .visit 7 true, .advance [] true]) ++
    [.advance [] true, .advance [] true] ++ scrubbed.flatMap fun _ ↦ [.visit 7 true, .advance [] true]

end Detaching

end Lchfs.Index
