import Lchfs.Index.Records

/-!
# What a writer's step does

Each step opens a segment, appends to the copies its devices still have, syncs or seals them,
hands batches to the index, and drops the devices that fail. `Move` has a case for each thing a
step does under its lock, and a step is a few moves in a row. What a move keeps is said once
for each property, and `Moves.rel` takes it to the steps.
-/

namespace Lchfs.Index

open Lchfs.Format (ShardId SegmentId)
open Lchfs.Library
open List Option

namespace Writer

variable (w : Writer) (failed : List VdevId)

/-- The devices of an open segment that do not fail. -/
abbrev live : List VdevId :=
  w.vdevs.filter (· ∉ failed)

/-- The devices of an open segment that fail. -/
abbrev dead : List VdevId :=
  w.vdevs.filter (· ∈ failed)

theorem mem_of_live : ∀ v ∈ w.live failed, v ∈ w.vdevs :=
  fun _ hv ↦ mem_of_mem_filter hv

end Writer

namespace State

variable {Hash : Type} {s t u : State Hash} {vdevs : List VdevId} {v : VdevId} {id : SegmentId}
  {f : Segment Hash → Segment Hash}

/-- The segments and the open writers are the same. -/
structure SameWriters (s t : State Hash) : Prop where
  segments : t.segments = s.segments
  writers : t.writers = s.writers
  next : t.nextSegmentId = s.nextSegmentId

theorem SameWriters.recordAt (h : SameWriters s t) (v : VdevId) (loc : Location) :
    t.recordAt (.vdev v) loc = s.recordAt (.vdev v) loc := by
  simp [State.recordAt, h.segments]

theorem SameWriters.durableAt (h : SameWriters s t) (v : VdevId) (loc : Location) :
    t.durableAt (.vdev v) loc = s.durableAt (.vdev v) loc := by
  simp [State.durableAt, h.segments]

theorem sameWriters_fault (failed : List VdevId) : SameWriters s (s.fault failed) :=
  ⟨rfl, rfl, rfl⟩

/-- An append to the copies on `vdevs`, which is where the writer goes on. -/
def appendTo (s : State Hash) (stream : Stream) (w : Writer) (vdevs : List VdevId) (hash : Hash) : State Hash :=
  (s.updateSegment vdevs w.segmentId (·.append hash)).setWriter stream
    (some ⟨w.segmentId, vdevs, w.cursor + 1⟩)

/-- A sync of the copies on `vdevs`, which is where the writer goes on. -/
def syncOn (s : State Hash) (stream : Stream) (w : Writer) (vdevs : List VdevId) : State Hash :=
  (s.updateSegment vdevs w.segmentId Segment.fsync).setWriter stream (some { w with vdevs := vdevs })

/-- The copies on `vdevs` are sealed, and the writer is gone. -/
def closeOn (s : State Hash) (stream : Stream) (w : Writer) (vdevs : List VdevId) : State Hash :=
  (s.updateSegment vdevs w.segmentId Segment.sealed).setWriter stream none

/-- A new segment on `vdevs` and its writer. -/
def openOn (s : State Hash) (stream : Stream) (vdevs : List VdevId) : State Hash :=
  (s.createSegment vdevs ⟨stream.kind, stream, [], false, 0⟩).setWriter stream
    (some ⟨s.nextSegmentId, vdevs, 0⟩)

theorem segments_updateSegment {i : SegmentId} {seg : Segment Hash}
    (h : (s.updateSegment vdevs id f).segments v i = some seg) :
    (s.segments v i = some seg ∧ ¬(i = id ∧ v ∈ vdevs)) ∨
      i = id ∧ v ∈ vdevs ∧ ∃ old, s.segments v id = some old ∧ seg = f old := by
  simp only [updateSegment] at h
  split_ifs at h with heq
  · obtain ⟨rfl, hv⟩ := heq
    obtain ⟨old, hold, rfl⟩ := map_eq_some_iff.1 h
    exact .inr ⟨rfl, hv, old, hold, rfl⟩
  · exact .inl ⟨h, heq⟩

theorem segments_updateSegment_of_mem (h : v ∈ vdevs) :
    (s.updateSegment vdevs id f).segments v id = (s.segments v id).map f := by
  simp [updateSegment, h]

/-- An append puts the record at the cursor. -/
theorem recordAt_append {w : Writer} (hash : Hash) (hv : v ∈ vdevs)
    (hcursor : ∃ seg, s.segments v w.segmentId = some seg ∧ seg.records.length = w.cursor) :
    (s.updateSegment vdevs w.segmentId (·.append hash)).recordAt (.vdev v) ⟨w.segmentId, w.cursor⟩ = some hash := by
  obtain ⟨seg, hseg, hlen⟩ := hcursor
  refine recordAt_vdev.2 ⟨seg.append hash, ?_, by simp [Segment.append, ← hlen]⟩
  exact (segments_updateSegment_of_mem hv).trans (congrArg (Option.map (·.append hash)) hseg)

theorem updateSegment_nil (id : SegmentId) (f : Segment Hash → Segment Hash) : s.updateSegment [] id f = s := by
  simp [updateSegment]

variable [DecidableEq Hash] {params : Params} {stream : Stream} {failed : List VdevId} {ok : Bool} {hash : Hash}

theorem sameWriters_flush (stream : Stream) (ok : Bool) : SameWriters s (s.flush stream ok) := by
  cases ok with
  | false => exact ⟨rfl, rfl, rfl⟩
  | true => exact ⟨rfl, rfl, rfl⟩

theorem online_flush (stream : Stream) (ok : Bool) : (s.flush stream ok).online = s.online := by
  cases ok with
  | false => rfl
  | true => rfl

omit [DecidableEq Hash] in
theorem openSegment_eq_some (h : s.openSegment stream failed = some t) :
    s.writers stream = none ∧ t.online = s.online.filter (· ∉ failed) ∧
      SameWriters (s.openOn stream (s.online.filter (· ∉ failed))) t := by
  obtain ⟨hguard, ⟨⟩⟩ := ite_none_right_eq_some.1 h
  exact ⟨isNone_iff_eq_none.1 hguard.1, rfl, ⟨rfl, rfl, rfl⟩⟩

/-! ## Moves -/

/-- One thing that a step of a writer does. `D` is what is known of the devices that fail the open
segment of a stream, also when its writer goes. It goes when the batch of its stream is handed over,
or when no device is left. -/
inductive Move (D : Bool → State Hash → Stream → List VdevId → Prop) (s : State Hash) : State Hash → Prop
  | acknowledge (hash : Hash) : Move D s (s.acknowledge hash)
  | flush (stream : Stream) (ok : Bool) : Move D s (s.flush stream ok)
  | sync {stream : Stream} {w : Writer} {failed : List VdevId} (hw : s.writers stream = some w)
    (hD : D false s stream failed) : Move D s ((s.syncOn stream w (w.live failed)).fault (w.dead failed))
  | close {stream : Stream} {w : Writer} {failed : List VdevId} (hw : s.writers stream = some w)
    (hD : D true s stream failed) (hempty : s.pendingIndex stream = [] ∨ w.live failed = []) :
    Move D s ((s.closeOn stream w (w.live failed)).fault (w.dead failed))
  | append {shard : ShardId} {w : Writer} {failed : List VdevId} {first : VdevId} {rest : List VdevId}
    (hw : s.writers (.shard shard) = some w) (hD : D false s (.shard shard) failed)
    (hlive : w.live failed = first :: rest) (hash : Hash) :
    Move D s (((s.fault (w.dead failed)).land (.shard shard) w (first :: rest) first hash).setPending (.shard shard)
      (s.pendingIndex (.shard shard) ++ [⟨hash, ⟨w.segmentId, w.cursor⟩, first :: rest⟩]))
  | putMeta {w : Writer} {failed : List VdevId} {first : VdevId} {rest : List VdevId}
    (hw : s.writers .metadata = some w) (hD : D false s .metadata failed) (hlive : w.live failed = first :: rest)
    (hash : Hash) (puts : Nat) :
    Move D s (((s.fault (w.dead failed)).land .metadata w (first :: rest) first hash).putIndex
      ((entriesOf [⟨hash, ⟨w.segmentId, w.cursor⟩, first :: rest⟩]).take puts))

abbrev Moves (D : Bool → State Hash → Stream → List VdevId → Prop) : State Hash → State Hash → Prop :=
  Relation.ReflTransGen (Move D)

variable {D : Bool → State Hash → Stream → List VdevId → Prop}

/-- What every move keeps, and what a relation says of every move, a step keeps and it says of the
step. -/
theorem Moves.rel {I : State Hash → Prop} {R : State Hash → State Hash → Prop} (h : Moves D s t)
    (hrefl : ∀ s, R s s) (htrans : ∀ {s t u}, R s t → R t u → R s u)
    (hmove : ∀ {s t}, I s → Move D s t → I t ∧ R s t) (hs : I s) : I t ∧ R s t := by
  induction h with
  | refl => exact ⟨hs, hrefl s⟩
  | tail _ hstep ih =>
    obtain ⟨hnext, hrel⟩ := hmove ih.1 hstep
    exact ⟨hnext, htrans ih.2 hrel⟩

theorem moves_finishAppend (shard : ShardId) (hash : Hash) (ok : Bool) :
    Moves D s (s.finishAppend params shard hash ok) := by
  unfold finishAppend
  split_ifs
  · exact .tail (.single (.flush (.shard shard) true)) (.acknowledge hash)
  · exact .single (.flush (.shard shard) false)
  · exact .single (.acknowledge hash)

theorem moves_append {shard : ShardId} (hD : ∀ gone, D gone s (.shard shard) failed)
    (h : s.append params shard hash failed ok = some t) : Moves D s t := by
  obtain ⟨w, hw, rfl⟩ := map_eq_some_iff.1 h
  dsimp only
  split
  next hlive =>
    have hclose := Move.close hw (hD true) (.inr hlive)
    rw [show w.live failed = [] from hlive, closeOn, updateSegment_nil] at hclose
    exact .single hclose
  next hlive =>
    exact .head (.append hw (hD false) hlive hash) (moves_finishAppend shard hash ok)

theorem moves_fsync (ok : Bool) (hD : D false s stream failed) : Moves D s (s.fsync stream failed ok) := by
  unfold fsync
  split
  · exact .single (.flush stream ok)
  next w hw =>
    have hsync : Moves D s _ := .single (.sync hw hD)
    dsimp only
    split_ifs
    · exact hsync
    · exact hsync.tail (.flush stream ok)

theorem moves_closeSegment (ok : Bool) (hD : D true (s.flush stream ok) stream failed) :
    Moves D s (s.closeSegment stream failed ok) := by
  have hflush : Moves D s (s.flush stream ok) := .single (.flush stream ok)
  unfold closeSegment
  dsimp only
  split_ifs
  · split
    · exact hflush
    next w hw =>
      refine hflush.tail (.close ?_ hD (.inl ?_))
      · rw [(sameWriters_flush stream ok).writers, hw]
      · simp [flush, setPending]
  · exact hflush

theorem moves_putMeta {reuse : Bool} {puts : Nat} (hD : D false s .metadata failed)
    (h : s.putMeta hash reuse failed puts = some t) : Moves D s t := by
  unfold putMeta at h
  split_ifs at h
  · cases h
    exact .single (.acknowledge hash)
  · obtain ⟨w, hw, rfl⟩ := map_eq_some_iff.1 h
    dsimp only
    split
    next hlive =>
      have hsync := Move.sync hw hD
      rw [show w.live failed = [] from hlive, syncOn, updateSegment_nil] at hsync
      exact .single hsync
    next hlive =>
      have hput : Moves D s _ := .single (.putMeta hw hD hlive hash puts)
      split_ifs
      · exact hput.tail (.acknowledge hash)
      · exact hput

end State

end Lchfs.Index
