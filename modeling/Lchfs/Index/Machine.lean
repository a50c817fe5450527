import Lchfs.Index.State

/-!
# The index machine

Writers, the coalescer with its repacks and stripe conversions, promotions, checkpoints,
crashes and mounts, as far as they touch records, the index and the location cache. A step is
what runs under one lock. What a step cannot know (which devices fail, whether an index write
succeeds, which records a pass finds live, whether its gate lets it go on, in which order a
scan meets the segments) comes with the action.

The dedup scanner, the attach and rejoin of devices and the rekeying of a pool are left out.
-/

namespace Lchfs.Index

open Lchfs.Format (ShardId SegmentId)
open Lchfs.Library

namespace State

variable {Hash : Type} [DecidableEq Hash] (params : Params) (s : State Hash)

/-! ## Writers -/

/-- `open_segment`: on the online devices that do not fail. -/
def openSegment (stream : Stream) (failed : List VdevId) : Option (State Hash) :=
  let vdevs := s.online.filter (· ∉ failed)
  if (s.writers stream).isNone ∧ vdevs ≠ [] then
    some (((s.createSegment vdevs ⟨stream.kind, stream, [], false, 0⟩).setWriter stream
      (some ⟨s.nextSegmentId, vdevs, 0⟩)).fault failed)
  else none

/-- The index entries of landed records, one for each device. -/
def entriesOf (records : List (IndexEntry Hash)) : List ((Hash × Tag) × Location) :=
  records.flatMap fun e ↦ e.vdevs.map fun v ↦ ((e.hash, .vdev v), e.location)

/-- `flush_index`: the batch is gone whether or not the index took it. -/
def flush (stream : Stream) (ok : Bool) : State Hash :=
  (if ok then s.putIndex (entriesOf (s.pendingIndex stream)) else s).setPending stream []

/-- Nothing is written for an empty batch. -/
def flushSucceeds (stream : Stream) (ok : Bool) : Bool :=
  ok || (s.pendingIndex stream).isEmpty

/-- Appends to the devices of an open segment that do not fail, and moves the cache to the new
copy. -/
def land (stream : Stream) (w : Writer) (vdevs : List VdevId) (first : VdevId) (hash : Hash) :
    State Hash :=
  ((s.updateSegment vdevs w.segmentId (·.append hash)).setWriter stream
    (some ⟨w.segmentId, vdevs, w.cursor + 1⟩)).putCache hash ⟨w.segmentId, w.cursor⟩ (.vdev first)

/-- The record is acknowledged unless its batch is full and the index does not take it. -/
def finishAppend (shard : ShardId) (hash : Hash) (ok : Bool) : State Hash :=
  if params.batch ≤ (s.pendingIndex (.shard shard)).length then
    if ok then (s.flush (.shard shard) true).acknowledge hash else s.flush (.shard shard) false
  else s.acknowledge hash

/-- One round of `committer_loop`. -/
def append (shard : ShardId) (hash : Hash) (failed : List VdevId) (ok : Bool) :
    Option (State Hash) :=
  (s.writers (.shard shard)).map fun w ↦
    let u := s.fault (w.vdevs.filter (· ∈ failed))
    match w.vdevs.filter (· ∉ failed) with
    | [] => u.setWriter (.shard shard) none
    | first :: rest =>
      ((u.land (.shard shard) w (first :: rest) first hash).setPending (.shard shard)
        (s.pendingIndex (.shard shard) ++ [⟨hash, ⟨w.segmentId, w.cursor⟩, first :: rest⟩])).finishAppend
          params shard hash ok

/-- A dedup hit in `prepare_chunk`. -/
def dedupHit (hash : Hash) : Option (State Hash) :=
  if (s.cache hash).isSome then some (s.acknowledge hash) else none

/-- Syncs an open segment on the devices that do not fail, then flushes its batch. -/
def fsync (stream : Stream) (failed : List VdevId) (ok : Bool) : State Hash :=
  match s.writers stream with
  | none => s.flush stream ok
  | some w =>
    let vdevs := w.vdevs.filter (· ∉ failed)
    let u := ((s.updateSegment vdevs w.segmentId Segment.fsync).setWriter stream
      (some { w with vdevs := vdevs })).fault (w.vdevs.filter (· ∈ failed))
    if vdevs = [] then u else u.flush stream ok

/-- `close_segment`: the batch first, then the seal. -/
def closeSegment (stream : Stream) (failed : List VdevId) (ok : Bool) : State Hash :=
  let u := s.flush stream ok
  if s.flushSucceeds stream ok then
    match s.writers stream with
    | none => u
    | some w =>
      ((u.updateSegment (w.vdevs.filter (· ∉ failed)) w.segmentId Segment.sealed).setWriter stream
        none).fault (w.vdevs.filter (· ∈ failed))
  else u

/-- `is_meta_record` of a cache entry. -/
def isMetaRecord : Option (Location × Tag) → Bool
  | some (loc, .vdev v) => (s.segments v loc.segmentId).any (·.kind = .metadata)
  | _ => false

/-- `put_meta_encoded`: a cached meta record is reused if its segment can be opened; otherwise
the object is appended, cached, and put into the index device by device until a put fails. -/
def putMeta (hash : Hash) (reuse : Bool) (failed : List VdevId) (puts : Nat) : Option (State Hash) :=
  if reuse ∧ s.isMetaRecord (s.cache hash) then some (s.acknowledge hash)
  else
    (s.writers .metadata).map fun w ↦
      let u := s.fault (w.vdevs.filter (· ∈ failed))
      match w.vdevs.filter (· ∉ failed) with
      | [] => u.setWriter .metadata (some { w with vdevs := [] })
      | first :: rest =>
        let u := (u.land .metadata w (first :: rest) first hash).putIndex
          ((entriesOf [⟨hash, ⟨w.segmentId, w.cursor⟩, first :: rest⟩]).take puts)
        if (first :: rest).length ≤ puts then u.acknowledge hash else u

/-- `heal_one`: the copy is synced before the index is told, and the index is committed. -/
def heal (v : VdevId) (kind : StreamKind) (hash : Hash) : Option (State Hash) :=
  if v ∈ s.online then
    let loc : Location := ⟨s.nextSegmentId, 0⟩
    let u := ((s.createSegment [v] (.complete kind (.shard 0) [hash])).putIndex
      [((hash, .vdev v), loc)]).commitIndex
    some (if v = s.primary then u.putCache hash loc (.vdev v) else u)
  else none

/-! ## Rebuilding the index -/

/-- The records of one device, segment by segment. -/
def scan (v : VdevId) (order : List SegmentId) : List ((Hash × Tag) × Location) :=
  order.flatMap fun id ↦
    match s.segments v id with
    | some seg => (Segment.entries id seg.records).map fun (hash, loc) ↦ ((hash, .vdev v), loc)
    | none => []

/-- The records of the stripes that can be read. -/
def scanStripes (unreadable : List SegmentId) : List ((Hash × Tag) × Location) :=
  (List.range s.nextSegmentId).flatMap fun id ↦
    match s.stripes id with
    | some records =>
      if id ∈ unreadable then []
      else (Segment.entries id records).map fun (hash, loc) ↦ ((hash, .striped), loc)
    | none => []

/-- `rebuild_index`: what the file holds already stays, and every scan is put over it. -/
def rebuildIndex (file : Option (Index Hash)) (vdevs : List VdevId) (order : VdevId → List SegmentId)
    (unreadable : List SegmentId) (generation : Nat) : Index Hash where
  entries := Entries.putAll (Entries.putAll (file.elim ∅ Index.entries)
    (vdevs.flatMap fun v ↦ s.scan v (order v))) (s.scanStripes unreadable)
  generation := generation

/-- A scan meets every segment of every device. -/
def ScansAll (vdevs : List VdevId) (order : VdevId → List SegmentId) : Prop :=
  ∀ v ∈ vdevs, ∀ id < s.nextSegmentId, (s.segments v id).isSome → id ∈ order v

instance (vdevs : List VdevId) (order : VdevId → List SegmentId) :
    Decidable (s.ScansAll vdevs order) :=
  inferInstanceAs (Decidable (∀ v ∈ vdevs, ∀ id < s.nextSegmentId, _ → _))

/-- Takes an index into use, its file on this device committed, and warms the cache from it. -/
def useIndex (v : VdevId) (index : Index Hash) : State Hash :=
  { s with
    index := index
    indexHome := v
    indexFiles := fun w ↦ if w = v then some index else s.indexFiles w
    cache := index.entries.preferred }

/-- `promote_primary` up to the move of the role. -/
def promoteIndex (order : VdevId → List SegmentId) (unreadable : List SegmentId) :
    Option (State Hash) :=
  match s.online with
  | [] => none
  | v :: _ =>
    if s.primary ∉ s.online ∧ s.promoting.isNone ∧ s.ScansAll s.online order then
      some { s.useIndex v (s.rebuildIndex (s.indexFiles v) s.online order unreadable s.generation) with
        promoting := some v }
    else none

def promoteRole : Option (State Hash) :=
  s.promoting.map fun v ↦ { s with primary := v, promoting := none }

/-! ## The coalescer -/

/-- The records a pass keeps, by offset, and the hashes of the others. -/
def split (records : List Hash) (keep : List Nat) : List Hash × List Hash :=
  ((records.zipIdx.filter (·.2 ∈ keep)).map (·.1), (records.zipIdx.filter (·.2 ∉ keep)).map (·.1))

/-- `repack_segment` up to the copy: a sealed data segment of one device. -/
def beginRepack (v : VdevId) (oldId : SegmentId) (keep : List Nat) : Option (State Hash) :=
  if s.task.isNone ∧ v ∈ s.online then
    (s.segments v oldId).bind fun seg ↦
      if seg.isSealed ∧ seg.kind = .data then
        let (kept, dead) := split seg.records keep
        let r : Rewrite Hash :=
          ⟨.vdev v, oldId, s.nextSegmentId, Segment.entries s.nextSegmentId kept, dead, [v]⟩
        if kept = [] then some { s with task := some (.removeCache r) }
        else some { s.createSegment [v] (.complete .data seg.owner kept) with
          task := some (.repointIndex r) }
      else none
  else none

/-- `unstripe` up to the copy. -/
def beginUnstripe (id : SegmentId) (keep : List Nat) (failed : List VdevId) : Option (State Hash) :=
  if s.task.isNone then
    (s.stripes id).bind fun records ↦
      let (kept, dead) := split records keep
      let written := s.online.filter (· ∉ failed)
      let r : Rewrite Hash :=
        ⟨.striped, id, s.nextSegmentId, Segment.entries s.nextSegmentId kept, dead, written⟩
      if kept = [] then some { s with task := some (.removeCache { r with written := [] }) }
      else if written = [] then none
      else some { (s.createSegment written (.complete .data (.shard 0) kept)).fault failed with
        task := some (.removeCache r) }
  else none

/-- `stripe_cold_segments` up to `write_stripe`: the primary's copy is what the stripe holds. -/
def beginRestripe (id : SegmentId) : Option (State Hash) :=
  if s.task.isNone ∧ s.primary ∈ s.online ∧ params.width ≤ s.online.length ∧
      (s.stripes id).isNone then
    (s.segments s.primary id).bind fun seg ↦
      if seg.isSealed ∧ seg.kind = .data ∧ seg.records ≠ [] then
        some { s with
          stripes := fun i ↦ if i = id then some seg.records else s.stripes i
          task := some (.stripeIndex id seg.records s.online) }
      else none
  else none

/-- `remove_if_in` of the dead hashes: what it returns. -/
def removedFrom (r : Rewrite Hash) : List (Hash × Location × Tag) :=
  r.dead.filterMap fun hash ↦
    if s.cachedIn r.tag r.oldId hash then (s.cache hash).map (hash, ·) else none

/-- `repoint` of the index: a repack puts its copies over the old ones, the rewrite of a stripe
also erases the striped entries. -/
def repointIndex (r : Rewrite Hash) : State Hash :=
  match r.tag with
  | .vdev _ => (s.putIndex r.entries).commitIndex
  | .striped =>
    ((s.eraseIndex r.oldId (r.kept.map fun record ↦ (record.1, .striped))).putIndex
      r.entries).commitIndex

/-- A relocation on a device other than the primary is the index's business alone. -/
def repointCache (r : Rewrite Hash) : State Hash :=
  match r.tag, r.written with
  | .vdev v, _ => if v = s.primary then s.putCacheAll (.vdev v) r.kept else s
  | .striped, [] => s
  | .striped, first :: _ => s.putCacheAll (.vdev first) r.kept

/-- A dead record of a rewrite is reclaimed unless it is still indexed or in a batch; in a batch
that the checkpoint under way has yet to flush, if it was there when that began. -/
def reclaim (r : Rewrite Hash) : State Hash :=
  { s with
    acked := s.acked.filter fun h ↦ h ∉ r.dead ∨ s.indexed h ∨ s.pending params.shards h
    checkpoint := s.checkpoint.map fun c ↦
      { c with started := c.started.filter fun h ↦
          h ∉ r.dead ∨ s.indexed h ∨ s.pending (c.phase.unflushed params.shards) h } }

/-- `forget_segment_records`. -/
def forgetDead (r : Rewrite Hash) : State Hash :=
  ((s.eraseIndex r.oldId (r.dead.map fun h ↦ (h, r.tag))).commitIndex).reclaim params r

/-- Deletes the old copy of a rewrite. -/
def deleteOld (r : Rewrite Hash) : State Hash :=
  match r.tag with
  | .vdev v => s.removeSegment [v] r.oldId
  | .striped => { s with stripes := fun i ↦ if i = r.oldId then none else s.stripes i }

/-- Undoes a rewrite whose gate is closed: the new copy of a stripe goes, the copy of a repack
stays, since the index names it. -/
def backOff (r : Rewrite Hash) (removed : List (Hash × Location × Tag)) : State Hash :=
  match r.tag with
  | .vdev _ => s.restoreCache removed
  | .striped => (s.restoreCache removed).removeSegment r.written r.newId

/-- `restripe_segment`. -/
def restripeIndex (id : SegmentId) (records : List Hash) (targets : List VdevId) : State Hash :=
  ((s.eraseIndex id (records.flatMap fun h ↦ targets.map fun v ↦ (h, .vdev v))).putIndex
    ((Segment.entries id records).map fun (h, loc) ↦ ((h, .striped), loc))).commitIndex

def setTask (task : Option (Task Hash)) : State Hash :=
  { s with task := task }

/-- One step of the coalescer. `proceed` is what the gate of `forget_dead` finds. -/
def coalesceStep (proceed : Bool) : Option (State Hash) :=
  s.task.map fun
    | .repointIndex r => (s.repointIndex r).setTask (some (.repointCache r))
    | .repointCache r =>
      (s.repointCache r).setTask (some (if r.tag = .striped then .delete r else .removeCache r))
    | .removeCache r =>
      (s.removeCacheIn r.tag r.oldId r.dead).setTask (some (.gate r (s.removedFrom r)))
    | .gate r removed =>
      if proceed then s.setTask (some (.forget r)) else (s.backOff r removed).setTask none
    | .forget r =>
      (s.forgetDead params r).setTask
        (some (if r.tag = .striped then .repointIndex r else .delete r))
    | .delete r => (s.deleteOld r).setTask none
    | .stripeIndex id records targets =>
      (s.restripeIndex id records targets).setTask (some (.stripeCache id records targets))
    | .stripeCache id records targets =>
      (s.putCacheAll .striped (Segment.entries id records)).setTask (some (.stripeDelete id targets))
    | .stripeDelete id (v :: targets) =>
      (s.removeSegment [v] id).setTask (some (.stripeDelete id targets))
    | .stripeDelete _ [] => s.setTask none

/-- A pass that meets an error. Only a repack puts its entries one by one. -/
def coalesceError (puts : Nat) : Option (State Hash) :=
  s.task.map fun
    | .repointIndex r =>
      (if r.tag = .striped then s else s.putIndex (r.entries.take puts)).setTask none
    | _ => s.setTask none

/-! ## Checkpoints -/

def setCheckpoint (checkpoint : Option (Checkpoint Hash)) : State Hash :=
  { s with checkpoint := checkpoint }

def beginCheckpoint : Option (State Hash) :=
  if s.checkpoint.isNone then
    some (s.setCheckpoint (some ⟨.barrier params.shards, s.generation + 1, s.acked⟩))
  else none

/-- Whether a sync leaves the segment a device. -/
def fsyncSucceeds (stream : Stream) (failed : List VdevId) : Bool :=
  (s.writers stream).all fun w ↦ w.vdevs.any (· ∉ failed)

/-- The durable commit that claims a generation. -/
def checkpointIndex (generation : Nat) : State Hash :=
  { s with index := { s.index with generation := generation } }.commitIndex

/-- One step of a checkpoint; an error ends it. -/
def checkpointStep (failed : List VdevId) (ok : Bool) : Option (State Hash) :=
  s.checkpoint.map fun c ↦
    match c.phase with
    | .barrier (shard :: todo) =>
      (s.fsync (.shard shard) failed ok).setCheckpoint
        (if s.fsyncSucceeds (.shard shard) failed ∧ s.flushSucceeds (.shard shard) ok then
          some { c with phase := .barrier todo } else none)
    | .barrier [] => s.setCheckpoint (some { c with phase := .metaBarrier })
    | .metaBarrier =>
      (s.fsync .metadata failed true).setCheckpoint
        (if s.fsyncSucceeds .metadata failed then some { c with phase := .flush params.shards }
          else none)
    | .flush (shard :: todo) =>
      (s.flush (.shard shard) ok).setCheckpoint
        (if s.flushSucceeds (.shard shard) ok then some { c with phase := .flush todo } else none)
    | .flush [] => s.setCheckpoint (some { c with phase := .commit })
    | .commit =>
      if ok then (s.checkpointIndex c.generation).setCheckpoint (some { c with phase := .publish })
      else s.setCheckpoint none
    | .publish =>
      { s with generation := c.generation }.setCheckpoint (some { c with phase := .superblock s.online })
    | .superblock (v :: todo) =>
      if v ∉ failed then
        { s with slots := fun w ↦ if w = v then c.generation else s.slots w }.setCheckpoint
          (some { c with phase := .superblock todo })
      else if v = s.primary then s.setCheckpoint none
      else (s.fault [v]).setCheckpoint (some { c with phase := .superblock todo })
    | .superblock [] => s.setCheckpoint none

/-! ## Crashes and mounts -/

/-- Every segment is cut back to its durable length, and only what is on the devices stays. -/
def crash : State Hash :=
  let segments := fun v id ↦ (s.segments v id).map Segment.cut
  { s with
    segments := segments
    acked := s.acked.filter fun h ↦ { s with segments := segments }.hasCopy params.vdevs [] h
    mounted := false
    online := []
    promoting := none
    writers := fun _ ↦ none
    pendingIndex := fun _ ↦ []
    index := ⟨∅, 0⟩
    cache := fun _ ↦ none
    task := none
    checkpoint := none }

/-- The generation of the newest superblock. -/
def newestSlot (vdevs : List VdevId) : Nat :=
  (vdevs.map s.slots).foldr max 0

/-- Whether a mount trusts the index file of its primary. -/
def trusts (primary : VdevId) (vdevs : List VdevId) : Option (Index Hash) :=
  (s.indexFiles primary).filter fun file ↦ file.generation = s.newestSlot vdevs

/-- `open_set`: nothing is open or under way; the segments left open are sealed; the first
device is the primary, and its index file is used as it is or rebuilt. -/
def mount (vdevs : List VdevId) (order : VdevId → List SegmentId) (unreadable : List SegmentId) :
    Option (State Hash) :=
  match vdevs with
  | [] => none
  | v :: _ =>
    if s.mounted = false ∧ (∀ w ∈ vdevs, w ∈ params.vdevs) ∧ s.ScansAll vdevs order then
      let generation := s.newestSlot vdevs
      let index := (s.trusts v vdevs).getD
        (s.rebuildIndex (s.indexFiles v) vdevs order unreadable generation)
      some { s.useIndex v index with
        segments := fun w id ↦
          if w ∈ vdevs then (s.segments w id).map Segment.sealed else s.segments w id
        mounted := true
        online := vdevs
        primary := v
        promoting := none
        writers := fun _ ↦ none
        pendingIndex := fun _ ↦ []
        generation := generation
        task := none
        checkpoint := none }
    else none

end State

inductive Action (Hash : Type)
  | openSegment (stream : Stream) (failed : List VdevId)
  | append (shard : ShardId) (hash : Hash) (failed : List VdevId) (ok : Bool)
  | dedupHit (hash : Hash)
  | flush (shard : ShardId) (ok : Bool)
  | fsync (stream : Stream) (failed : List VdevId) (ok : Bool)
  | closeSegment (stream : Stream) (failed : List VdevId) (ok : Bool)
  | putMeta (hash : Hash) (reuse : Bool) (failed : List VdevId) (puts : Nat)
  | heal (v : VdevId) (kind : StreamKind) (hash : Hash)
  | fault (v : VdevId)
  | promoteIndex (order : VdevId → List SegmentId) (unreadable : List SegmentId)
  | promoteRole
  | beginRepack (v : VdevId) (oldId : SegmentId) (keep : List Nat)
  | beginUnstripe (id : SegmentId) (keep : List Nat) (failed : List VdevId)
  | beginRestripe (id : SegmentId)
  | coalesceStep (proceed : Bool)
  | coalesceError (puts : Nat)
  | beginCheckpoint
  | checkpointStep (failed : List VdevId) (ok : Bool)
  | crash
  | mount (vdevs : List VdevId) (order : VdevId → List SegmentId) (unreadable : List SegmentId)

namespace State

variable {Hash : Type} [DecidableEq Hash] (params : Params) (s : State Hash)

def mountedStep : Action Hash → Option (State Hash)
  | .openSegment stream failed =>
    if stream = .metadata ∨ ∃ shard ∈ params.shards, stream = .shard shard then
      s.openSegment stream failed
    else none
  | .append shard hash failed ok => s.append params shard hash failed ok
  | .dedupHit hash => s.dedupHit hash
  | .flush shard ok => some (s.flush (.shard shard) ok)
  | .fsync stream failed ok => some (s.fsync stream failed ok)
  | .closeSegment stream failed ok => some (s.closeSegment stream failed ok)
  | .putMeta hash reuse failed puts => s.putMeta hash reuse failed puts
  | .heal v kind hash => s.heal v kind hash
  | .fault v => some (s.fault [v])
  | .promoteIndex order unreadable => s.promoteIndex order unreadable
  | .promoteRole => s.promoteRole
  | .beginRepack v oldId keep => s.beginRepack v oldId keep
  | .beginUnstripe id keep failed => s.beginUnstripe id keep failed
  | .beginRestripe id => s.beginRestripe params id
  | .coalesceStep proceed => s.coalesceStep params proceed
  | .coalesceError puts => s.coalesceError puts
  | .beginCheckpoint => s.beginCheckpoint params
  | .checkpointStep failed ok => s.checkpointStep params failed ok
  | .crash => some (s.crash params)
  | .mount _ _ _ => none

def step (a : Action Hash) : Option (State Hash) :=
  match s.mounted, a with
  | true, a => s.mountedStep params a
  | false, .mount vdevs order unreadable => s.mount params vdevs order unreadable
  | false, _ => none

/-- A pool as it is created: no segments, and an empty index on the first device. -/
def Created (s : State Hash) : Prop :=
  (∀ v id, s.segments v id = none) ∧ (∀ id, s.stripes id = none) ∧
    s.indexFiles s.indexHome = some s.index ∧ s.index.entries = ∅ ∧ s.acked = [] ∧
    (∀ stream, s.writers stream = none) ∧ (∀ stream, s.pendingIndex stream = []) ∧
    (∀ h, s.cache h = none) ∧ s.task = none ∧ s.checkpoint = none

end State

/-- The index of a pool, from its creation on. -/
def indexing (Hash : Type) [DecidableEq Hash] (params : Params) :
    Machine (State Hash) (Action Hash) where
  init := State.Created
  step s a := s.step params a

end Lchfs.Index
