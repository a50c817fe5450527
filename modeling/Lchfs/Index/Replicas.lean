import Lchfs.Index.Soundness

/-!
# Replicas of a mounted pool

The writers of the index machine together with what happens to a device that failed them. A
copy of a segment that its writer has dropped can lose what was not synced. A device that is
back is joined again: all writers are rolled, the copies it has open are sealed, it comes
online, all writers are rolled once more, and a resilver walks the index and copies each
record the index does not name on the device.

The walk reads the index page by page while writers add to it. What it has to meet is what
was in the index when it began; it may meet later entries as well. A batch of heals is taken
record by record, and the index file is not followed here.
-/

namespace Lchfs.Index

open Lchfs.Format (ShardId SegmentId)
open Lchfs.Library

def Params.streams (params : Params) : List Stream :=
  params.shards.map .shard ++ [.metadata]

/-- The steps of a join, each named after what it does next. -/
inductive JoinPhase (Hash : Type)
  | rollBefore (todo : List Stream)
  | rollAfter (todo : List Stream)
  | flush (todo : List ShardId)
  | walk (todo : List Hash)

structure Join (Hash : Type) where
  target : VdevId
  phase : JoinPhase Hash

/-- A mounted pool. `landed` is a ghost: every record a shard acknowledged, with its place. -/
structure Replicas (Hash : Type) where
  pool : State Hash
  landed : List (ShardId × Location × Hash)
  join : Option (Join Hash)

namespace State

variable {Hash : Type} (s : State Hash)

/-- A device's copy of a segment loses what was not synced. -/
def lose (v : VdevId) (id : SegmentId) : State Hash :=
  s.updateSegment [v] id Segment.cut

/-- `seal_orphaned_on` for one device: what it has open is sealed, or removed if it is empty. -/
def sealOrphans (v : VdevId) : State Hash :=
  { s with
    segments := fun w id ↦
      if w = v then
        (s.segments w id).bind fun seg ↦
          if seg.isSealed then some seg else if seg.records.isEmpty then none else some seg.sealed
      else s.segments w id }

/-- `VdevSet::attach`. -/
def attach (v : VdevId) : State Hash :=
  { s with online := (s.online ++ [v]).insertionSort (· ≤ ·) }

/-- Whether `close_segment` returns no error. -/
def closeSucceeds (stream : Stream) (failed : List VdevId) (ok : Bool) : Bool :=
  s.flushSucceeds stream ok && s.fsyncSucceeds stream failed

variable [DecidableEq Hash]

/-- What a shard acknowledges at an append: the record and its place. -/
def landing (shard : ShardId) (hash : Hash) (failed : List VdevId) :
    Option (ShardId × Location × Hash) :=
  (s.writers (.shard shard)).bind fun w ↦
    if w.vdevs.any (· ∉ failed) then some (shard, ⟨w.segmentId, w.cursor⟩, hash) else none

/-- The stream of a copy to heal from: on an online device other than the target that the index
names and that has the record. -/
def source (target : VdevId) (hash : Hash) : Option StreamKind :=
  (s.online.filter (· ≠ target)).findSome? fun v ↦
    (s.index.entries.lookup (hash, .vdev v)).bind fun loc ↦
      (s.segments v loc.segmentId).bind fun seg ↦
        if seg.records[loc.offset]? = some hash then some seg.kind else none

/-- `heal_append` and `heal_commit` of one record: the copy is synced, then the index is told. -/
def healOnto (target : VdevId) (kind : StreamKind) (hash : Hash) : State Hash :=
  let loc : Location := ⟨s.nextSegmentId, 0⟩
  let u := (s.createSegment [target] (.complete kind (.shard 0) [hash])).putIndex
    [((hash, .vdev target), loc)]
  if target = s.primary then u.putCache hash loc (.vdev target) else u

/-- The hashes a walk over the index meets. -/
def indexedHashes : List Hash :=
  (s.index.entries.toList.map (·.1.1)).dedup

end State

inductive ReplicaAction (Hash : Type)
  | write (a : Action Hash)
  | lose (v : VdevId) (id : SegmentId)
  | beginJoin (v : VdevId)
  | beginResilver (v : VdevId)
  | joinStep (failed : List VdevId) (ok : Bool)
  | visit (hash : Hash) (ok : Bool)
  | failJoin
  | finishJoin

/-- The steps of the index machine that writers take. -/
def Action.isWrite {Hash : Type} : Action Hash → Bool
  | .openSegment _ _ | .append _ _ _ _ | .dedupHit _ | .flush _ _ | .fsync _ _ _
  | .closeSegment _ _ _ | .putMeta _ _ _ _ | .fault _ => true
  | _ => false

namespace Replicas

variable {Hash : Type} [DecidableEq Hash] (params : Params) (r : Replicas Hash)

def setPool (pool : State Hash) : Replicas Hash :=
  { r with pool := pool }

def setJoin (join : Option (Join Hash)) : Replicas Hash :=
  { r with join := join }

/-- A join that fails after the device came online takes it out again. -/
def fail (j : Join Hash) : Replicas Hash :=
  match j.phase with
  | .rollBefore _ => r.setJoin none
  | _ => (r.setPool (r.pool.fault [j.target])).setJoin none

/-- Goes on with a join, or fails it. -/
def next (ok : Bool) (j : Join Hash) (phase : JoinPhase Hash) : Replicas Hash :=
  if ok then r.setJoin (some { j with phase := phase }) else r.fail j

def write (a : Action Hash) : Option (Replicas Hash) :=
  if a.isWrite then
    (r.pool.mountedStep params a).map fun pool ↦
      { r with
        pool := pool
        landed := (match a with
          | .append shard hash failed _ => (r.pool.landing shard hash failed).toList
          | _ => []) ++ r.landed }
  else none

/-- Whether a writer still appends to this copy. -/
def isOpen (v : VdevId) (id : SegmentId) : Bool :=
  params.streams.any fun stream ↦ (r.pool.writers stream).any fun w ↦ w.segmentId = id ∧ v ∈ w.vdevs

def joinStep (failed : List VdevId) (ok : Bool) (j : Join Hash) : Option (Replicas Hash) :=
  match j.phase with
  | .rollBefore (stream :: todo) =>
    some ((r.setPool (r.pool.closeSegment stream failed ok)).next
      (r.pool.closeSucceeds stream failed ok) j (.rollBefore todo))
  | .rollBefore [] =>
    if ok then
      some ((r.setPool ((r.pool.sealOrphans j.target).attach j.target)).next true j
        (.rollAfter params.streams))
    else some (r.fail j)
  | .rollAfter (stream :: todo) =>
    some ((r.setPool (r.pool.closeSegment stream failed ok)).next
      (r.pool.closeSucceeds stream failed ok) j (.rollAfter todo))
  | .rollAfter [] =>
    some (r.next (j.target ∈ r.pool.online ∧ r.pool.online.length ≠ 1) j (.flush params.shards))
  | .flush (shard :: todo) =>
    some ((r.setPool (r.pool.flush (.shard shard) ok)).next (r.pool.flushSucceeds (.shard shard) ok) j
      (.flush todo))
  | .flush [] => some (r.next true j (.walk r.pool.indexedHashes))
  | .walk _ => none

/-- One group of `for_each_replica_group`: a hash that the index names on the device, or in a
stripe, is passed over; any other is copied if there is a source for it. -/
def visit (hash : Hash) (ok : Bool) (j : Join Hash) : Option (Replicas Hash) :=
  match j.phase with
  | .walk todo =>
    if hash ∉ todo ∧ ¬r.pool.indexed hash then none
    else if (r.pool.index.entries.lookup (hash, .vdev j.target)).isSome ∨
        (r.pool.index.entries.lookup (hash, .striped)).isSome then
      some (r.next true j (.walk (todo.erase hash)))
    else
      match r.pool.source j.target hash with
      | none => some (r.next true j (.walk (todo.erase hash)))
      | some kind =>
        if j.target ∈ r.pool.online ∧ ok then
          some ((r.setPool (r.pool.healOnto j.target kind hash)).next true j (.walk (todo.erase hash)))
        else some (r.fail j)
  | _ => none

def step : ReplicaAction Hash → Option (Replicas Hash)
  | .write a => r.write params a
  | .lose v id => if r.isOpen params v id then none else some (r.setPool (r.pool.lose v id))
  | .beginJoin v =>
    if r.join.isNone ∧ v ∉ r.pool.online then
      some (r.setJoin (some ⟨v, .rollBefore params.streams⟩))
    else none
  | .beginResilver v =>
    if r.join.isNone ∧ v ∈ r.pool.online ∧ r.pool.online.length ≠ 1 then
      some (r.setJoin (some ⟨v, .flush params.shards⟩))
    else none
  | .joinStep failed ok => r.join.bind (r.joinStep params failed ok)
  | .visit hash ok => r.join.bind (r.visit hash ok)
  | .failJoin => r.join.map r.fail
  | .finishJoin =>
    r.join.bind fun j ↦
      match j.phase with
      | .walk [] => some (r.setJoin none)
      | _ => none

def Created (r : Replicas Hash) : Prop :=
  r.pool.Created ∧ r.landed = [] ∧ r.join = none

end Replicas

/-- The replicas of a mounted pool, from its creation on. -/
def replicating (Hash : Type) [DecidableEq Hash] (params : Params) :
    Machine (Replicas Hash) (ReplicaAction Hash) where
  init := Replicas.Created
  step r a := r.step params a

end Lchfs.Index
