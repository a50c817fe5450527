import Lchfs.Index.Redundancy

/-!
# Live detach

`detach_vdev_live` on a pool with any content: what the index names need not be there or
verify, devices may be out, and writers go on. The stripes that name the leaving device are
decoded into mirrors, every other online device is resilvered, every online device is
scrubbed, and the slot goes if nothing was found that no device can supply. Then every writer
is rolled and the device is erased. The daemon that repacks and stripes segments is kept out
for the whole of it, and no device joins.

A record verifies where the hash at its location is its own. `shards` says which devices the
descriptor of a stripe names. The delta logs and the checkpoint at the end are left out.
-/

namespace Lchfs.Index

open Lchfs.Format (ShardId SegmentId)
open Lchfs.Library

/-- The steps of the call, each named after what it does next. The device of a walk comes with
those after it. -/
inductive DetachPhase (Hash : Type)
  | unstripeFlush (todo : List ShardId)
  | unstripe (todo : List SegmentId)
  | resilverFlush (todo : List ShardId) (vdev : VdevId) (rest : List VdevId)
  | resilver (todo : List Hash) (unrecoverable : Bool) (vdev : VdevId) (rest : List VdevId)
  | scrubFlush (todo : List ShardId)
  | scrub (todo : List Hash) (unrecoverable : Bool) (vdev : VdevId) (rest : List VdevId)
  | remove
  | roll (todo : List Stream)

structure Detaching (Hash : Type) where
  pool : State Hash
  count : Nat
  shards : SegmentId → List VdevId
  call : Option (DetachPhase Hash)

inductive DetachAction (Hash : Type)
  | write (a : Action Hash)
  | detachVdevLive
  | advance (failed : List VdevId) (ok : Bool)
  | visit (hash : Hash) (ok : Bool)
  | remove

/-- `delete_vdev_locations`. -/
def Entries.deleteVdev {Hash : Type} (v : VdevId) (t : Entries Hash) : Entries Hash where
  entries := t.entries.filter fun entry ↦ entry.1.2 ≠ .vdev v
  nodupKeys := t.nodupKeys.sublist List.filter_sublist

namespace State

variable {Hash : Type} [DecidableEq Hash] (s : State Hash)

/-- `unstripe` with every record kept: a mirrored segment on the online devices that take it, the
index and the cache, then the shards. -/
def unstripeAll (id : SegmentId) (records : List Hash) (failed : List VdevId) : State Hash :=
  let written := s.online.filter (· ∉ failed)
  let r : Rewrite Hash :=
    ⟨.striped, id, s.nextSegmentId, Segment.entries s.nextSegmentId records, [], written⟩
  let u := s.createSegment (if records.isEmpty then [] else written) (.complete .data (.shard 0) records)
  (((u.repointIndex r).repointCache r).deleteOld r).fault failed

/-- `delete_vdev_locations`, then `remove_all_segments`. -/
def eraseVdev (v : VdevId) : State Hash :=
  { s with
    segments := fun w id ↦ if w = v then none else s.segments w id
    index := { s.index with entries := s.index.entries.deleteVdev v } }

/-- Whether the device's own copy of a hash reads back. -/
def verifies (v : VdevId) (hash : Hash) (loc : Location) : Bool :=
  v ∈ s.online && s.recordAt (.vdev v) loc == some hash

end State

namespace Detaching

variable {Hash : Type} [DecidableEq Hash] (params : Params) (d : Detaching Hash)

def leaving : VdevId :=
  d.count - 1

def setPool (pool : State Hash) : Detaching Hash :=
  { d with pool := pool }

/-- Goes on with the call; `none` is an error. -/
def setCall (call : Option (DetachPhase Hash)) : Detaching Hash :=
  { d with call := call }

/-- The stripes found on an online device that name the leaving one. -/
def namedStripes : List SegmentId :=
  (List.range d.pool.nextSegmentId).filter fun id ↦
    (d.pool.stripes id).isSome ∧ d.leaving ∈ d.shards id ∧ (d.shards id).any (· ∈ d.pool.online)

/-- The next resilver refuses a device that is out or alone. -/
def resilverNext : List VdevId → Option (DetachPhase Hash)
  | [] => some (.scrubFlush params.shards)
  | v :: rest =>
    if d.pool.online.length ≠ 1 ∧ v ∈ d.pool.online then some (.resilverFlush params.shards v rest)
    else none

def scrubNext (unrecoverable : Bool) : List VdevId → Option (DetachPhase Hash)
  | v :: rest => some (.scrub d.pool.indexedHashes unrecoverable v rest)
  | [] => if unrecoverable then none else some .remove

/-- One shard of a `flush_index`. -/
def flushShard (shard : ShardId) (ok : Bool) (phase : DetachPhase Hash) : Detaching Hash :=
  (d.setPool (d.pool.flush (.shard shard) ok)).setCall
    (if d.pool.flushSucceeds (.shard shard) ok then some phase else none)

def advance (failed : List VdevId) (ok : Bool) : DetachPhase Hash → Option (Detaching Hash)
  | .unstripeFlush (shard :: todo) => some (d.flushShard shard ok (.unstripeFlush todo))
  | .unstripeFlush [] => some (d.setCall (some (.unstripe d.namedStripes)))
  | .unstripe (id :: todo) =>
    match d.pool.stripes id with
    | some records =>
      if ok ∧ (records = [] ∨ d.pool.online.filter (· ∉ failed) ≠ []) then
        some ({ d with
          pool := d.pool.unstripeAll id records failed
          shards := fun i ↦ if i = id then [] else d.shards i }.setCall (some (.unstripe todo)))
      else some (d.setCall none)
    | none => some (d.setCall none)
  | .unstripe [] => some (d.setCall (d.resilverNext params (d.pool.online.filter (· ≠ d.leaving))))
  | .resilverFlush (shard :: todo) v rest => some (d.flushShard shard ok (.resilverFlush todo v rest))
  | .resilverFlush [] v rest => some (d.setCall (some (.resilver d.pool.indexedHashes false v rest)))
  | .resilver [] unrecoverable _ rest =>
    some (d.setCall (if unrecoverable then none else d.resilverNext params rest))
  | .scrubFlush (shard :: todo) => some (d.flushShard shard ok (.scrubFlush todo))
  | .scrubFlush [] => some (d.setCall (d.scrubNext false d.pool.online))
  | .scrub [] unrecoverable _ rest => some (d.setCall (d.scrubNext unrecoverable rest))
  | .roll (stream :: todo) =>
    some ((d.setPool (d.pool.closeSegment stream failed ok)).setCall
      (if d.pool.closeSucceeds stream failed ok then some (.roll todo) else none))
  -- The slot that is gone was the last one, so its number is the count.
  | .roll [] => some ((d.setPool (d.pool.eraseVdev d.count)).setCall none)
  | _ => none

/-- `heal_from_any_replica` onto a device that is online; there may be no source. -/
def heal (vdev : VdevId) (hash : Hash) (ok : Bool) (healed : DetachPhase Hash)
    (unsourced : DetachPhase Hash) : Detaching Hash :=
  match d.pool.source vdev hash with
  | none => d.setCall (some unsourced)
  | some kind =>
    if vdev ∈ d.pool.online ∧ ok then
      (d.setPool (d.pool.healOnto vdev kind hash)).setCall (some healed)
    else d.setCall none

/-- One group of a walk. A resilver passes over what the index names on the device, a scrub what
it does not name there or what verifies; both pass over what is striped. -/
def visit (hash : Hash) (ok : Bool) : DetachPhase Hash → Option (Detaching Hash)
  | .resilver todo unrecoverable v rest =>
    if hash ∉ todo ∧ ¬d.pool.indexed hash then none
    else if (d.pool.index.entries.lookup (hash, .vdev v)).isSome ∨
        (d.pool.index.entries.lookup (hash, .striped)).isSome then
      some (d.setCall (some (.resilver (todo.erase hash) unrecoverable v rest)))
    else
      some (d.heal v hash ok (.resilver (todo.erase hash) unrecoverable v rest)
        (.resilver (todo.erase hash) true v rest))
  | .scrub todo unrecoverable v rest =>
    if hash ∉ todo ∧ ¬d.pool.indexed hash then none
    else if (d.pool.index.entries.lookup (hash, .striped)).isSome ∨
        (d.pool.index.entries.lookup (hash, .vdev v)).all (d.pool.verifies v hash) then
      some (d.setCall (some (.scrub (todo.erase hash) unrecoverable v rest)))
    else
      some (d.heal v hash ok (.scrub (todo.erase hash) unrecoverable v rest)
        (.scrub (todo.erase hash) (unrecoverable || v ≠ d.leaving) v rest))
  | _ => none

def step : DetachAction Hash → Option (Detaching Hash)
  | .write a => if a.isWrite then (d.pool.mountedStep params a).map d.setPool else none
  | .detachVdevLive =>
    if d.call.isNone ∧ 2 ≤ d.count ∧ d.leaving ≠ d.pool.primary then
      some (d.setCall (some (.unstripeFlush params.shards)))
    else none
  | .advance failed ok => d.call.bind (d.advance params failed ok)
  | .visit hash ok => d.call.bind (d.visit hash ok)
  | .remove =>
    d.call.bind fun
      | .remove =>
        some { d with
          pool := d.pool.fault [d.leaving]
          count := d.leaving
          call := some (.roll params.streams) }
      | _ => none

end Detaching

/-- The writers follow their segments, and every online device is in the fan-out of every open
segment and of every batch. -/
structure State.Fanned {Hash : Type} (params : Params) (s : State Hash) : Prop where
  follows : s.Follows
  streams : ∀ stream w, s.writers stream = some w → stream ∈ params.streams
  writers : ∀ stream w, s.writers stream = some w → ∀ v ∈ s.online, v ∈ w.vdevs
  batches : ∀ stream, ∀ e ∈ s.pendingIndex stream, (∃ shard ∈ params.shards, stream = .shard shard) ∧
    ∀ v ∈ s.online, v ∈ e.vdevs
  stripes : ∀ id, s.nextSegmentId ≤ id → s.stripes id = none

/-- A pool with any content on its devices and in its index. -/
def detaching (Hash : Type) [DecidableEq Hash] (params : Params) :
    Machine (Detaching Hash) (DetachAction Hash) where
  init d := d.pool.Fanned params ∧ d.call = none
  step d a := d.step params a

end Lchfs.Index
