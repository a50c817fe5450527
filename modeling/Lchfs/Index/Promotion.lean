import Lchfs.Index.Detach

/-!
# Promotion beside running writers

`promote_primary` scans the online devices one segment after the other, empties the location
cache bucket by bucket, warms it from what it found and swaps the index, all under the write
lock of the index. Committers and meta appends take their own locks only: they land a record
and write its cache entry at any time, and wait for the index lock with the entry in a batch
or in their hands. A reader that fails over may heal a device in between.

A record is taken as acknowledged when it lands, which is before the code says so. Stripes
stay as they are: the daemon that makes them has no part in this.
-/

namespace Lchfs.Index

open Lchfs.Format (ShardId SegmentId)
open Lchfs.Library

/-- The steps of the call, each named after what it does next. `rebuilt` is the index so far. -/
inductive PromotePhase (Hash : Type)
  | list (vdevs : List VdevId) (rebuilt : Entries Hash)
  | scan (vdev : VdevId) (todo : List SegmentId) (vdevs : List VdevId) (rebuilt : Entries Hash)
  | clear (todo : List Nat) (rebuilt : Entries Hash)
  | extend (todo : List (Hash × Location × Tag)) (rebuilt : Entries Hash)
  | role

structure PromoteCall (Hash : Type) where
  target : VdevId
  generation : Nat
  phase : PromotePhase Hash

/-- An index entry that waits for the index lock. A heal of the primary moves the cache after
it. -/
structure Waiting (Hash : Type) where
  entry : IndexEntry Hash
  heals : Bool

/-- `unreadable` are the stripes that are short of shards. `written` is a ghost: the hashes whose
cache entry was written since the call began. -/
structure Promoting (Hash : Type) where
  pool : State Hash
  unreadable : List SegmentId
  waiting : List (Waiting Hash)
  written : List Hash
  call : Option (PromoteCall Hash)

inductive PromoteAction (Hash : Type)
  | openSegment (stream : Stream) (failed : List VdevId)
  | append (stream : Stream) (hash : Hash) (failed : List VdevId)
  | fsync (stream : Stream) (failed : List VdevId)
  | sealSegment (stream : Stream) (failed : List VdevId)
  | flush (shard : ShardId) (ok : Bool)
  | heal (v : VdevId) (kind : StreamKind) (hash : Hash)
  | putWaiting (i puts : Nat)
  | fault (v : VdevId)
  | promotePrimary
  | advance (order : List SegmentId)

/-- The devices a step reports to have failed. -/
def PromoteAction.failed {Hash : Type} : PromoteAction Hash → List VdevId
  | .openSegment _ failed | .append _ _ failed | .fsync _ failed | .sealSegment _ failed => failed
  | .fault v => [v]
  | _ => []

def chunkLocationCacheBuckets : Nat :=
  64

/-- The bucket of a hash, by the first of its bytes. -/
def bucketFor {Hash : Type} (firstByte : Hash → Nat) (hash : Hash) : Nat :=
  firstByte hash % chunkLocationCacheBuckets

/-- `iter_preferred_locations`. -/
def Entries.preferredLocations {Hash : Type} [DecidableEq Hash] (t : Entries Hash) : List (Hash × Location × Tag) :=
  (t.toList.map (·.1.1)).dedup.filterMap fun hash ↦ (t.preferred hash).map (hash, ·)

namespace Promoting

variable {Hash : Type} [DecidableEq Hash] (firstByte : Hash → Nat) (d : Promoting Hash)

def setPool (pool : State Hash) : Promoting Hash :=
  { d with pool := pool }

def setPhase (c : PromoteCall Hash) (phase : PromotePhase Hash) : Promoting Hash :=
  { d with call := some { c with phase := phase } }

/-- Whether the call has the index lock. -/
def locked : Bool :=
  d.call.any fun c ↦
    match c.phase with
    | .role => false
    | _ => true

/-- An append of a committer or of the meta writer, up to where it asks for the index lock. -/
def append (stream : Stream) (hash : Hash) (failed : List VdevId) : Option (Promoting Hash) :=
  (d.pool.writers stream).map fun w ↦
    let u := d.pool.fault (w.vdevs.filter (· ∈ failed))
    match w.vdevs.filter (· ∉ failed), stream with
    | [], .shard _ => d.setPool (u.setWriter stream none)
    | [], .metadata => d.setPool (u.setWriter stream (some { w with vdevs := [] }))
    | first :: rest, stream =>
      let e : IndexEntry Hash := ⟨hash, ⟨w.segmentId, w.cursor⟩, first :: rest⟩
      let u := (u.land stream w (first :: rest) first hash).acknowledge hash
      match stream with
      | .shard _ =>
        { d with
          pool := u.setPending stream (d.pool.pendingIndex stream ++ [e])
          written := hash :: d.written }
      | .metadata =>
        { d with pool := u, waiting := ⟨e, false⟩ :: d.waiting, written := hash :: d.written }

def fsync (stream : Stream) (failed : List VdevId) : Option (Promoting Hash) :=
  (d.pool.writers stream).map fun w ↦
    d.setPool ((d.pool.syncOn stream w (w.vdevs.filter (· ∉ failed))).fault (w.vdevs.filter (· ∈ failed)))

/-- The seal of a segment whose batch has been handed over. -/
def sealSegment (stream : Stream) (failed : List VdevId) : Option (Promoting Hash) :=
  if (d.pool.pendingIndex stream).isEmpty then
    (d.pool.writers stream).map fun w ↦
      d.setPool ((d.pool.closeOn stream w (w.vdevs.filter (· ∉ failed))).fault (w.vdevs.filter (· ∈ failed)))
  else none

/-- `heal_one` of a record that was read from another copy, up to its index put. -/
def heal (v : VdevId) (kind : StreamKind) (hash : Hash) : Option (Promoting Hash) :=
  if v ∈ d.pool.online ∧ d.pool.hasCopy d.pool.online d.unreadable hash then
    some { d with
      pool := d.pool.createSegment [v] (.complete kind (.shard 0) [hash])
      waiting := ⟨⟨hash, ⟨d.pool.nextSegmentId, 0⟩, [v]⟩, true⟩ :: d.waiting }
  else none

def putWaiting (i puts : Nat) : Option (Promoting Hash) :=
  d.waiting[i]?.map fun x ↦
    let u := d.pool.putIndex ((State.entriesOf [x.entry]).take puts)
    { d with
      pool :=
        if x.heals ∧ d.pool.primary ∈ x.entry.vdevs then
          u.putCache x.entry.hash x.entry.location (.vdev d.pool.primary)
        else u
      waiting := d.waiting.eraseIdx i }

/-- The lowest online device takes over from a primary that has faulted. -/
def promotePrimary : Option (Promoting Hash) :=
  match d.pool.online with
  | [] => none
  | v :: _ =>
    if d.call.isNone ∧ d.pool.primary ∉ d.pool.online then
      some { d with
        written := []
        call := some ⟨v, d.pool.generation, .list d.pool.online ((d.pool.indexFiles v).elim ∅ Index.entries)⟩ }
    else none

/-- One step of the call. `order` is how a device's segments are met. -/
def advance (order : List SegmentId) (c : PromoteCall Hash) : Option (Promoting Hash) :=
  match c.phase with
  | .list (v :: vdevs) rebuilt =>
    if ∀ id < d.pool.nextSegmentId, (d.pool.segments v id).isSome → id ∈ order then
      some (d.setPhase c (.scan v order vdevs rebuilt))
    else none
  | .scan v (id :: todo) vdevs rebuilt =>
    some (d.setPhase c (.scan v todo vdevs (Entries.putAll rebuilt (d.pool.scan v [id]))))
  | .scan _ [] vdevs rebuilt => some (d.setPhase c (.list vdevs rebuilt))
  | .list [] rebuilt =>
    some (d.setPhase c (.clear (List.range chunkLocationCacheBuckets) (Entries.putAll rebuilt (d.pool.scanStripes d.unreadable))))
  | .clear (b :: todo) rebuilt =>
    some ((d.setPool { d.pool with cache := fun h ↦ if bucketFor firstByte h = b then none else d.pool.cache h }).setPhase c
      (.clear todo rebuilt))
  | .clear [] rebuilt => some (d.setPhase c (.extend rebuilt.preferredLocations rebuilt))
  | .extend ((hash, loc, tag) :: todo) rebuilt =>
    some ((d.setPool (d.pool.putCache hash loc tag)).setPhase c (.extend todo rebuilt))
  | .extend [] rebuilt =>
    let index : Index Hash := ⟨rebuilt, c.generation⟩
    some ((d.setPool { d.pool with
      index := index
      indexHome := c.target
      indexFiles := fun w ↦ if w = c.target then some index else d.pool.indexFiles w }).setPhase c .role)
  | .role => some { d with pool := { d.pool with primary := c.target }, call := none }

def step : PromoteAction Hash → Option (Promoting Hash)
  | .openSegment stream failed => (d.pool.openSegment stream failed).map d.setPool
  | .append stream hash failed => d.append stream hash failed
  | .fsync stream failed => d.fsync stream failed
  | .sealSegment stream failed => d.sealSegment stream failed
  | .flush shard ok => if d.locked then none else some (d.setPool (d.pool.flush (.shard shard) ok))
  | .heal v kind hash => d.heal v kind hash
  | .putWaiting i puts => if d.locked then none else d.putWaiting i puts
  | .fault v => some (d.setPool (d.pool.fault [v]))
  | .promotePrimary => d.promotePrimary
  | .advance order => d.call.bind (d.advance firstByte order)

end Promoting

/-- A pool with any content. -/
def promoting (Hash : Type) [DecidableEq Hash] (firstByte : Hash → Nat) :
    Machine (Promoting Hash) (PromoteAction Hash) where
  init d := d.pool.Follows ∧ (∀ id, d.pool.nextSegmentId ≤ id → d.pool.stripes id = none) ∧ d.call = none
  step d a := d.step firstByte a

end Lchfs.Index
