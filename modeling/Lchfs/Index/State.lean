import Lchfs.Format.Objects
import Lchfs.Library.Fold
import Lchfs.Library.Machine
import Lchfs.Library.Table

/-!
# Records, the persisted index and the location cache

What a record's location can be read from: the segments of each device and the stripes, the
index (the entries in memory, and the copy of them on the device that holds the index file),
the batches of entries that shards have not handed to the index yet, and the location cache.
Every `put` is buffered; a durable commit writes all entries to the file.

Each device's copy of a segment has its own durable length, and a crash cuts it back to that.
The segment id counter is not reset at a mount. Stripes are kept whole: a stripe short of
shards is one that a rebuild is told it cannot read.
-/

namespace Lchfs.Index

open Lchfs.Format (ShardId SegmentId)
open Lchfs.Library

abbrev VdevId := Nat

/-- What an index entry is keyed under beside its hash: a device, or the stripes. -/
inductive Tag
  | vdev (id : VdevId)
  | striped
  deriving DecidableEq

/-- The order of index keys with one hash: `vdev_id` in little-endian bytes. -/
def Tag.rank : Tag → Nat
  | .vdev id => id % 256 * 256 + id / 256
  | .striped => 65535

structure Location where
  segmentId : SegmentId
  offset : Nat
  deriving DecidableEq

inductive StreamKind
  | data
  | metadata
  deriving DecidableEq

/-- Who appends to a segment: a shard's committer or the meta writer. -/
inductive Stream
  | shard (id : ShardId)
  | metadata
  deriving DecidableEq

def Stream.kind : Stream → StreamKind
  | .shard _ => .data
  | .metadata => .metadata

/-- One device's copy of a segment. -/
structure Segment (Hash : Type) where
  kind : StreamKind
  owner : Stream
  records : List Hash
  isSealed : Bool
  durable : Nat

namespace Segment

variable {Hash : Type} (seg : Segment Hash)

def append (hash : Hash) : Segment Hash :=
  { seg with records := seg.records ++ [hash] }

def fsync : Segment Hash :=
  { seg with durable := seg.records.length }

def sealed : Segment Hash :=
  { seg.fsync with isSealed := true }

/-- What a crash leaves. -/
def cut : Segment Hash :=
  { seg with records := seg.records.take seg.durable }

/-- A segment of the coalescer or of a heal, complete and synced. -/
def complete (kind : StreamKind) (owner : Stream) (records : List Hash) : Segment Hash where
  kind := kind
  owner := owner
  records := records
  isSealed := true
  durable := records.length

/-- The records with their offsets. -/
def entries (id : SegmentId) (records : List Hash) : List (Hash × Location) :=
  records.zipIdx.map fun (hash, offset) ↦ (hash, ⟨id, offset⟩)

end Segment

/-- An open segment: the devices it still fans out to and the next offset. -/
structure Writer where
  segmentId : SegmentId
  vdevs : List VdevId
  cursor : Nat

/-- A landed record that is not in the index yet. -/
structure IndexEntry (Hash : Type) where
  hash : Hash
  location : Location
  vdevs : List VdevId

abbrev Entries (Hash : Type) := Table (Hash × Tag) Location

structure Index (Hash : Type) where
  entries : Entries Hash
  generation : Nat

/-- The rewrite of one device's segment, or of a stripe, into a new segment. -/
structure Rewrite (Hash : Type) where
  tag : Tag
  oldId : SegmentId
  newId : SegmentId
  kept : List (Hash × Location)
  dead : List Hash
  written : List VdevId

/-- The index entries of the records a rewrite keeps. -/
def Rewrite.entries {Hash : Type} (r : Rewrite Hash) : List ((Hash × Tag) × Location) :=
  r.kept.flatMap fun (hash, loc) ↦ r.written.map fun v ↦ ((hash, .vdev v), loc)

/-- The steps of the coalescer, each named after what it does next. A repack goes from
`repointIndex` over `removeCache` to `delete`; the rewrite of a stripe starts with
`removeCache` and repoints the index after `forget`. -/
inductive Task (Hash : Type)
  | repointIndex (r : Rewrite Hash)
  | repointCache (r : Rewrite Hash)
  | removeCache (r : Rewrite Hash)
  | gate (r : Rewrite Hash) (removed : List (Hash × Location × Tag))
  | forget (r : Rewrite Hash)
  | delete (r : Rewrite Hash)
  | stripeIndex (id : SegmentId) (records : List Hash) (targets : List VdevId)
  | stripeCache (id : SegmentId) (records : List Hash) (targets : List VdevId)
  | stripeDelete (id : SegmentId) (targets : List VdevId)

/-- The steps of a checkpoint that touch the index, each named after what it does next. -/
inductive Phase
  | barrier (todo : List ShardId)
  | metaBarrier
  | flush (todo : List ShardId)
  | commit
  | publish
  | superblock (todo : List VdevId)
  deriving DecidableEq

/-- The shards whose batches a checkpoint has still to hand to the index. -/
def Phase.unflushed (shards : List ShardId) : Phase → List ShardId
  | .barrier _ | .metaBarrier => shards
  | .flush todo => todo
  | .commit | .publish | .superblock _ => []

/-- A checkpoint under way. `started` is a ghost: what was acknowledged when it began and has
not been reclaimed since. -/
structure Checkpoint (Hash : Type) where
  phase : Phase
  generation : Nat
  started : List Hash

/-- The slots and shards of the pool, the records a shard buffers before it hands them to the
index, and the number of devices a stripe needs. -/
structure Params where
  vdevs : List VdevId
  shards : List ShardId
  batch : Nat
  width : Nat

/-- The pool. `indexHome` is the device whose index file is in use, or was last. `acked` is a
ghost: the hashes of acknowledged records that were not lost in a crash or reclaimed. -/
structure State (Hash : Type) where
  segments : VdevId → SegmentId → Option (Segment Hash)
  stripes : SegmentId → Option (List Hash)
  slots : VdevId → Nat
  indexFiles : VdevId → Option (Index Hash)
  indexHome : VdevId
  nextSegmentId : SegmentId
  acked : List Hash
  mounted : Bool
  online : List VdevId
  primary : VdevId
  promoting : Option VdevId
  writers : Stream → Option Writer
  pendingIndex : Stream → List (IndexEntry Hash)
  index : Index Hash
  cache : Hash → Option (Location × Tag)
  generation : Nat
  task : Option (Task Hash)
  checkpoint : Option (Checkpoint Hash)

/-! ## Index entries -/

namespace Entries

variable {Hash : Type} [DecidableEq Hash]

/-- Inserts in order; a later entry for a key replaces an earlier one. -/
def putAll (t : Entries Hash) (entries : List ((Hash × Tag) × Location)) : Entries Hash :=
  entries.foldl (fun t entry ↦ t.insert entry.1 entry.2) t

/-- Erases the entries of these keys that point into a segment. -/
def eraseIn (id : SegmentId) (t : Entries Hash) (keys : List (Hash × Tag)) : Entries Hash :=
  keys.foldl (fun t key ↦ if (t.lookup key).any (·.segmentId = id) then t.erase key else t) t

/-- The entry that sorts first, of the best so far and the next one. -/
def better (best : Option (Location × Tag)) (entry : (Hash × Tag) × Location) :
    Option (Location × Tag) :=
  if best.any fun (_, tag) ↦ tag.rank ≤ entry.1.2.rank then best else some (entry.2, entry.1.2)

/-- `iter_preferred_locations` into an empty cache: the entry of each hash that sorts first. -/
def preferred (t : Entries Hash) (hash : Hash) : Option (Location × Tag) :=
  (t.toList.filter fun entry ↦ entry.1.1 = hash).foldl better none

/-- Whether there is an entry for a hash, under any tag. -/
def has (t : Entries Hash) (hash : Hash) : Bool :=
  t.toList.any (·.1.1 = hash)

end Entries

/-! ## Operations on the state -/

namespace State

variable {Hash : Type} (s : State Hash)

/-- The record at a location. -/
def recordAt (tag : Tag) (loc : Location) : Option Hash :=
  match tag with
  | .vdev v => (s.segments v loc.segmentId).bind fun seg ↦ seg.records[loc.offset]?
  | .striped => (s.stripes loc.segmentId).bind fun records ↦ records[loc.offset]?

/-- The record at a location that a crash leaves there. -/
def durableAt (tag : Tag) (loc : Location) : Option Hash :=
  match tag with
  | .vdev v => (s.segments v loc.segmentId).bind fun seg ↦ (seg.records.take seg.durable)[loc.offset]?
  | .striped => (s.stripes loc.segmentId).bind fun records ↦ records[loc.offset]?

/-- `SegmentWriter::create_on`. -/
def createSegment (vdevs : List VdevId) (seg : Segment Hash) : State Hash :=
  { s with
    segments := fun v id ↦
      if id = s.nextSegmentId ∧ v ∈ vdevs then some seg else s.segments v id
    nextSegmentId := s.nextSegmentId + 1 }

def updateSegment (vdevs : List VdevId) (id : SegmentId) (f : Segment Hash → Segment Hash) :
    State Hash :=
  { s with
    segments := fun v i ↦ if i = id ∧ v ∈ vdevs then (s.segments v i).map f else s.segments v i }

def removeSegment (vdevs : List VdevId) (id : SegmentId) : State Hash :=
  { s with segments := fun v i ↦ if i = id ∧ v ∈ vdevs then none else s.segments v i }

def setWriter (stream : Stream) (w : Option Writer) : State Hash :=
  { s with writers := fun st ↦ if st = stream then w else s.writers st }

def setPending (stream : Stream) (pending : List (IndexEntry Hash)) : State Hash :=
  { s with pendingIndex := fun st ↦ if st = stream then pending else s.pendingIndex st }

/-- `VdevSet::fault`. -/
def fault (failed : List VdevId) : State Hash :=
  { s with online := s.online.filter (· ∉ failed) }

/-- A durable commit of the index. -/
def commitIndex : State Hash :=
  { s with indexFiles := fun v ↦ if v = s.indexHome then some s.index else s.indexFiles v }

def acknowledge (hash : Hash) : State Hash :=
  { s with acked := hash :: s.acked }

variable [DecidableEq Hash]

def putIndex (entries : List ((Hash × Tag) × Location)) : State Hash :=
  { s with index := { s.index with entries := Entries.putAll s.index.entries entries } }

/-- `forget_segment_records`, without its commit. -/
def eraseIndex (id : SegmentId) (keys : List (Hash × Tag)) : State Hash :=
  { s with index := { s.index with entries := Entries.eraseIn id s.index.entries keys } }

def putCache (hash : Hash) (loc : Location) (tag : Tag) : State Hash :=
  { s with cache := fun h ↦ if h = hash then some (loc, tag) else s.cache h }

/-- `put` for each record of a rewrite. -/
def putCacheAll (tag : Tag) (records : List (Hash × Location)) : State Hash :=
  records.foldl (fun s record ↦ s.putCache record.1 record.2 tag) s

/-- Whether the cache entry of a hash is the copy in this segment: `remove_if_in`. -/
def cachedIn (tag : Tag) (id : SegmentId) (hash : Hash) : Bool :=
  (s.cache hash).any fun (loc, t) ↦ loc.segmentId = id ∧ t = tag

def removeCacheIn (tag : Tag) (id : SegmentId) (hashes : List Hash) : State Hash :=
  { s with cache := fun h ↦ if h ∈ hashes ∧ s.cachedIn tag id h then none else s.cache h }

/-- `put_if_absent` for each entry. -/
def restoreCache (removed : List (Hash × Location × Tag)) : State Hash :=
  { s with
    cache := fun h ↦ (s.cache h).or ((removed.find? (·.1 = h)).map (·.2)) }

/-! ## What the index and the batches know -/

def indexed (hash : Hash) : Bool :=
  s.index.entries.has hash

def pendingIn (shard : ShardId) (hash : Hash) : Bool :=
  (s.pendingIndex (.shard shard)).any (·.hash = hash)

def pending (shards : List ShardId) (hash : Hash) : Bool :=
  shards.any (s.pendingIn · hash)

/-- Whether a copy of the record is on one of these devices or in a stripe that can be read. -/
def hasCopy (vdevs : List VdevId) (unreadable : List SegmentId) (hash : Hash) : Bool :=
  (List.range s.nextSegmentId).any fun id ↦
    vdevs.any (fun v ↦ (s.segments v id).any (hash ∈ ·.records)) ||
      (id ∉ unreadable && (s.stripes id).any (hash ∈ ·))

end State

end Lchfs.Index
