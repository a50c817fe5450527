import Lchfs.Store.Segment

/-!
# The record store

The segments and stripes on the devices, the location index with its buffered and its
durable state, the location cache in front of it, and the open writers. The devices
hold `segments`, `stripes` and `durableIndex`; the rest is memory and is lost in a
crash, as are records beyond the durably recorded length of their segment.

Segments roll at a byte cap and index batches are flushed at a fixed size. Both enter
the model as operations that may happen at any time (`closeSegment`, `flushIndex`).
-/

namespace Lchfs.Store

open Lchfs.Format Lchfs.Library
open List Option Function

/-- Whether a record's preferred copy is a mirrored segment or a stripe. -/
inductive VdevTag
  | mirrored
  | striped
  deriving DecidableEq

/-- The location index. Stripes are keyed after every device, so a mirrored copy is
preferred. -/
structure RedbIndex where
  generation : Nat
  mirrored : Hash32 → Option ExtentLocation
  striped : Hash32 → Option ExtentLocation

namespace RedbIndex

def create : RedbIndex where
  generation := 0
  mirrored := fun _ ↦ none
  striped := fun _ ↦ none

def putChunkLocation (index : RedbIndex) (hash : Hash32) (loc : ExtentLocation) : RedbIndex :=
  { index with mirrored := update index.mirrored hash (some loc) }

def putChunkLocations (index : RedbIndex) (batch : List (Hash32 × ExtentLocation)) : RedbIndex :=
  batch.foldl (fun index entry ↦ index.putChunkLocation entry.1 entry.2) index

@[simp]
theorem striped_putChunkLocations (index : RedbIndex) (batch : List (Hash32 × ExtentLocation)) :
    (index.putChunkLocations batch).striped = index.striped := by
  induction batch generalizing index with
  | nil => rfl
  | cons entry _ ih => exact ih (index.putChunkLocation entry.1 entry.2)

theorem mirrored_putChunkLocations {index : RedbIndex} {batch : List (Hash32 × ExtentLocation)}
    {hash : Hash32} {loc : ExtentLocation}
    (h : (index.putChunkLocations batch).mirrored hash = some loc) :
    index.mirrored hash = some loc ∨ (hash, loc) ∈ batch := by
  induction batch generalizing index with
  | nil => exact .inl h
  | cons entry batch ih =>
    have hrest : ((index.putChunkLocation entry.1 entry.2).putChunkLocations batch).mirrored hash =
        some loc := h
    rcases ih hrest with h | h
    · rcases of_update h with ⟨rfl, ⟨⟩⟩ | ⟨-, h⟩
      · exact .inr mem_cons_self
      · exact .inl h
    · exact .inr (mem_cons_of_mem _ h)

/-- The preferred copy of each record. -/
def preferredLocation (index : RedbIndex) (hash : Hash32) : Option (ExtentLocation × VdevTag) :=
  match index.mirrored hash with
  | some loc => some (loc, .mirrored)
  | none => (index.striped hash).map (·, .striped)

theorem of_preferredLocation {index : RedbIndex} {hash : Hash32} {loc : ExtentLocation}
    {tag : VdevTag} (h : index.preferredLocation hash = some (loc, tag)) :
    index.mirrored hash = some loc ∨ index.striped hash = some loc := by
  unfold preferredLocation at h
  split at h
  · next hmirrored =>
    obtain rfl := (Prod.mk.inj (some.inj h)).1
    exact .inl hmirrored
  · obtain ⟨_, hstriped, heq⟩ := map_eq_some_iff.1 h
    obtain rfl := (Prod.mk.inj heq).1
    exact .inr hstriped

end RedbIndex

abbrev StripeStore := Table SegmentId (List Hash32)

namespace StripeStore

/-- The record of a stripe at a location. -/
def recordAt (stripes : StripeStore) (loc : ExtentLocation) : Option Hash32 :=
  (stripes.lookup loc.segmentId).bind fun records ↦ records[loc.offset]?

/-- Where a record lies in a stripe. -/
def scan (stripes : StripeStore) (hash : Hash32) : Option ExtentLocation :=
  stripes.toList.findSome? fun entry ↦ (entry.2.idxOf? hash).map (⟨entry.1, ·⟩)

theorem recordAt_of_scan {stripes : StripeStore} {hash : Hash32} {loc : ExtentLocation}
    (h : stripes.scan hash = some loc) : stripes.recordAt loc = some hash := by
  obtain ⟨⟨_, _⟩, hmem, hs⟩ := exists_of_findSome?_eq_some h
  obtain ⟨_, hoffset, rfl⟩ := map_eq_some_iff.1 hs
  simpa [recordAt, Table.mem_toList.1 hmem] using getElem?_of_idxOf? hoffset

/-- The highest striped segment id, zero if there is none. -/
def highestId (stripes : StripeStore) : SegmentId :=
  Table.maxKey stripes

end StripeStore

/-- The id after every segment and stripe on disk. -/
def freshSegmentId (segments : SegmentStore) (stripes : StripeStore) : SegmentId :=
  max segments.highestId stripes.highestId + 1

theorem lt_freshSegmentId {segments : SegmentStore} {stripes : StripeStore} {id : SegmentId}
    (h : (segments.lookup id).isSome ∨ (stripes.lookup id).isSome) :
    id < freshSegmentId segments stripes := by
  rcases h with h | h
  · obtain ⟨s, hs⟩ := isSome_iff_exists.1 h
    have : id ≤ segments.highestId := Table.le_maxKey hs
    exact Nat.lt_succ_of_le (Nat.le_trans this (Nat.le_max_left _ _))
  · obtain ⟨s, hs⟩ := isSome_iff_exists.1 h
    have : id ≤ stripes.highestId := Table.le_maxKey hs
    exact Nat.lt_succ_of_le (Nat.le_trans this (Nat.le_max_right _ _))

structure RecordStore where
  segments : SegmentStore
  stripes : StripeStore
  durableIndex : Option RedbIndex
  dedupIndex : Hash32 → Option (ExtentLocation × VdevTag)
  persistedIndex : RedbIndex
  pendingIndex : ShardId → List (Hash32 × ExtentLocation)
  dataWriter : ShardId → Option SegmentId
  metaWriter : Option SegmentId
  nextSegmentId : SegmentId

namespace RecordStore

variable (store : RecordStore)

def create : RecordStore where
  segments := ∅
  stripes := ∅
  durableIndex := some .create
  dedupIndex := fun _ ↦ none
  persistedIndex := .create
  pendingIndex := fun _ ↦ []
  dataWriter := fun _ ↦ none
  metaWriter := none
  nextSegmentId := 0

/-- A store whose memory is empty, over what the devices hold. -/
def onDevices (segments : SegmentStore) (stripes : StripeStore) (index : Option RedbIndex) :
    RecordStore :=
  { create with
    segments := segments
    stripes := stripes
    durableIndex := index
    nextSegmentId := freshSegmentId segments stripes }

/-- Reads a record at the location the cache holds. -/
def readVerified (hash : Hash32) : Option Hash32 :=
  match store.dedupIndex hash with
  | none => none
  | some (loc, .mirrored) => store.segments.recordAt loc
  | some (loc, .striped) => store.stripes.recordAt loc

/-- Hands a shard's batch to the index. The commit is not durable by itself. -/
def flushIndex (shard : ShardId) : RecordStore :=
  { store with
    persistedIndex := store.persistedIndex.putChunkLocations (store.pendingIndex shard)
    pendingIndex := update store.pendingIndex shard [] }

/-- Syncs a shard's open data segment, then flushes its index batch. -/
def fsyncData (shard : ShardId) : RecordStore :=
  match store.dataWriter shard with
  | none => store.flushIndex shard
  | some id => { store with segments := store.segments.modify id .fsync }.flushIndex shard

/-- Seals a shard's open data segment; the next append opens a new one. -/
def closeSegment (shard : ShardId) : RecordStore :=
  match store.dataWriter shard with
  | none => store.flushIndex shard
  | some id =>
    { store.flushIndex shard with
      segments := store.segments.modify id .sealed
      dataWriter := update store.dataWriter shard none }

/-- Claims a new segment on the devices. -/
def claim (stream : StreamKind) (shard : ShardId) : RecordStore :=
  { store with
    segments := store.segments.insert store.nextSegmentId (.create stream shard)
    nextSegmentId := store.nextSegmentId + 1 }

/-- The shard's open data segment, claimed on the devices if there is none. -/
def openSegment (shard : ShardId) : RecordStore × SegmentId :=
  match store.dataWriter shard with
  | some id => (store, id)
  | none =>
    ({ store.claim .data shard with
      dataWriter := update store.dataWriter shard (some store.nextSegmentId) },
      store.nextSegmentId)

/-- The end of a segment, where the next record goes. -/
def endOf (id : SegmentId) : ExtentLocation :=
  ⟨id, ((store.segments.lookup id).map (·.records.length)).getD 0⟩

/-- Appends a record to an open segment and enters it in the cache. -/
def appendTo (id : SegmentId) (hash : Hash32) : RecordStore :=
  { store with
    segments := store.segments.modify id (.append hash)
    dedupIndex := update store.dedupIndex hash (some (store.endOf id, .mirrored)) }

/-- The committer: appends a record to the shard's segment and enters it in the index
batch. -/
def appendData (shard : ShardId) (hash : Hash32) : RecordStore :=
  let (opened, id) := store.openSegment shard
  { opened.appendTo id hash with
    pendingIndex := update opened.pendingIndex shard
      (opened.pendingIndex shard ++ [(hash, opened.endOf id)]) }

/-- The only kind of cache hit a meta object may reuse. -/
def isMetaRecord (loc : ExtentLocation) (tag : VdevTag) : Bool :=
  tag = .mirrored ∧ ((store.segments.lookup loc.segmentId).map (·.stream)) = some .metadata

def openMetaWriter : RecordStore × SegmentId :=
  match store.metaWriter with
  | some id => (store, id)
  | none =>
    ({ store.claim .metadata 0 with metaWriter := some store.nextSegmentId }, store.nextSegmentId)

/-- Appends an object to the meta stream and enters it in the index. -/
def appendMeta (hash : Hash32) : RecordStore × ExtentLocation :=
  let (opened, id) := store.openMetaWriter
  ({ opened.appendTo id hash with
    persistedIndex := opened.persistedIndex.putChunkLocation hash (opened.endOf id) },
    opened.endOf id)

/-- Writes an object to the meta stream unless its hash is known there already. -/
def putMetaEncoded (hash : Hash32) : RecordStore × ExtentLocation :=
  match store.dedupIndex hash with
  | some (loc, tag) => if store.isMetaRecord loc tag then (store, loc) else store.appendMeta hash
  | none => store.appendMeta hash

/-- Writes several objects. -/
def putMetaObjects (hashes : List Hash32) : RecordStore :=
  hashes.foldl (fun store hash ↦ (store.putMetaEncoded hash).1) store

/-- Syncs the open meta segment. -/
def syncMeta : RecordStore :=
  match store.metaWriter with
  | none => store
  | some id => { store with segments := store.segments.modify id .fsync }

/-- Seals the meta segment; the next object opens a new one. -/
def closeMetaWriter : RecordStore :=
  match store.metaWriter with
  | none => store
  | some id => { store with segments := store.segments.modify id .sealed, metaWriter := none }

/-- A durable commit of the index at a generation; it takes every buffered entry along. -/
def checkpointIndex (generation : Nat) : RecordStore :=
  { store with
    persistedIndex := { store.persistedIndex with generation := generation }
    durableIndex := some { store.persistedIndex with generation := generation } }

/-- The index after a segment's records moved to its stripe. Entries on other segments are
left alone. -/
def restripedIndex (id : SegmentId) (records : List Hash32) : RedbIndex :=
  { store.persistedIndex with
    mirrored := fun hash ↦
      if hash ∈ records ∧ (store.persistedIndex.mirrored hash).map (·.segmentId) = some id then none
      else store.persistedIndex.mirrored hash
    striped := fun hash ↦
      ((records.idxOf? hash).map (⟨id, ·⟩)).or (store.persistedIndex.striped hash) }

/-- Converts a sealed data segment into a stripe: the shards are written, then the index is
moved over durably, then the cache. -/
def restripe (id : SegmentId) : Option RecordStore :=
  match store.segments.lookup id, store.stripes.lookup id with
  | some segment, none =>
    if segment.isSealed ∧ segment.stream = .data ∧ segment.records ≠ [] then
      some { store with
        stripes := store.stripes.insert id segment.records
        persistedIndex := store.restripedIndex id segment.records
        durableIndex := some (store.restripedIndex id segment.records)
        dedupIndex := fun hash ↦
          ((segment.records.idxOf? hash).map fun offset ↦ (⟨id, offset⟩, .striped)).or
            (store.dedupIndex hash) }
    else none
  | _, _ => none

/-- Deletes the mirrors of a striped segment. -/
def removeMirror (id : SegmentId) : Option RecordStore :=
  if (store.stripes.lookup id).isSome ∧ (store.segments.lookup id).isSome then
    some { store with segments := store.segments.erase id }
  else none

end RecordStore

end Lchfs.Store
