import Lchfs.Format.Objects
import Lchfs.Library.Table

/-!
# Data and meta segments

A segment is an append-only file of records. Writers fan every record out to all
online devices at the same offset, so one table describes the mirrored set. The
`writtenLen` of a segment is the longest length that a flushed zone header on some
online device records for it, counted in records: `none` after the zone is claimed
and before the first sync, when not even the segment header is durable. A crash
cuts every segment back to that length.
-/

namespace Lchfs.Store

open Lchfs.Format Lchfs.Library

inductive StreamKind
  | data
  | metadata
  deriving DecidableEq

structure ExtentLocation where
  segmentId : SegmentId
  offset : Nat
  deriving DecidableEq

structure Segment where
  stream : StreamKind
  ownerShard : ShardId
  isSealed : Bool
  records : List Hash32
  writtenLen : Option Nat

namespace Segment

/-- A freshly claimed zone. -/
def create (stream : StreamKind) (ownerShard : ShardId) : Segment where
  stream := stream
  ownerShard := ownerShard
  isSealed := false
  records := []
  writtenLen := none

def append (hash : Hash32) (s : Segment) : Segment :=
  { s with records := s.records ++ [hash] }

/-- Flushes the data, then the zone header that covers it. -/
def fsync (s : Segment) : Segment :=
  { s with writtenLen := some s.records.length }

/-- Writes the footer and syncs. -/
def sealed (s : Segment) : Segment :=
  { s.fsync with isSealed := true }

/-- The records inside the durably recorded length. -/
def durable (s : Segment) : List Hash32 :=
  s.records.take (s.writtenLen.getD 0)

/-- What a crash leaves of a segment. -/
def afterCrash (s : Segment) : Segment :=
  { s with records := s.durable }

end Segment

abbrev SegmentStore := Table SegmentId Segment

theorem getElem?_of_idxOf? {α : Type} [DecidableEq α] {l : List α} {a : α} {i : Nat}
    (h : l.idxOf? a = some i) : l[i]? = some a := by
  obtain ⟨hlt, heq, _⟩ := List.findIdx?_eq_some_iff_getElem.1 h
  simpa [List.getElem?_eq_getElem hlt] using heq

namespace SegmentStore

/-- The record at a location. -/
def recordAt (store : SegmentStore) (loc : ExtentLocation) : Option Hash32 :=
  (store.lookup loc.segmentId).bind fun s ↦ s.records[loc.offset]?

/-- A record lies inside the durably recorded length of its segment. -/
def DurableAt (store : SegmentStore) (hash : Hash32) : Prop :=
  ∃ id s, store.lookup id = some s ∧ hash ∈ s.durable

/-- A record is on disk, flushed or not. -/
def Holds (store : SegmentStore) (hash : Hash32) : Prop :=
  ∃ id s, store.lookup id = some s ∧ hash ∈ s.records

/-- Where a full scan finds a record. Of several copies of the same bytes the source
keeps the one its hash map yields last; any of them serves the same read. -/
def scan (store : SegmentStore) (hash : Hash32) : Option ExtentLocation :=
  store.toList.findSome? fun entry ↦ (entry.2.records.idxOf? hash).map (⟨entry.1, ·⟩)

variable {store : SegmentStore} {loc : ExtentLocation}

theorem recordAt_of_scan {hash : Hash32} (h : store.scan hash = some loc) :
    store.recordAt loc = some hash := by
  obtain ⟨⟨_, s⟩, hmem, hs⟩ := List.exists_of_findSome?_eq_some h
  obtain ⟨_, hoffset, rfl⟩ := Option.map_eq_some_iff.1 hs
  simpa [recordAt, Table.mem_toList.1 hmem] using getElem?_of_idxOf? hoffset

/-- `scan` restricted to the data segments one shard owns. -/
def scanShard (store : SegmentStore) (shard : ShardId) (hash : Hash32) :
    Option ExtentLocation :=
  store.toList.findSome? fun entry ↦
    if entry.2.stream = .data ∧ entry.2.ownerShard = shard then
      (entry.2.records.idxOf? hash).map (⟨entry.1, ·⟩)
    else none

theorem recordAt_of_scanShard {shard : ShardId} {hash : Hash32}
    (h : store.scanShard shard hash = some loc) : store.recordAt loc = some hash := by
  obtain ⟨⟨id, s⟩, hmem, hs⟩ := List.exists_of_findSome?_eq_some h
  obtain ⟨_, offset, hoffset, rfl⟩ : (s.stream = .data ∧ s.ownerShard = shard) ∧
      ∃ offset, s.records.idxOf? hash = some offset ∧ ⟨id, offset⟩ = loc := by
    simpa [Option.map_eq_some_iff] using hs
  simpa [recordAt, Table.mem_toList.1 hmem] using getElem?_of_idxOf? hoffset

/-- The highest segment id on disk, zero on a blank device. -/
def highestId (store : SegmentStore) : SegmentId :=
  Table.maxKey store

end SegmentStore

end Lchfs.Store
