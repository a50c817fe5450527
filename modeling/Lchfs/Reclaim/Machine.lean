import Lchfs.Library.Fold
import Lchfs.Library.Machine
import Lchfs.Reclaim.Coalesce

/-!
# The reclaim protocol as a machine

Any number of writers, at most one checkpoint and at most one pass interleave freely.
A run starts in a state that a mount hands over. Device faults and the other daemons
(dedup scanner, scrub, resilver) are not modelled.
-/

namespace Lchfs.Reclaim

open Lchfs.Format (Ino ShardId SegmentId)
open Lchfs.Library
open List Option

inductive Action (Dev Hash : Type)
  | create
  | unlink (ino : Ino)
  | hydrate (ino : Ino)
  | begin (ino : Ino) (goal : Goal) (todo : List Hash)
  | pin (ino : Ino)
  | lookup (ino : Ino)
  | unpin (ino : Ino)
  | commit (ino : Ino)
  | finish (ino : Ino)
  | setSnapshotTable (table : List (InoMap Hash))
  | flushIndex (shard : ShardId)
  | fsyncData (shard : ShardId)
  | closeSegment (shard : ShardId)
  | beginCheckpoint
  | checkpointStep
  | beginCapture (ino : Ino) (tail : List Hash)
  | finishCapture (ino : Ino)
  | failCheckpoint
  | beginPass
  | beginDevice (dev : Dev)
  | beginRepack (id : SegmentId)
  | passStep
  | endPass

variable {Dev Hash : Type} [DecidableEq Dev] [DecidableEq Hash]

def State.step (setup : Setup Dev) (s : State Dev Hash) : Action Dev Hash → Option (State Dev Hash)
  | .create => some s.create
  | .unlink ino => s.unlink ino
  | .hydrate ino => s.hydrate ino
  | .begin ino goal todo => s.begin ino goal todo
  | .pin ino => s.pin ino
  | .lookup ino => s.lookup ino
  | .unpin ino => s.unpin ino
  | .commit ino => s.commit setup ino
  | .finish ino => s.finish ino
  | .setSnapshotTable table => some (s.setSnapshotTable table)
  | .flushIndex shard => some (s.flushIndex shard)
  | .fsyncData shard => some (s.fsyncData shard)
  | .closeSegment shard => some (s.closeSegment shard)
  | .beginCheckpoint => s.beginCheckpoint
  | .checkpointStep => s.checkpointStep
  | .beginCapture ino tail => s.beginCapture ino tail
  | .finishCapture ino => s.finishCapture ino
  | .failCheckpoint => s.failCheckpoint
  | .beginPass => s.beginPass
  | .beginDevice dev => s.beginDevice setup dev
  | .beginRepack id => s.beginRepack id
  | .passStep => s.passStep setup
  | .endPass => s.endPass

/-- What a mount hands over: every segment is sealed and has no seal generation, the cache
and the index name records that are there, nothing is pinned or under way, and the
namespace is the recovered root's but for the inodes in the dirty set, which come from
the delta logs. -/
structure State.Mounted (s : State Dev Hash) : Prop where
  segments : ∀ dev id seg, s.segments dev id = some seg →
    id < s.nextSegmentId ∧ seg.isSealed = true ∧ seg.durable = seg.records.length
  writers : ∀ shard, s.writers shard = none
  pendingIndex : ∀ shard, s.pendingIndex shard = []
  cache : ∀ hash loc dev, s.cache hash = some (loc, dev) →
    ∃ seg, s.segments dev loc.segmentId = some seg ∧ seg.records[loc.offset]? = some hash
  index : ∀ hash dev loc, s.index hash dev = some loc →
    ∃ seg, s.segments dev loc.segmentId = some seg ∧ seg.records[loc.offset]? = some hash
  pins : s.pins = []
  sealGenerations : ∀ id, s.sealGenerations id = none
  publishedGeneration : s.publishedGeneration = s.generation
  mountGeneration : s.mountGeneration = s.generation
  publishedRoot : s.publishedRoot = s.root
  content : ∀ ino chunks, s.inodes.lookup ino = some chunks →
    ino < s.nextIno ∧ (ino ∈ s.dirtyInodes ∨ (ino, chunks) ∈ s.root)
  sessions : ∀ ino, s.sessions ino = none
  fileState : ∀ ino chunks, s.fileState ino = some chunks → s.inodes.lookup ino = some chunks
  ops : ∀ ino, s.ops ino = none
  checkpoint : s.checkpoint = none
  pass : s.pass = none
  slot : s.slot = some ⟨s.generation, s.root⟩
  slotHeld : s.slotHeld = s.holdsDurably

section Recovered

/-- The first record of the hash in a device's segments. -/
def locate (segments : List (List Hash)) (hash : Hash) : Option Location :=
  segments.zipIdx.findSome? fun entry ↦
    (entry.1.findIdx? (· = hash)).map fun offset ↦ ⟨entry.2, offset⟩

theorem locate_sound {segments : List (List Hash)} {hash : Hash} {loc : Location}
    (h : locate segments hash = some loc) :
    ∃ records, segments[loc.segmentId]? = some records ∧ records[loc.offset]? = some hash := by
  obtain ⟨⟨records, _⟩, hmem, hsome⟩ := exists_of_findSome?_eq_some h
  obtain ⟨_, hoffset, rfl⟩ := map_eq_some_iff.1 hsome
  refine ⟨records, mem_zipIdx_iff_getElem?.1 hmem, ?_⟩
  obtain ⟨hlt, hrecord, _⟩ := findIdx?_eq_some_iff_getElem.1 hoffset
  exact List.getElem?_eq_some_iff.2 ⟨hlt, by simpa using hrecord⟩

def InoMap.toTable (inoMap : InoMap Hash) (table : Table Ino (List Hash)) : Table Ino (List Hash) :=
  inoMap.foldl (fun table entry ↦ table.insert entry.1 entry.2) table

theorem InoMap.lookup_toTable (inoMap : InoMap Hash) (table : Table Ino (List Hash)) (ino : Ino) :
    (∃ entry ∈ inoMap, entry.1 = ino ∧ (inoMap.toTable table).lookup ino = some entry.2) ∨
      (∀ entry ∈ inoMap, entry.1 ≠ ino) ∧ (inoMap.toTable table).lookup ino = table.lookup ino :=
  foldl_read (fun (table : Table Ino (List Hash)) entry ↦ table.insert entry.1 entry.2)
    (fun table ↦ table.lookup ino) (·.1 = ino) (fun entry ↦ some entry.2)
    (fun table _ heq ↦ by subst heq; exact AList.lookup_insert _)
    (fun _ _ hne ↦ AList.lookup_insert_ne (Ne.symm hne)) inoMap table

/-- What a mount hands over that found these segments on each device, a root, and files to
replay from the delta logs. -/
def State.recovered (setup : Setup Dev) (segments : Dev → List (List Hash)) (next : SegmentId)
    (root replayed : InoMap Hash) : State Dev Hash :=
  let found dev id := (segments dev)[id]?.map fun records ↦ (⟨records, true, records.length⟩ : Segment Hash)
  let held dev hash := (List.range next).any fun id ↦
    (found dev id).any fun seg ↦ hash ∈ seg.records.take seg.durable
  let inodes := replayed.toTable (root.toTable ∅)
  { segments := found
    nextSegmentId := next
    writers := fun _ ↦ none
    pendingIndex := fun _ ↦ []
    cache := fun hash ↦ (locate (segments setup.primary) hash).map (·, setup.primary)
    index := fun hash dev ↦ locate (segments dev) hash
    pins := []
    sealGenerations := fun _ ↦ none
    publishedGeneration := 1
    inodes := inodes
    nextIno := inodes.maxKey + 1
    dirtyInodes := replayed.map (·.1)
    generation := 1
    root := root
    snapshotTable := []
    sessions := fun _ ↦ none
    fileState := fun ino ↦ if ino ∈ replayed.map (·.1) then inodes.lookup ino else none
    ops := fun _ ↦ none
    checkpoint := none
    pass := none
    slot := some ⟨1, root⟩
    publishedRoot := root
    slotHeld := held
    mountGeneration := 1 }

theorem State.recovered_mounted (setup : Setup Dev) (segments : Dev → List (List Hash))
    (next : SegmentId) (root replayed : InoMap Hash) (hnext : ∀ dev, (segments dev).length ≤ next) :
    (State.recovered setup segments next root replayed).Mounted where
  segments dev id seg hseg := by
    obtain ⟨_, hrecords, rfl⟩ := map_eq_some_iff.1 hseg
    exact ⟨Nat.lt_of_lt_of_le (List.getElem?_eq_some_iff.1 hrecords).1 (hnext dev), rfl, rfl⟩
  writers _ := rfl
  pendingIndex _ := rfl
  cache hash loc dev hcache := by
    obtain ⟨_, hloc, heq⟩ := map_eq_some_iff.1 hcache
    cases heq
    obtain ⟨records, hrecords, hrecord⟩ := locate_sound hloc
    exact ⟨_, map_eq_some_iff.2 ⟨records, hrecords, rfl⟩, hrecord⟩
  index hash dev loc hindex := by
    obtain ⟨records, hrecords, hrecord⟩ := locate_sound hindex
    exact ⟨_, map_eq_some_iff.2 ⟨records, hrecords, rfl⟩, hrecord⟩
  pins := rfl
  sealGenerations _ := rfl
  publishedGeneration := rfl
  mountGeneration := rfl
  publishedRoot := rfl
  content ino chunks hlookup := by
    refine ⟨Nat.lt_succ_of_le (Table.le_maxKey hlookup), ?_⟩
    rcases replayed.lookup_toTable (root.toTable ∅) ino with ⟨entry, hentry, rfl, _⟩ | ⟨_, heq⟩
    · exact .inl (mem_map_of_mem hentry)
    · rcases root.lookup_toTable ∅ ino with ⟨_, hentry, rfl, heq'⟩ | ⟨_, heq'⟩
      · cases heq'.symm.trans (heq.symm.trans hlookup)
        exact .inr hentry
      · have hnone := heq'.symm.trans (heq.symm.trans hlookup)
        simp at hnone
  sessions _ := rfl
  fileState ino chunks hfile := by
    simp only [State.recovered] at hfile ⊢
    split_ifs at hfile
    exact hfile
  ops _ := rfl
  checkpoint := rfl
  pass := rfl
  slot := rfl
  slotHeld := rfl

end Recovered

/-- The machine of a pool that a mount handed over in a state with the property `I`. -/
def protocol (setup : Setup Dev) (I : State Dev Hash → Prop) :
    Machine (State Dev Hash) (Action Dev Hash) where
  init s := s.Mounted ∧ I s
  step := State.step setup

section Runs

/-- One device and one shard. -/
def oneDevice : Setup Unit where
  primary := ()
  shardOf _ := 0

/-- Replaces the first file's content by one new chunk. -/
def rewriteRun (hash : Nat) : List (Action Unit Nat) :=
  [.begin 1 .rewrite [hash], .pin 1, .lookup 1, .unpin 1, .commit 1, .finish 1]

/-- A checkpoint that captures the first file, up to the superblock write. -/
def publishRun : List (Action Unit Nat) :=
  [.beginCheckpoint, .checkpointStep, .checkpointStep, .beginCapture 1 [], .finishCapture 1] ++
    List.replicate 8 .checkpointStep

end Runs

end Lchfs.Reclaim
