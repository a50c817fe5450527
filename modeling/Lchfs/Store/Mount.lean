import Lchfs.Store.Write

/-!
# Crash and mount

`open_set` recovers the tree of the newest superblock slot and replays on top of it
the entries of every shard's delta log that lie above the root's watermark. The
locations of records come from the persisted index when its generation is the
slot's (the fast path) and from a scan of every mirrored segment otherwise. On the
fast path a shard with entries to replay has its own data segments scanned as well;
what that scan finds serves the replay and nothing after it.

`openSet` returns the disk as the attempt leaves it, because the slow path writes
the rebuilt index even when the mount fails later.
-/

namespace Lchfs.Store

open Lchfs.Format Lchfs.Library Function

/-- The tree a mount builds up. -/
structure RecoveredTree where
  inodes : Table Ino InodeObject
  dirs : Ino → Option DirectoryObject
  parents : Ino → Option Ino
  fileState : Ino → Option FileWorkingState
  replayed : List Ino

def RecoveredTree.empty : RecoveredTree where
  inodes := ∅
  dirs := fun _ ↦ none
  parents := update (fun _ ↦ none) rootDirIno (some rootDirIno)
  fileState := fun _ ↦ none
  replayed := []

/-- The tree together with the locations its records are read from. -/
structure Recovery extends RecoveredTree where
  locations : Hash32 → Option ExtentLocation

def require {α : Type} (error : PoolError) : Option α → Except PoolError α
  | some a => .ok a
  | none => .error error

def decodeRoot : Hash32 → Except PoolError RootObject
  | .root object => .ok object
  | _ => .error (.format "not a root object")

def decodeInoMap : Hash32 → Except PoolError InoMap
  | .inoMap entries => .ok entries
  | _ => .error (.format "not an InoMap")

def decodeInode : Hash32 → Except PoolError InodeObject
  | .inode object => .ok object
  | _ => .error (.format "not an inode object")

def decodeDirectory : Hash32 → Except PoolError DirectoryObject
  | .directory entries => .ok entries
  | _ => .error (.format "not a directory object")

def decodeChunk : Hash32 → Except PoolError Bytes
  | .chunk bytes => .ok bytes
  | _ => .error (.format "not a chunk")

section Mount

variable (disk : Disk) (index : RedbIndex)

/-- Reads the record at a location, else the stripe or the mirrored copy the index names. -/
def mountRead (hash : Hash32) (loc : ExtentLocation) : Except PoolError Hash32 :=
  require (.integrityFailure hash)
    ((disk.segments.recordAt loc).or
      (((index.striped hash).bind disk.stripes.recordAt).or
        ((index.mirrored hash).bind disk.segments.recordAt)))

/-- Loads one inode of the InoMap, and its entries if it is a directory. -/
def loadInode (r : Recovery) (entry : Ino × InodeObject) : Except PoolError Recovery := do
  let loc ← require (.format ("InodeObject for ino " ++ toString entry.1 ++ " missing from scan"))
    (r.locations (.inode entry.2))
  let inode ← mountRead disk index (.inode entry.2) loc >>= decodeInode
  match inode.kind, inode.content with
  | .directory, .dirEntries hash => do
    let dirLoc ← require (.format "DirectoryObject missing from scan")
      (r.locations (directoryHash hash))
    let dir ← mountRead disk index (directoryHash hash) dirLoc >>= decodeDirectory
    .ok { r with
      inodes := r.inodes.insert entry.1 inode
      dirs := update r.dirs entry.1 (some dir)
      parents := dir.foldl (fun parents child ↦ update parents child.ino (some entry.1))
        r.parents }
  | _, _ => .ok { r with inodes := r.inodes.insert entry.1 inode }

/-- Places one chunk of a replayed file. -/
def replayChunk (r : Recovery) (ino : Ino) (contents : Bytes) (c : ChunkRef) :
    Except PoolError Bytes := do
  let loc ← require (.format ("chunk referenced by replayed ino " ++ toString ino ++ " not found"))
    (r.locations (.chunk c.contentHash))
  let bytes ← mountRead disk index (.chunk c.contentHash) loc >>= decodeChunk
  .ok (copyInto contents c.logicalOffset bytes)

/-- The working states after a delta entry: a file with a chunk list is assembled. -/
def replayFileState (r : Recovery) (c : DeltaCommit) :
    Except PoolError (Ino → Option FileWorkingState) :=
  match c.object.kind, c.object.content with
  | .file, .chunkList chunks => do
    let contents ← chunks.foldlM (replayChunk disk index r c.ino) (List.replicate c.object.size 0)
    .ok (update r.fileState c.ino (some ⟨contents, chunks⟩))
  | _, _ => .ok r.fileState

/-- Applies one delta entry. The inode object and its chunk list are in the log itself. -/
def replayEntry (r : Recovery) (c : DeltaCommit) : Except PoolError Recovery := do
  let fileState ← replayFileState disk index r c
  .ok { r with
    fileState := fileState
    inodes := r.inodes.insert c.ino c.object
    replayed := r.replayed.insert c.ino }

/-- Scans the data segments a shard owns. A segment whose header does not read fails the
scan, whichever shard it belongs to. -/
def ownerShardRescan (shard : ShardId) (r : Recovery) : Except PoolError Recovery :=
  if disk.segments.toList.any fun entry ↦ entry.2.stream = .data ∧ entry.2.writtenLen.isNone then
    .error (.format "segment header does not read")
  else .ok { r with
    locations := fun hash ↦ (disk.segments.scanShard shard hash).or (r.locations hash) }

/-- Replays one shard's log above the root's watermark. -/
def replayShard (fastPath : Bool) (root : RootObject) (r : Recovery) (shard : ShardId) :
    Except PoolError Recovery :=
  let entries := (disk.delta shard).replaySince (root.watermark shard)
  if entries.isEmpty then .ok r
  else
    (if fastPath then ownerShardRescan disk shard r else .ok r) >>= fun r ↦
      entries.foldlM (replayEntry disk index) r

/-- The entries a mount of a disk replays over a root, shard by shard. -/
def Disk.replaySince (shards : List ShardId) (root : RootObject) : List DeltaCommit :=
  shards.flatMap fun shard ↦ (disk.delta shard).replaySince (root.watermark shard)

/-- The root and the recovered tree. -/
def recover (shards : List ShardId) (slot : SuperblockSlot) (fastPath : Bool)
    (locations : Hash32 → Option ExtentLocation) : Except PoolError (RootObject × Recovery) := do
  let root ← mountRead disk index (.root slot.root) slot.rootLocation >>= decodeRoot
  let loc ← require (.format "InoMap location missing from segment scan")
    (locations (.inoMap root.inoMap))
  let inoMap ← mountRead disk index (.inoMap root.inoMap) loc >>= decodeInoMap
  let loaded ← inoMap.foldlM (loadInode disk index) { RecoveredTree.empty with locations := locations }
  let replayed ← shards.foldlM (replayShard disk index fastPath root) loaded
  .ok (root, replayed)

end Mount

/-- Scans every segment and stripe into the index and checkpoints it at the generation.
An index file that opens is reused, so entries the scan does not find stay. -/
def rebuildIndex (disk : Disk) (generation : Nat) : RedbIndex :=
  let old := disk.index.getD .create
  { generation := generation
    mirrored := fun hash ↦ (disk.segments.scan hash).or (old.mirrored hash)
    striped := fun hash ↦ (disk.stripes.scan hash).or (old.striped hash) }

/-- What a successful mount hands to the pool: the tree, the index, and the next ids. -/
structure Mounted where
  ns : Namespace
  fileState : Ino → Option FileWorkingState
  index : RedbIndex
  nextSegmentId : SegmentId

/-- The in-memory pool over a recovered tree. -/
def mounted (disk : Disk) (index : RedbIndex) (slot : SuperblockSlot) (root : RootObject)
    (r : RecoveredTree) : Mounted where
  ns :=
    { inodes := r.inodes
      dirs := r.dirs
      parents := r.parents
      nextIno := max ((root.inoMap.map (·.1)).foldr max rootDirIno + 1) root.nextInoCounter
      dirtyInodes := r.replayed
      generation := slot.generation
      rootHash := .root slot.root }
  fileState := r.fileState
  index := index
  nextSegmentId := freshSegmentId disk.segments disk.stripes

/-- An open segment that a previous mount left without records. -/
def Segment.isEmptyOrphan (s : Segment) : Bool :=
  !s.isSealed && s.writtenLen.isSome && s.records.isEmpty

/-- Seals an open segment that a previous mount left. A header that does not read is left
alone. -/
def Segment.sealOrphan (s : Segment) : Segment :=
  if s.isSealed ∨ s.writtenLen.isNone then s else s.sealed

def Disk.sealOrphanedSegments (disk : Disk) : Disk :=
  { disk with segments := (disk.segments.filterVal (!·.isEmptyOrphan)).mapVal Segment.sealOrphan }

/-- The index a mount uses, and whether it was fresh. -/
def mountIndex (disk : Disk) (slot : SuperblockSlot) : RedbIndex × Bool :=
  match disk.index.filter (·.generation = slot.generation) with
  | some index => (index, true)
  | none => (rebuildIndex disk slot.generation, false)

/-- The locations a mount starts from. -/
def mountLocations (disk : Disk) (index : RedbIndex) (fastPath : Bool) :
    Hash32 → Option ExtentLocation :=
  if fastPath then fun hash ↦ (index.preferredLocation hash).map (·.1) else disk.segments.scan

/-- The entries a mount replays: those above the watermarks of the newest root. -/
def Disk.replayed (params : PoolParams) (disk : Disk) : List DeltaCommit :=
  match disk.slot with
  | none => []
  | some slot => disk.replaySince (List.range params.logicalShardCount) slot.root

/-- `open_set`: the disk the attempt leaves, and the mounted pool or the error. -/
def openSet (params : PoolParams) (disk : Disk) : Disk × Except PoolError Mounted :=
  match disk.slot with
  | none => (disk, .error (.format "no valid superblock found"))
  | some slot =>
    let (index, fastPath) := mountIndex disk slot
    let disk := { disk with index := some index }
    match recover disk index (List.range params.logicalShardCount) slot fastPath
        (mountLocations disk index fastPath) with
    | .error e => (disk, .error e)
    | .ok (root, r) => (disk.sealOrphanedSegments, .ok (mounted disk index slot root r.toRecoveredTree))

namespace State

variable (params : PoolParams) (s : State)

/-- What the devices hold. -/
def disk : Disk where
  segments := s.store.segments
  stripes := s.store.stripes
  index := s.store.durableIndex
  delta := s.delta
  shardSuperblock := s.shardSuperblock
  slot := s.slot

/-- A crash forgets the memory and every record beyond the durably recorded length of its
segment. Delta commits, superblocks and durable index commits stay. -/
def crash : State where
  store := .onDevices (s.store.segments.mapVal Segment.afterCrash) s.store.stripes
    s.store.durableIndex
  delta := s.delta
  shardSuperblock := s.shardSuperblock
  slot := s.slot
  deltaLogs := fun _ ↦ .openOn 0
  ns := { Namespace.create with inodes := ∅, dirtyInodes := [] }
  fileState := fun _ ↦ none
  openFiles := fun _ ↦ none
  ops := fun _ ↦ none
  checkpoint := none
  publishedWatermarks := ([], [])
  ghost := s.ghost
  mounted := false

/-- The stamps of the recovered contents: the root's, overwritten in replay order. -/
def recoveredStamps (entries : List DeltaCommit) (stamps : Ino → Nat) : Ino → Nat :=
  entries.foldl (fun stamps c ↦ update stamps c.ino c.stamp) stamps

/-- The entry leaves a working state behind, which hides the inode's content from reads. -/
def leavesFileState (c : DeltaCommit) : Bool :=
  match c.object.kind, c.object.content with
  | .file, .chunkList _ => true
  | _, _ => false

/-- The stamps of what reads return: a working state is that of the last entry that left
one. -/
def recoveredMemStamps (entries : List DeltaCommit) (stamps : Ino → Nat) : Ino → Nat :=
  recoveredStamps (entries.filter leavesFileState) (recoveredStamps entries stamps)

/-- The pool after a successful mount. The location cache is warmed from the index alone,
and each log's epoch counter comes from its shard superblock. -/
def mountedState (disk : Disk) (m : Mounted) (entries : List DeltaCommit) : State where
  store :=
    { RecordStore.onDevices disk.segments disk.stripes disk.index with
      dedupIndex := m.index.preferredLocation
      persistedIndex := m.index
      nextSegmentId := m.nextSegmentId }
  delta := disk.delta
  shardSuperblock := disk.shardSuperblock
  slot := disk.slot
  deltaLogs := fun shard ↦ .openOn (disk.shardSuperblock shard)
  ns := m.ns
  fileState := m.fileState
  openFiles := fun _ ↦ none
  ops := fun _ ↦ none
  checkpoint := none
  publishedWatermarks := ([], [])
  ghost :=
    { s.ghost with
      nsStamp := recoveredStamps entries s.ghost.slotStamp
      memStamp := recoveredMemStamps entries s.ghost.slotStamp
      replayed := entries }
  mounted := true

/-- One attempt to mount. An attempt that fails may have rebuilt the index. -/
def openPool : Option State :=
  if s.mounted then none
  else
    match openSet params s.disk with
    | (disk, .error _) => some { s with store.durableIndex := disk.index }
    | (disk, .ok m) =>
      some (s.mountedState disk m (s.disk.replayed params))

end State

end Lchfs.Store
