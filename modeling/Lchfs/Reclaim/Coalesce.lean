import Lchfs.Reclaim.Steps

/-!
# Checkpoints and the coalescer

`checkpoint_locked` as far as pins, roots and generations go, and the mark-and-coalesce
pass with `repack_segment` and `forget_dead`. A pass may choose any sealed segment that
`may_reclaim` lets through: the grace window and the liveness threshold of the sweep
only narrow that choice, and retirement ignores both.
-/

namespace Lchfs.Reclaim

open Lchfs.Format (Ino ShardId SegmentId)
open Lchfs.Library Function

variable {Dev Hash : Type} [DecidableEq Dev] [DecidableEq Hash]

namespace State

variable (setup : Setup Dev) (s : State Dev Hash)

section Checkpoint

def setCheckpoint (checkpoint : Option (Checkpoint Hash)) : State Dev Hash :=
  { s with checkpoint := checkpoint }

def beginCheckpoint : Option (State Dev Hash) :=
  match s.checkpoint with
  | some _ => none
  | none => some (s.setCheckpoint (some ⟨.drain, [], [], none, [], [], 0⟩))

/-- Starts on a file of the work list: its session's tail is committed like a write. -/
def beginCapture (ino : Ino) (tail : List Hash) : Option (State Dev Hash) :=
  s.checkpoint.bind fun c ↦
    if c.phase = .capture ∧ c.capturing.isNone ∧ ino ∈ c.work ∧ (s.ops ino).isNone ∧
        ((s.sessions ino).isNone → tail = []) then
      some ((s.setOp ino (some ⟨.capture, tail, .idle, []⟩)).setCheckpoint
        (some { c with work := c.work.filter (· ≠ ino), capturing := some ino }))
    else none

/-- The pins of an inode pass to the checkpoint. -/
def capturePins (ino : Ino) : State Dev Hash :=
  { s with pins := s.pins.map fun pin ↦ if pin.1 = .file ino then (.captured ino, pin.2) else pin }

/-- The file's chunk list goes into the namespace. A session's content is findable without
it from here on; a dirty mark with nothing behind it leaves the content alone. -/
def captureFile (ino : Ino) (refs : List Hash) : State Dev Hash :=
  match s.sessions ino, s.fileState ino with
  | some chunks, _ =>
    { s.setContent ino (chunks ++ refs) with
      sessions := update s.sessions ino none
      fileState := update s.fileState ino none }
  | none, some chunks => s.setContent ino chunks
  | none, none => s

def finishCapture (ino : Ino) : Option (State Dev Hash) :=
  s.checkpoint.bind fun c ↦
    match s.ops ino with
    | some ⟨.capture, [], .idle, refs⟩ =>
      some ((((s.capturePins ino).captureFile ino refs).setOp ino none).setCheckpoint
        (some { c with capturing := none }))
    | _ => none

/-- Gives back what the checkpoint took: the dirty set and the pins it still holds. -/
def restoreOnFailure (c : Checkpoint Hash) : State Dev Hash :=
  { s with
    dirtyInodes := s.dirtyInodes ∪ c.dirty
    pins := s.pins.map fun pin ↦
      match pin.1 with
      | .captured ino => (.file ino, pin.2)
      | _ => pin
    checkpoint := none }

/-- A checkpoint can fail until it publishes its root, and at the superblock write. It holds
no inode's lock then. -/
def failCheckpoint : Option (State Dev Hash) :=
  s.checkpoint.bind fun c ↦
    if c.capturing.isNone ∧ c.phase ≠ .publish ∧ c.phase ≠ .publishGeneration ∧ c.phase ≠ .release then
      some (s.restoreOnFailure c)
    else none

def drain (c : Checkpoint Hash) : State Dev Hash :=
  { s with dirtyInodes := [] }.setCheckpoint (some { c with phase := .work, dirty := s.dirtyInodes })

def computeWork (c : Checkpoint Hash) : State Dev Hash :=
  s.setCheckpoint (some { c with
    phase := .capture, work := c.dirty.filter fun ino ↦ (s.inodes.lookup ino).isSome })

/-- The inodes with pins that are no longer in the namespace. -/
def findOrphans (c : Checkpoint Hash) : State Dev Hash :=
  s.setCheckpoint (some { c with
    phase := .takeOrphans
    orphaned := s.pins.filterMap fun pin ↦
      match pin.1 with
      | .file ino => if (s.inodes.lookup ino).isSome then none else some ino
      | _ => none })

def takeOrphan (c : Checkpoint Hash) : State Dev Hash :=
  match c.orphaned with
  | ino :: orphaned => (s.capturePins ino).setCheckpoint (some { c with orphaned := orphaned })
  | [] => s.setCheckpoint (some { c with phase := .snapshot })

def snapshot (c : Checkpoint Hash) : State Dev Hash :=
  s.setCheckpoint (some { c with phase := .root, inoSnapshot := s.inodes.toList })

def encodeRoot (c : Checkpoint Hash) : State Dev Hash :=
  s.setCheckpoint (some { c with phase := .publish, generation := s.generation + 1 })

/-- The root and the generation that passes start from. -/
def publish (c : Checkpoint Hash) : State Dev Hash :=
  { s with generation := c.generation, root := c.inoSnapshot }.setCheckpoint
    (some { c with phase := .publishGeneration })

def publishGeneration (c : Checkpoint Hash) : State Dev Hash :=
  { s with publishedGeneration := c.generation, publishedRoot := c.inoSnapshot }.setCheckpoint
    (some { c with phase := .release })

def isCaptured : PinOwner × Hash → Bool
  | (.captured _, _) => true
  | _ => false

/-- Releases one of the captured pins. -/
def release (c : Checkpoint Hash) : State Dev Hash :=
  match s.pins.find? isCaptured with
  | some pin => { s with pins := s.pins.erase pin }
  | none => s.setCheckpoint (some { c with phase := .superblock })

/-- The device has the record within the durable length of one of its segments. -/
def holdsDurably (dev : Dev) (hash : Hash) : Bool :=
  (List.range s.nextSegmentId).any fun id ↦
    (s.segments dev id).any fun seg ↦ hash ∈ seg.records.take seg.durable

/-- From here on a mount selects the new root. -/
def writeSuperblock (c : Checkpoint Hash) : State Dev Hash :=
  { s with slot := some ⟨c.generation, c.inoSnapshot⟩, slotHeld := s.holdsDurably }.setCheckpoint none

def checkpointStep : Option (State Dev Hash) :=
  s.checkpoint.bind fun c ↦
    match c.phase with
    | .drain => some (s.drain c)
    | .work => some (s.computeWork c)
    | .capture =>
      if c.work.isEmpty ∧ c.capturing.isNone then some (s.setCheckpoint (some { c with phase := .orphans }))
      else none
    | .orphans => some (s.findOrphans c)
    | .takeOrphans => some (s.takeOrphan c)
    | .snapshot => some (s.snapshot c)
    | .root => some (s.encodeRoot c)
    | .publish => some (s.publish c)
    | .publishGeneration => some (s.publishGeneration c)
    | .release => some (s.release c)
    | .superblock => some (s.writeSuperblock c)

end Checkpoint

section Coalesce

def setStage (p : Pass Dev Hash) (stage : Stage Dev Hash) : State Dev Hash :=
  { s with pass := some { p with stage := stage } }

/-- Reads the root and the generation to mark from. -/
def beginPass : Option (State Dev Hash) :=
  match s.pass with
  | some _ => none
  | none => some { s with pass := some ⟨s.root, s.generation, [], [], .snapshots⟩ }

/-- Marks one hash live at the location the cache has for it. -/
def mark (p : Pass Dev Hash) (hash : Hash) (loc : Location) (stage : Stage Dev Hash) :
    State Dev Hash :=
  { s with pass := some { p with live := hash :: p.live, bitmap := loc :: p.bitmap, stage := stage } }

/-- One step of the walk. A reachable hash that does not resolve ends the pass. -/
def markNext (p : Pass Dev Hash) : List Hash → State Dev Hash
  | [] => s.setStage p (.markingPins (s.pins.map (·.2)))
  | hash :: todo =>
    match s.cache hash with
    | some (loc, _) => s.mark p hash loc (.marking todo)
    | none => { s with pass := none }

/-- One step over the pinned hashes. One that does not resolve is skipped. -/
def markNextPin (p : Pass Dev Hash) : List Hash → State Dev Hash
  | [] => if p.live = [] then { s with pass := none } else s.setStage p .idle
  | hash :: todo =>
    match s.cache hash with
    | some (loc, _) => s.mark p hash loc (.markingPins todo)
    | none => s.setStage p (.markingPins todo)

/-- The live locations on a device: the primary's come from the mark, any other's from its
own index entries. -/
def resolveOn (p : Pass Dev Hash) (dev : Dev) : List Location :=
  if dev = setup.primary then p.bitmap else p.live.filterMap fun hash ↦ s.index hash dev

def beginDevice (dev : Dev) : Option (State Dev Hash) :=
  s.pass.bind fun p ↦
    match p.stage with
    | .idle => some (s.setStage p (.device dev (s.resolveOn setup p dev)))
    | .device _ _ => some (s.setStage p (.device dev (s.resolveOn setup p dev)))
    | _ => none

/-- Takes up a sealed segment of the device that the seal generations let go. -/
def beginRepack (id : SegmentId) : Option (State Dev Hash) :=
  s.pass.bind fun p ↦
    match p.stage with
    | .device dev bitmap =>
      (s.segments dev id).bind fun seg ↦
        if seg.isSealed ∧ s.mayReclaim id then
          some (s.setStage p (.scan ⟨dev, bitmap, id, [], []⟩ seg.records.zipIdx []))
        else none
    | _ => none

/-- The device has the hash elsewhere, by its index entry, in a segment that is there. -/
def otherCopyOn (dev : Dev) (hash : Hash) (loc : Location) : Bool :=
  (s.index hash dev).any fun loc' ↦ loc' ≠ loc ∧ (s.segments dev loc'.segmentId).isSome

/-- Keeps the next record if it is marked here, or live with no other copy on the device. -/
def scanNext (p : Pass Dev Hash) (r : Repack Dev Hash) (dropped : List Hash) :
    List (Hash × Nat) → State Dev Hash
  | [] => s.setStage p (.recheck r dropped)
  | (hash, offset) :: todo =>
    if ⟨r.oldId, offset⟩ ∈ r.bitmap ∨
        hash ∈ p.live ∧ s.otherCopyOn r.dev hash ⟨r.oldId, offset⟩ = false then
      s.setStage p (.scan { r with kept := r.kept ++ [hash] } todo dropped)
    else s.setStage p (.scan r todo (dropped ++ [hash]))

/-- Pulls in what is pinned by now among the records the mark missed. -/
def recheckNext (p : Pass Dev Hash) (r : Repack Dev Hash) : List Hash → State Dev Hash
  | [] => if r.kept = [] then s.setStage p (.removeCache r r.dead []) else s.setStage p (.copy r)
  | hash :: dropped =>
    if s.isPinned hash then s.setStage p (.recheck { r with kept := r.kept ++ [hash] } dropped)
    else s.setStage p (.recheck { r with dead := r.dead ++ [hash] } dropped)

/-- Copies the kept records into a new segment of the device, stamped like any other. -/
def copyKept (p : Pass Dev Hash) (r : Repack Dev Hash) : State Dev Hash :=
  { s with
    segments := update s.segments r.dev
      (update (s.segments r.dev) s.nextSegmentId (some ⟨r.kept, true, r.kept.length⟩))
    nextSegmentId := s.nextSegmentId + 1
    sealGenerations := update s.sealGenerations s.nextSegmentId
      (some s.publishedGeneration) }.setStage p (.repointIndex r s.nextSegmentId)

/-- The index entry of one kept record. -/
def repointEntry (dev : Dev) (newId : SegmentId) (index : Hash → Dev → Option Location)
    (entry : Hash × Nat) : Hash → Dev → Option Location :=
  update index entry.1 (update (index entry.1) dev (some ⟨newId, entry.2⟩))

def repointIndex (p : Pass Dev Hash) (r : Repack Dev Hash) (newId : SegmentId) : State Dev Hash :=
  let index := r.kept.zipIdx.foldl (repointEntry r.dev newId) s.index
  { s with index := index }.setStage p (.repointCache r newId)

/-- The cache follows a relocation on the primary only. -/
def repointCache (p : Pass Dev Hash) (r : Repack Dev Hash) (newId : SegmentId) : State Dev Hash :=
  let put := fun (cache : Hash → Option (Location × Dev)) (entry : Hash × Nat) ↦
    update cache entry.1 (some (⟨newId, entry.2⟩, r.dev))
  let cache := if r.dev = setup.primary then r.kept.zipIdx.foldl put s.cache else s.cache
  { s with cache := cache }.setStage p (.removeCache r r.dead [])

/-- The first loop of `forget_dead`. -/
def removeNext (p : Pass Dev Hash) (r : Repack Dev Hash) (removed : List (Hash × Location × Dev)) :
    List Hash → State Dev Hash
  | [] => s.setStage p (.loadGeneration r removed)
  | hash :: todo =>
    match s.cache hash with
    | some (loc, dev) =>
      if loc.segmentId = r.oldId ∧ dev = r.dev then
        { s with cache := update s.cache hash none }.setStage p
          (.removeCache r todo ((hash, loc, dev) :: removed))
      else s.setStage p (.removeCache r todo removed)
    | none => s.setStage p (.removeCache r todo removed)

/-- The generation is loaded before the pins are checked. -/
def loadGeneration (p : Pass Dev Hash) (r : Repack Dev Hash)
    (removed : List (Hash × Location × Dev)) : State Dev Hash :=
  if s.publishedGeneration ≠ p.generation then s.setStage p (.restore r removed)
  else s.setStage p (.checkPins r r.dead removed)

def checkNextPin (p : Pass Dev Hash) (r : Repack Dev Hash)
    (removed : List (Hash × Location × Dev)) : List Hash → State Dev Hash
  | [] => s.setStage p (.forget r)
  | hash :: todo =>
    if s.isPinned hash then s.setStage p (.restore r removed)
    else s.setStage p (.checkPins r todo removed)

/-- Puts a removed entry back unless the hash has one again. -/
def restoreNext (p : Pass Dev Hash) (r : Repack Dev Hash) :
    List (Hash × Location × Dev) → State Dev Hash
  | [] => s.setStage p (.device r.dev r.bitmap)
  | (hash, entry) :: removed =>
    { s with cache := update s.cache hash ((s.cache hash).or (some entry)) }.setStage p
      (.restore r removed)

/-- Takes the dead records out of the index. -/
def forgetSegmentRecords (p : Pass Dev Hash) (r : Repack Dev Hash) : State Dev Hash :=
  { s with
    index := fun hash dev ↦
      if hash ∈ r.dead ∧ dev = r.dev then (s.index hash dev).filter (·.segmentId ≠ r.oldId)
      else s.index hash dev }.setStage p (.delete r)

def removeSegment (p : Pass Dev Hash) (r : Repack Dev Hash) : State Dev Hash :=
  { s with
    segments := update s.segments r.dev
      (update (s.segments r.dev) r.oldId none) }.setStage p (.device r.dev r.bitmap)

/-- The next step of the running pass. -/
def passStep : Option (State Dev Hash) :=
  s.pass.bind fun p ↦
    match p.stage with
    | .snapshots =>
      some (s.setStage p (.marking (p.root.hashes ++ s.snapshotTable.flatMap InoMap.hashes)))
    | .marking todo => some (s.markNext p todo)
    | .markingPins todo => some (s.markNextPin p todo)
    | .idle => none
    | .device _ _ => none
    | .scan r todo dropped => some (s.scanNext p r dropped todo)
    | .recheck r dropped => some (s.recheckNext p r dropped)
    | .copy r => some (s.copyKept p r)
    | .repointIndex r newId => some (s.repointIndex p r newId)
    | .repointCache r newId => some (s.repointCache setup p r newId)
    | .removeCache r todo removed => some (s.removeNext p r removed todo)
    | .loadGeneration r removed => some (s.loadGeneration p r removed)
    | .checkPins r todo removed => some (s.checkNextPin p r removed todo)
    | .restore r removed => some (s.restoreNext p r removed)
    | .forget r => some (s.forgetSegmentRecords p r)
    | .delete r => some (s.removeSegment p r)

/-- A pass that is done, or fails. -/
def endPass : Option (State Dev Hash) :=
  s.pass.map fun _ ↦ { s with pass := none }

end Coalesce

end State

end Lchfs.Reclaim
