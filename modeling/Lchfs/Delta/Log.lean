import Lchfs.Library.Machine
import Lchfs.Library.Table

/-!
# A shard's delta log on several devices

The log of one shard, its copies on every device of the pool, and what decides about them: the
devices a mount is given, those that drop out, the checkpoints that publish the epoch counter as
a watermark, and the truncation that deletes whole segments below the older watermark.

A commit appends its content records and then an entry that names them, syncs the segment, and
writes the shard superblock. It holds the log's lock; so do a roll and the reads of the counter.
A truncation takes the lock only to read the current segment and the devices, so all other steps
interleave with its deletions. Records on a device are whole and readable; one that was cut
short is not there. Shards do not share anything a log reads, so the other shards are left out.
-/

namespace Lchfs.Delta

open Lchfs.Library

abbrev Hash32 := BitVec 256

abbrev SegmentId := Nat

/-- An entry of the log. The `serial` counts the commits; the program does not have it. -/
structure DeltaLogEntry where
  ino : Nat
  newObjectHash : Hash32
  epoch : Nat
  serial : Nat
  deriving DecidableEq

/-- An inode object names its chunk list, if it has one. -/
inductive Body
  | object (hash : Hash32) (names : Option Hash32)
  | entry (e : DeltaLogEntry)
  deriving DecidableEq

/-- A record; `rest` counts the bytes of its header and payload. -/
structure Record where
  body : Body
  rest : Nat
  deriving DecidableEq

namespace Record

def len (r : Record) : Nat := 4 + r.rest

def deltaEntry (r : Record) : Option DeltaLogEntry :=
  match r.body with
  | .entry e => some e
  | .object _ _ => none

def hash? (r : Record) : Option Hash32 :=
  match r.body with
  | .entry _ => none
  | .object hash _ => some hash

end Record

/-- What a commit appends before its entry. -/
structure Content where
  hash : Hash32
  names : Option Hash32
  rest : Nat

def Content.record (x : Content) : Record := ⟨.object x.hash x.names, x.rest⟩

/-- One device's copy of a segment; a crash keeps its first `durable` records at least. -/
structure Copy where
  records : List Record
  durable : Nat
  deriving DecidableEq

def Copy.entries (c : Copy) : List DeltaLogEntry := c.records.filterMap Record.deltaEntry

def Copy.fsync (c : Copy) : Copy := { c with durable := c.records.length }

/-- The delta segments of a device, and the epoch its shard superblock has. -/
structure Device where
  segments : Table SegmentId Copy
  superblock : Option Nat

variable {n : Nat}

/-- The devices a segment still goes to, and what it holds. -/
structure SegmentWriter (n : Nat) where
  segmentId : SegmentId
  vdevs : List (Fin n)
  records : List Record

structure ShardDeltaLog (n : Nat) where
  roots : List (Fin n)
  writer : Option (SegmentWriter n)
  nextSegmentId : SegmentId
  localEpoch : Nat

def ShardDeltaLog.currentSegmentId (log : ShardDeltaLog n) : SegmentId :=
  log.writer.elim log.nextSegmentId (·.segmentId)

/-- How far a commit has got. -/
inductive Commit
  | content (ino : Nat) (todo : List Content) (object : Hash32)
  | appended
  | synced

/-- A checkpoint that has read the counter, and one whose superblock is written. -/
inductive Publishing
  | read (watermark : Nat)
  | written (watermark : Nat)

inductive Truncation (n : Nat)
  | through (watermark : Nat)
  | deleting (watermark : Nat) (roots : List (Fin n)) (ids : List SegmentId)

/-- The mounted pool. The watermarks of the superblocks it wrote, in `written`, are not kept by
the program, which has the last two in `published`. -/
structure Pool (n : Nat) where
  log : ShardDeltaLog n
  online : List (Fin n)
  commit : Option Commit
  checkpoint : Option Publishing
  published : Option Nat × Option Nat
  truncation : Option (Truncation n)
  written : List Nat

/-- The devices, the watermarks of all published superblocks (newest first), and the pool. -/
structure State (n : Nat) where
  devices : Fin n → Device
  slots : List Nat
  serial : Nat
  pool : Option (Pool n)

-- Stated once, so that the definitions of all modules share it.
instance lawfulBEqFin : LawfulBEq (Fin n) := inferInstance

/-- The devices a call fails on, and those of them on which it took effect all the same. -/
structure Failures (n : Nat) where
  failed : List (Fin n)
  landed : List (Fin n)

namespace Failures

def reached (x : Failures n) (vdevs : List (Fin n)) : List (Fin n) :=
  vdevs.filter fun v ↦ v ∉ x.failed ∨ v ∈ x.landed

def left (x : Failures n) (vdevs : List (Fin n)) : List (Fin n) := vdevs.filter (· ∉ x.failed)

def dropped (x : Failures n) (vdevs : List (Fin n)) : List (Fin n) := vdevs.filter (· ∈ x.failed)

/-- A fan-out fails when it loses its last device. -/
def succeeds (x : Failures n) (vdevs : List (Fin n)) : Bool :=
  x.left vdevs ≠ [] || x.dropped vdevs = []

end Failures

/-! ## Reading -/

def segmentHeaderPageSize : Nat := 4096

def scanFrom : Nat → List Record → List (Nat × Record)
  | _, [] => []
  | offset, r :: records => (offset, r) :: scanFrom (offset + r.len) records

def scan (records : List Record) : List (Nat × Record) := scanFrom segmentHeaderPageSize records

/-- A scan counts where no earlier device had a record at the offset. -/
def unseen (seen scanned : List (Nat × Record)) : List (Nat × Record) :=
  seen ++ scanned.filter fun x ↦ x.1 ∉ seen.map (·.1)

structure ReplayResult where
  entries : List DeltaLogEntry
  locations : List (Hash32 × SegmentId × Nat × Nat)

namespace State

def copy (s : State n) (v : Fin n) (id : SegmentId) : Option Copy :=
  (s.devices v).segments.lookup id

def deltaSegmentIds (s : State n) (roots : List (Fin n)) : List SegmentId :=
  (roots.flatMap fun v ↦ (s.devices v).segments.keys).dedup.insertionSort (· ≤ ·)

/-- The records of a segment, each from the first device that has one at its offset. -/
def merged (s : State n) (roots : List (Fin n)) (id : SegmentId) : List (Nat × Record) :=
  roots.foldl (fun seen v ↦ (s.copy v id).elim seen fun c ↦ unseen seen (scan c.records)) []

def replaySince (s : State n) (roots : List (Fin n)) (watermark : Nat) : ReplayResult :=
  let read := (s.deltaSegmentIds roots).flatMap fun id ↦ (s.merged roots id).map (Prod.mk id)
  { entries := ((read.filterMap (·.2.2.deltaEntry)).filter (watermark < ·.epoch)).insertionSort (·.epoch ≤ ·.epoch)
    locations := read.filterMap fun x ↦ x.2.2.hash?.map fun hash ↦ (hash, x.1, x.2.1, x.2.2.len) }

def segmentIsDead (s : State n) (roots : List (Fin n)) (id : SegmentId) (watermark : Nat) : Bool :=
  (s.merged roots id).all fun x ↦ x.2.deltaEntry.all (·.epoch ≤ watermark)

/-! ## Writing -/

def onDevices (s : State n) (vdevs : List (Fin n)) (f : Device → Device) : State n :=
  { s with devices := fun v ↦ if v ∈ vdevs then f (s.devices v) else s.devices v }

def onSegment (s : State n) (vdevs : List (Fin n)) (id : SegmentId) (f : Copy → Copy) : State n :=
  s.onDevices vdevs fun d ↦ { d with segments := d.segments.modify id f }

def setPool (s : State n) (p : Pool n) : State n := { s with pool := some p }

end State

namespace Pool

def setWriter (p : Pool n) (writer : Option (SegmentWriter n)) : Pool n :=
  { p with log := { p.log with writer := writer } }

/-- The writer goes on without the devices it dropped; the pool and the shard superblock do too. -/
def reportFaults (p : Pool n) (w : SegmentWriter n) (dropped : List (Fin n)) : Pool n :=
  if dropped = [] then p.setWriter (some w) else
    let online := p.online.filter (· ∉ dropped)
    { p with
      online := online
      log := { p.log with writer := some w, roots := online.filter (· ∈ w.vdevs) } }

end Pool

namespace State

/-- Creates the next segment on the online devices, over what they hold under its id. -/
def startSegment (s : State n) (p : Pool n) (x : Failures n) : State n :=
  let id := p.log.nextSegmentId
  let started := { p with log := { p.log with writer := none, nextSegmentId := id + 1 } }
  let created := s.onDevices (x.reached p.online) fun d ↦ { d with segments := d.segments.insert id ⟨[], 0⟩ }
  if x.left p.online = [] then created.setPool { started with commit := none } else
    let onSet := { started with log := { started.log with roots := p.online } }
    created.setPool (onSet.reportFaults ⟨id, x.left p.online, []⟩ (x.dropped p.online))

/-- Appends a record to the copies; the commit goes on as `next` unless no device is left. -/
def append (s : State n) (p : Pool n) (w : SegmentWriter n) (r : Record) (x : Failures n) (next : Commit) : State n :=
  let ok := x.succeeds w.vdevs
  let w' := { w with vdevs := x.left w.vdevs, records := if ok then w.records ++ [r] else w.records }
  (s.onSegment (x.reached w.vdevs) w.segmentId fun c ↦ { c with records := c.records ++ [r] }).setPool
    { p.reportFaults w' (x.dropped w.vdevs) with commit := if ok then some next else none }

/-- Syncs the copies; only then does the counter move. -/
def sync (s : State n) (p : Pool n) (w : SegmentWriter n) (x : Failures n) : State n :=
  let synced := s.onSegment (x.reached w.vdevs) w.segmentId Copy.fsync
  let reported := p.reportFaults { w with vdevs := x.left w.vdevs } (x.dropped w.vdevs)
  if x.succeeds w.vdevs then
    synced.setPool { reported with
      commit := some .synced
      log := { reported.log with localEpoch := p.log.localEpoch + 1 } }
  else synced.setPool { reported with commit := none }

def writeShardSuperblock (s : State n) (p : Pool n) (x : Failures n) : State n :=
  (s.onDevices (x.reached p.log.roots) fun d ↦ { d with superblock := some p.log.localEpoch }).setPool
    { p with online := p.online.filter (· ∉ x.dropped p.log.roots), commit := none }

def rollOver (s : State n) (p : Pool n) (x : Failures n) : State n :=
  match p.log.writer with
  | none => s.setPool { p with log := { p.log with roots := p.online } }
  | some w => (s.onSegment w.vdevs w.segmentId Copy.fsync).startSegment (p.setWriter none) x

/-- `open_on`, with no segment started: the counter is the furthest of the superblocks given, the
next id clears the segments given. -/
def openOn (s : State n) (given : List (Fin n)) : Pool n where
  log :=
    { roots := given
      writer := none
      nextSegmentId := (s.deltaSegmentIds given).getLast?.elim 0 (· + 1)
      localEpoch := (given.filterMap fun v ↦ (s.devices v).superblock).foldr max 0 }
  online := given
  commit := none
  checkpoint := none
  published := (none, none)
  truncation := none
  written := []

end State

/-! ## The machine -/

/-- `fault` and `join` are what the rest of the pool does to its device set; `lose` is what a
crash takes from one copy. -/
inductive Action (n : Nat)
  | mount (given : List (Fin n))
  | crash
  | lose (v : Fin n) (id : SegmentId) (keep : Nat)
  | beginCommit (ino : Nat) (chunkList : Option (Hash32 × Nat)) (object : Hash32 × Nat)
  | startSegment (x : Failures n)
  | append (x : Failures n) (rest : Nat)
  | sync (x : Failures n)
  | writeShardSuperblock (x : Failures n)
  | rollOver (x : Failures n)
  | fault (v : Fin n)
  | join (v : Fin n)
  | readWatermark
  | writeSlot
  | finishCheckpoint
  | failCheckpoint
  | readThrough
  | lockLog
  | deleteNext (removed : Nat)

/-- The records an fsync hands to its commit. -/
def commitRecords (chunkList : Option (Hash32 × Nat)) (object : Hash32 × Nat) : List Content :=
  (chunkList.map fun x ↦ ⟨x.1, none, x.2⟩).toList ++ [⟨object.1, chunkList.map (·.1), object.2⟩]

namespace State

def appendStep (s : State n) (p : Pool n) (x : Failures n) (rest : Nat) : Option (State n) :=
  match p.commit, p.log.writer with
  | some (.content ino (y :: todo) object), some w => some (s.append p w y.record x (.content ino todo object))
  | some (.content ino [] object), some w =>
    let e : DeltaLogEntry := ⟨ino, object, p.log.localEpoch + 1, s.serial⟩
    some { s.append p w ⟨.entry e, rest⟩ x .appended with serial := s.serial + 1 }
  | _, _ => none

def startStep (s : State n) (p : Pool n) (x : Failures n) : Option (State n) :=
  match p.commit, p.log.writer with
  | some (.content _ _ _), none => some (s.startSegment p x)
  | _, _ => none

def syncStep (s : State n) (p : Pool n) (x : Failures n) : Option (State n) :=
  match p.commit, p.log.writer with
  | some .appended, some w => some (s.sync p w x)
  | _, _ => none

def superblockStep (s : State n) (p : Pool n) (x : Failures n) : Option (State n) :=
  match p.commit with
  | some .synced => some (s.writeShardSuperblock p x)
  | _ => none

def writeSlot (s : State n) (p : Pool n) : Option (State n) :=
  match p.checkpoint with
  | some (.read w) => some
    { s with
      slots := w :: s.slots
      pool := some { p with checkpoint := some (.written w), written := w :: p.written } }
  | _ => none

def finishCheckpoint (s : State n) (p : Pool n) : Option (State n) :=
  match p.checkpoint with
  | some (.written w) => some (s.setPool { p with checkpoint := none, published := (p.published.2, some w) })
  | _ => none

/-- Nothing is truncated before the second checkpoint of a mount. -/
def readThrough (s : State n) (p : Pool n) : Option (State n) :=
  match p.truncation, p.published.1 with
  | none, some w => some (s.setPool { p with truncation := some (.through w) })
  | _, _ => none

def lockLog (s : State n) (p : Pool n) : Option (State n) :=
  match p.truncation with
  | some (.through w) => some (s.setPool { p with truncation := some (.deleting w p.log.roots
      ((s.deltaSegmentIds p.log.roots).filter (· < p.log.currentSegmentId))) })
  | _ => none

/-- One segment of `truncate_through`: a dead one is removed from the first `removed` devices,
and an error ends the pass. -/
def deleteNext (s : State n) (p : Pool n) (removed : Nat) : Option (State n) :=
  match p.truncation with
  | some (.deleting w roots (id :: ids)) =>
    if s.segmentIsDead roots id w then
      some ((s.onDevices (roots.take removed) fun d ↦ { d with segments := d.segments.erase id }).setPool
        { p with truncation := if removed < roots.length then none else some (.deleting w roots ids) })
    else some (s.setPool { p with truncation := some (.deleting w roots ids) })
  | some (.deleting _ _ []) => some (s.setPool { p with truncation := none })
  | _ => none

/-- The steps of a mounted pool. -/
def mountedStep (s : State n) (p : Pool n) : Action n → Option (State n)
  | .mount _ | .lose _ _ _ => none
  | .crash => some { s with pool := none }
  | .beginCommit ino chunkList object =>
    if p.commit.isNone then
      some (s.setPool { p with commit := some (.content ino (commitRecords chunkList object) object.1) })
    else none
  | .startSegment x => s.startStep p x
  | .append x rest => s.appendStep p x rest
  | .sync x => s.syncStep p x
  | .writeShardSuperblock x => s.superblockStep p x
  | .rollOver x => if p.commit.isNone then some (s.rollOver p x) else none
  | .fault v => some (s.setPool { p with online := p.online.filter (· ≠ v) })
  | .join v => some (s.setPool { p with online := (v :: p.online.filter (· ≠ v)).insertionSort (· ≤ ·) })
  | .readWatermark =>
    if p.commit.isNone ∧ p.checkpoint.isNone then
      some (s.setPool { p with checkpoint := some (.read p.log.localEpoch) })
    else none
  | .writeSlot => s.writeSlot p
  | .finishCheckpoint => s.finishCheckpoint p
  | .failCheckpoint => some (s.setPool { p with checkpoint := none })
  | .readThrough => s.readThrough p
  | .lockLog => if p.commit.isNone then s.lockLog p else none
  | .deleteNext removed => s.deleteNext p removed

/-- While the pool is down devices lose what a crash takes; what a mount finds is there to stay. -/
def downStep (s : State n) : Action n → Option (State n)
  | .mount given =>
    if given ≠ [] then
      some { s with
        devices := fun v ↦ { s.devices v with segments := (s.devices v).segments.mapVal Copy.fsync }
        pool := some (s.openOn (given.insertionSort (· ≤ ·))) }
    else none
  | .lose v id keep =>
    some (s.onSegment [v] id fun c ↦ { c with records := c.records.take (max keep c.durable) })
  | _ => none

def step (s : State n) (a : Action n) : Option (State n) :=
  match s.pool with
  | none => s.downStep a
  | some p => s.mountedStep p a

end State

/-- The log of a new pool, whose devices hold no delta segment. -/
def deltaLog (n : Nat) : Machine (State n) (Action n) where
  init s := s.pool = none ∧ ∀ v id, s.copy v id = none
  step := State.step

end Lchfs.Delta
