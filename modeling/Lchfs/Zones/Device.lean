import Lchfs.Library.Faults
import Lchfs.Library.Machine
import Lchfs.Library.Table
import Lchfs.Library.WriteCache
import Lchfs.Zones.Layout

/-!
# The zone layer of a device

Segments live in zones. A zone's header on disk names the segment it belongs to and its
place in it; the zone map and the segment table in memory are rebuilt from the headers at
every mount. The functions are those of the source, as programs whose writes, zeroings and
flushes may fail or be the last thing before the power is lost; `device` is the machine
that runs them one after the other.
-/

namespace Lchfs.Zones

open Lchfs.Library

/-- What is on the disk: the header block of every zone, decoded, and the other bytes by their
address. -/
structure Image where
  header : Nat → Option ZoneHeader
  byte : Nat → UInt8

inductive Write
  | header (zone : Nat) (h : ZoneHeader)
  | bytes (start : Nat) (data : List UInt8)
  | zeros (start len : Nat)
  deriving DecidableEq, Repr

namespace Image

def apply (i : Image) : Write → Image
  | .header zone h => { i with header := Function.update i.header zone (some h) }
  | .bytes start data =>
    { i with
      byte := fun a ↦
        if start ≤ a ∧ a < start + data.length then data.getD (a - start) 0 else i.byte a }
  | .zeros start len =>
    { i with byte := fun a ↦ if start ≤ a ∧ a < start + len then 0 else i.byte a }

end Image

abbrev Disk := WriteCache Image Write

/-- The kind and the number of a segment. -/
abbrev Key := SegmentKind × Nat

/-- A zone as allocation keeps it. -/
inductive Zone
  | clean
  | unknown
  | owned
  | freeing
  deriving DecidableEq, Repr

structure SegInner where
  key : Key
  zones : List Nat
  len : Nat
  syncedLen : Nat
  removed : Bool
  deriving DecidableEq, Repr

/-- What an open device keeps in memory. A segment object lives in the heap as long as the table or
an open handle refers to it. -/
structure Memory where
  zones : List Zone
  segments : Table Key Nat
  heap : Table Nat SegInner
  handles : List Nat
  next : Nat
  allocationBlocked : Bool

structure Device where
  disk : Disk
  memory : Memory

abbrev DiskIo := Faulty ErrorKind Disk

abbrev DeviceIo := Faulty ErrorKind Device

def onDisk {α : Type} (m : DiskIo α) : DeviceIo α :=
  Faulty.zoom Device.disk (fun disk d ↦ { d with disk }) m

def onMemory (g : Memory → Memory) : DeviceIo Unit :=
  Faulty.change fun d ↦ { d with memory := g d.memory }

variable {A : Answer → Prop}

/-- What a program does on disk leaves the memory alone. -/
theorem onDisk_frame {α : Type} {D : Disk → Prop} {m : DiskIo α} {Q : α → Disk → Prop}
    {E : ErrorKind → Disk → Prop} {L : Disk → Prop} (h : Ensures A D m Q E L) (P : Memory → Prop) :
    Ensures A (fun d ↦ D d.disk ∧ P d.memory) (onDisk m) (fun a d ↦ Q a d.disk ∧ P d.memory)
      (fun e d ↦ E e d.disk ∧ P d.memory) fun d ↦ L d.disk ∧ P d.memory := by
  refine Ensures.zoom fun d hd ↦ ?_
  refine (h.weaken fun _ heq ↦ ?_).mono (fun _ h ↦ h) (fun _ _ h ↦ ⟨h, hd.2⟩)
    (fun _ _ h ↦ ⟨h, hd.2⟩) fun _ h ↦ ⟨h, hd.2⟩
  exact heq ▸ hd.1

theorem onMemory_ensures {P : Device → Prop} {Q : Unit → Device → Prop}
    {E : ErrorKind → Device → Prop} {L : Device → Prop} {g : Memory → Memory}
    (h : ∀ d, P d → Q () { d with memory := g d.memory }) : Ensures A P (onMemory g) Q E L :=
  Ensures.change h

/-! ## Headers and zones on disk -/

section Disk

def issue (w : Write) : DiskIo Unit := Faulty.call .other (WriteCache.write w)

def sync : DiskIo Unit := Faulty.call .other (WriteCache.flush Image.apply)

variable (f : Format)

def readZoneHeader (i : Image) (zone : Nat) : Option ZoneHeader :=
  (i.header zone).filter fun h ↦ h.isValidFor f.headerCrc f.label.deviceUuid

def writeZoneHeader (zone : Nat) (h : ZoneHeader) : DiskIo Unit := issue (.header zone (f.stamp h))

/-- Zeroes the payload of a zone. -/
def zeroPayload (zone : Nat) : DiskIo Unit :=
  issue (.zeros (f.label.zoneOffset zone + deviceBlock) f.label.payload)

/-- A header without a segment. -/
def blankHeader (state : ZoneState) : ZoneHeader :=
  { magic := zoneHeaderMagic, deviceUuid := 0, state, kind := .data, segmentId := 0
    ordinal := 0, writtenLen := 0, checksum := 0 }

/-- The header of a segment's zone. -/
def ownedHeader (key : Key) (ordinal writtenLen : Nat) : ZoneHeader :=
  { magic := zoneHeaderMagic, deviceUuid := 0, state := .owned, kind := key.1
    segmentId := key.2, ordinal, writtenLen, checksum := 0 }

/-- Zeroes the zones it can; the result is those. -/
def zeroEach : List Nat → DiskIo (List Nat)
  | [] => pure []
  | zone :: zones => do
    let result ← (zeroPayload f zone).attempt
    let zeroed ← zeroEach zones
    match result with
    | .ok _ => pure (zone :: zeroed)
    | .error _ => pure zeroed

/-- Zeroes zones' payloads and marks them free. The zeroing is flushed before any is marked. -/
def zeroAndFree (zones : List Nat) : DiskIo (List Nat) := do
  let zeroed ← zeroEach f zones
  if zeroed = [] then pure zeroed
  else do
    sync
    zeroed.forM fun zone ↦ writeZoneHeader f zone (blankHeader .free)
    pure zeroed

/-- Writes a `Freeing` header over one zone. -/
def markFreeing (zone : Nat) : DiskIo Unit := writeZoneHeader f zone (blankHeader .freeing)

end Disk

/-! ## The scan of a mount -/

section Scan

/-- A zone of a segment as the scan finds it: ordinal, zone, written length. -/
abbrev Part := Nat × Nat × Nat

/-- The order of triples. -/
def partLe (p q : Part) : Prop :=
  p.1 < q.1 ∨ p.1 = q.1 ∧ (p.2.1 < q.2.1 ∨ p.2.1 = q.2.1 ∧ p.2.2 ≤ q.2.2)

instance : DecidableRel partLe := fun p q ↦ by
  unfold partLe
  infer_instance

variable (f : Format)

/-- The segment that a header names, with the zone as a part of it. -/
def partOf (i : Image) (zone : Nat) : Option (Key × Part) :=
  (readZoneHeader f i zone).bind fun h ↦
    if h.state = .owned then some ((h.kind, h.segmentId), (h.ordinal, zone, h.writtenLen)) else none

/-- A zone before the scan finishes anything. -/
def classify (i : Image) (zone : Nat) : Zone :=
  match readZoneHeader f i zone with
  | some h =>
    match h.state with
    | .free => .clean
    | .owned => .owned
    | .freeing => .unknown
  | none => .unknown

/-- The zones that a removal left half freed. -/
def unfinished (i : Image) : List Nat :=
  (List.range f.label.zoneCount).filter fun zone ↦
    (readZoneHeader f i zone).any fun h ↦ h.state = .freeing

/-- The zones of every segment that some header names. -/
def found (i : Image) : Table Key (List Part) :=
  (List.range f.label.zoneCount).foldl (fun t zone ↦ Table.push t (partOf f i zone)) ∅

/-- What the scan makes of the zones of one segment. -/
structure Adopted where
  list : List Nat
  written : Nat
  orphans : List Nat
  deriving DecidableEq, Repr

/-- A zone continues the segment or cannot be part of it. -/
def Adopted.add (a : Adopted) (p : Part) : Adopted :=
  if p.1 = a.list.length then
    { a with list := a.list ++ [p.2.1], written := if p.1 = 0 then p.2.2 else a.written }
  else { a with orphans := a.orphans ++ [p.2.1] }

def adopt (parts : List Part) : Adopted :=
  (parts.insertionSort partLe).foldl Adopted.add ⟨[], 0, []⟩

/-- The table as far as the scan has rebuilt it. -/
structure Rebuilt where
  segments : Table Key Nat
  heap : Table Nat SegInner
  next : Nat
  orphans : List Nat

/-- The length of a segment as the scan finds it: what its first zone records, up to its capacity. -/
def Adopted.len (a : Adopted) : Nat := min a.written (a.list.length * f.label.payload)

/-- The segment object that the scan makes of its zones. -/
def Adopted.segment (a : Adopted) (key : Key) : SegInner :=
  { key, zones := a.list, len := a.len f, syncedLen := a.len f, removed := false }

def Rebuilt.add (r : Rebuilt) (entry : Key × List Part) : Rebuilt :=
  if (adopt entry.2).list = [] then { r with orphans := r.orphans ++ (adopt entry.2).orphans }
  else
    { segments := r.segments.insert entry.1 r.next
      heap := r.heap.insert r.next ((adopt entry.2).segment f entry.1)
      next := r.next + 1
      orphans := r.orphans ++ (adopt entry.2).orphans }

def rebuild (i : Image) : Rebuilt := (found f i).toList.foldl (Rebuilt.add f) ⟨∅, ∅, 0, []⟩

/-- Sets some zones of the map. -/
def setZones (zones : List Nat) (state : Zone) (map : List Zone) : List Zone :=
  zones.foldl (fun map zone ↦ map.set zone state) map

/-- Reads every zone header: rebuilds the segment table and the free map, and finishes zeroing any
zone a removal left `Freeing`. -/
def scanZones : DeviceIo Unit := do
  let image := (← Faulty.read).disk.visible Image.apply
  let zones := (List.range f.label.zoneCount).map (classify f image)
  let freed ← onDisk (zeroAndFree f (unfinished f image))
  let zones := setZones freed .clean zones
  let rebuilt := rebuild f image
  onDisk (rebuilt.orphans.forM (markFreeing f))
  onDisk sync
  let zones := setZones rebuilt.orphans .freeing zones
  let freed ← onDisk (zeroAndFree f rebuilt.orphans)
  let zones := setZones freed .clean zones
  onDisk sync
  onMemory fun _ ↦
    { zones, segments := rebuilt.segments, heap := rebuilt.heap, handles := []
      next := rebuilt.next, allocationBlocked := false }

end Scan

/-! ## Segments -/

section Segments

variable (f : Format)

/-- The first clean zone, else the first unknown one. -/
def pickZone (zones : List Zone) : Option (Nat × Zone) :=
  match zones.findIdx? (· == .clean) with
  | some zone => some (zone, .clean)
  | none => (zones.findIdx? (· == .unknown)).map fun zone ↦ (zone, .unknown)

/-- Zeroes a zone that is not known zero. -/
def zeroUnknown (zone : Nat) (was : Zone) : DiskIo Unit :=
  if was = .unknown then zeroPayload f zone else pure ()

/-- The part of a claim that may fail: the zone is zeroed if it is not known zero, and the claim is
made durable. -/
def takeZone (key : Key) (ordinal zone : Nat) (was : Zone) : DiskIo Unit := do
  zeroUnknown f zone was
  writeZoneHeader f zone (ownedHeader key ordinal 0)
  sync

/-- Claims a free zone for ordinal `ordinal` of a segment. -/
def claimZone (key : Key) (ordinal : Nat) : DeviceIo Nat := do
  let d ← Faulty.read
  if d.memory.allocationBlocked then Faulty.raise .other
  else
    match pickZone d.memory.zones with
    | none => Faulty.raise .storageFull
    | some (zone, was) => do
      onMemory fun m ↦ { m with zones := m.zones.set zone .owned }
      let result ← (onDisk (takeZone f key ordinal zone was)).attempt
      match result with
      | .ok _ => pure zone
      | .error e => do
        onMemory fun m ↦ { m with zones := m.zones.set zone was }
        Faulty.raise e

/-- Releases a removed segment's zones once nothing has it open. -/
def release (zones : List Nat) : DeviceIo Unit := do
  let result ← (onDisk (zeroAndFree f zones)).attempt
  match result with
  | .ok freed => onMemory fun m ↦ { m with zones := setZones freed .clean m.zones }
  | .error _ => pure ()

/-- Whether the table or a handle refers to a segment object. -/
def Memory.refers (m : Memory) (ref : Nat) : Bool :=
  m.handles.contains ref || m.segments.toList.any fun entry ↦ entry.2 == ref

/-- One reference to a segment object is gone. The last one drops the object, and a removed segment
then gives its zones back. -/
def dropRef (ref : Nat) : DeviceIo Unit := do
  let d ← Faulty.read
  if d.memory.refers ref then pure ()
  else
    match d.memory.heap.lookup ref with
    | none => pure ()
    | some seg => do
      onMemory fun m ↦ { m with heap := m.heap.erase ref }
      if seg.removed then release f seg.zones

def Memory.zonesOf (m : Memory) (ref : Nat) : List Nat :=
  ((m.heap.lookup ref).map SegInner.zones).getD []

/-- Marks removed segments' zones `Freeing` on disk and in the map. Each segment's first zone goes
first, and is flushed before the rest. -/
def markRemoved (refs : List Nat) : DeviceIo Unit := do
  if refs = [] then pure ()
  else do
    let d ← Faulty.read
    let zones := refs.map d.memory.zonesOf
    onDisk ((zones.flatMap (List.take 1)).forM (markFreeing f))
    onDisk sync
    onDisk ((zones.flatMap (List.drop 1)).forM (markFreeing f))
    onDisk sync
    onMemory fun m ↦
      { m with
        zones := setZones zones.flatten .freeing m.zones
        heap := refs.foldl (fun heap ref ↦ Table.modify ref (fun seg ↦ { seg with removed := true }) heap)
          m.heap }

/-- Removes a segment. -/
def removeSegment (key : Key) : DeviceIo Unit := do
  let d ← Faulty.read
  match d.memory.segments.lookup key with
  | none => Faulty.raise .notFound
  | some ref => do
    onMemory fun m ↦ { m with segments := m.segments.erase key }
    let result ← (markRemoved f [ref]).attempt
    dropRef f ref
    match result with
    | .ok _ => pure ()
    | .error e => Faulty.raise e

/-- Removes every segment on the device. -/
def removeAllSegments : DeviceIo Unit := do
  let d ← Faulty.read
  let refs := d.memory.segments.toList.map (·.2)
  onMemory fun m ↦ { m with segments := ∅ }
  let result ← (markRemoved f refs).attempt
  refs.forM (dropRef f)
  match result with
  | .ok _ => pure ()
  | .error e => Faulty.raise e

/-- Enters a new segment with one zone, and opens it. -/
def Memory.enter (key : Key) (zone : Nat) (m : Memory) : Memory :=
  { m with
    segments := m.segments.insert key m.next
    heap := m.heap.insert m.next
      { key, zones := [zone], len := 0, syncedLen := 0, removed := false }
    handles := m.next :: m.handles
    next := m.next + 1 }

/-- Creates a segment, empty. One that already exists is removed first. -/
def createSegment (key : Key) : DeviceIo Unit := do
  let result ← (removeSegment f key).attempt
  match result with
  | .ok _ | .error .notFound => do
    let zone ← claimZone f key 0
    onMemory (Memory.enter key zone)
  | .error e => Faulty.raise e

/-- Opens an existing segment. -/
def openSegment (key : Key) : DeviceIo Unit := do
  let d ← Faulty.read
  match d.memory.segments.lookup key with
  | none => Faulty.raise .notFound
  | some ref => onMemory fun m ↦ { m with handles := ref :: m.handles }

/-! ## Handles -/

/-- A piece of a read or write: its device address, its place in the buffer and its length. -/
structure Piece where
  start : Nat
  skip : Nat
  len : Nat
  deriving DecidableEq, Repr

/-- The pieces of the bytes from `pos` to `stop`, which begin in the first zone of the list. Every
round ends at the end of a zone or at `stop`. -/
def pieces (l : DeviceLabel) (offset stop : Nat) : List Nat → Nat → List Piece
  | [], _ => []
  | zone :: zones, pos =>
    if pos < stop then
      let n := min (l.payload - pos % l.payload) (stop - pos)
      ⟨l.zoneOffset zone + deviceBlock + pos % l.payload, pos - offset, n⟩ ::
        pieces l offset stop zones (pos + n)
    else []

/-- Claims zones for a segment, one after the other. -/
def grow (ref : Nat) : Nat → DeviceIo Unit
  | 0 => pure ()
  | n + 1 => do
    let d ← Faulty.read
    match d.memory.heap.lookup ref with
    | none => pure ()
    | some seg => do
      let zone ← claimZone f seg.key (seg.zones.length % 2 ^ 32)
      onMemory fun m ↦
        { m with heap := Table.modify ref (fun seg ↦ { seg with zones := seg.zones ++ [zone] }) m.heap }
      grow ref n

/-- Zones that a segment needs to hold the bytes before `stop`. -/
def neededZones (l : DeviceLabel) (stop : Nat) : Nat := (stop + l.payload - 1) / l.payload

/-- Whether the bytes before `stop` do not fit into the zones that a segment has. -/
def Memory.grows (m : Memory) (ref stop : Nat) : Bool :=
  decide (0 < stop) && decide ((m.zonesOf ref).length < neededZones f.label stop)

/-- Claims the zones that a write up to `stop` needs. -/
def growTo (ref stop : Nat) : DeviceIo Unit := do
  let d ← Faulty.read
  if d.memory.grows f ref stop then
    grow f ref (neededZones f.label stop - (d.memory.zonesOf ref).length)
  else pure ()

/-- The pieces of the bytes from `offset` to `stop` in the zones of a segment, if it has them. -/
def locate (l : DeviceLabel) (zones : List Nat) (offset stop : Nat) : Option (List Piece) :=
  if offset / l.payload ≤ neededZones l stop ∧ neededZones l stop ≤ zones.length then
    some (pieces l offset stop ((zones.take (neededZones l stop)).drop (offset / l.payload)) offset)
  else none

/-- The pieces of a write of `len` bytes, after claiming the zones it needs. -/
def mapPieces (ref offset len : Nat) : DeviceIo (List Piece) := do
  growTo f ref (wrap (offset + len))
  if wrap (offset + len) = offset then pure []
  else do
    let d ← Faulty.read
    match locate f.label (d.memory.zonesOf ref) offset (wrap (offset + len)) with
    | some list => pure list
    | none => Faulty.raise .unexpectedEof

/-- Writes all of `data` at `offset`, growing the segment as needed. -/
def writeAllAt (ref offset : Nat) (data : List UInt8) : DeviceIo Unit := do
  let list ← mapPieces f ref offset data.length
  onDisk (list.forM fun p ↦ issue (.bytes p.start ((data.drop p.skip).take p.len)))
  onMemory fun m ↦
    { m with
      heap := Table.modify ref
        (fun seg ↦ { seg with len := max seg.len (wrap (offset + data.length)) }) m.heap }

/-- Writes the length of a segment into its first zone's header. -/
def recordLen (seg : SegInner) (len : Nat) : DiskIo Unit :=
  (seg.zones.take 1).forM fun zone ↦ writeZoneHeader f zone (ownedHeader seg.key 0 len)

/-- Persists the length of a segment that is not removed, if it changed: the bytes before the length
that covers them. -/
def persistLen (seg : SegInner) : DiskIo Unit :=
  if seg.syncedLen ≠ seg.len ∧ seg.removed = false then do
    sync
    recordLen f seg seg.len
  else pure ()

/-- Makes everything written so far durable, and the written length with it. -/
def syncAll (ref : Nat) : DeviceIo Unit := do
  let d ← Faulty.read
  match d.memory.heap.lookup ref with
  | none => pure ()
  | some seg => do
    onDisk (persistLen f seg)
    onDisk sync
    onMemory fun m ↦
      { m with
        heap := Table.modify ref (fun s ↦ { s with syncedLen := max s.syncedLen seg.len }) m.heap }

/-- One more handle like an open one. -/
def cloneHandle (ref : Nat) : DeviceIo Unit := do
  let d ← Faulty.read
  if ref ∈ d.memory.handles then onMemory fun m ↦ { m with handles := ref :: m.handles }
  else pure ()

/-- A handle is closed. -/
def dropHandle (ref : Nat) : DeviceIo Unit := do
  onMemory fun m ↦ { m with handles := m.handles.erase ref }
  dropRef f ref

/-- The listed segments whose length is not persisted. -/
def Memory.unsynced (m : Memory) : List SegInner :=
  (m.segments.toList.filterMap fun entry ↦ m.heap.lookup entry.2).filter fun seg ↦
    !seg.removed && seg.syncedLen != seg.len

/-- A clean close persists every segment's written length. -/
def closeDevice : DeviceIo Unit := do
  let d ← Faulty.read
  let segs := d.memory.unsynced
  if segs = [] then pure ()
  else do
    onDisk sync
    segs.forM fun seg ↦ do
      let _ ← (onDisk (recordLen f seg seg.len)).attempt
      pure ()
    onDisk sync

end Segments

/-! ## The machine -/

inductive State
  | closed (disk : Disk)
  | opened (device : Device)
  /-- The power is lost; what was not flushed may be missing. -/
  | down (disk : Disk)

inductive Action
  | mount (answers : List Answer)
  | create (key : Key) (answers : List Answer)
  | openHandle (key : Key)
  | cloneHandle (ref : Nat)
  | write (ref offset : Nat) (data : List UInt8) (answers : List Answer)
  | sync (ref : Nat) (answers : List Answer)
  | remove (key : Key) (answers : List Answer)
  | removeAll (answers : List Answer)
  | drop (ref : Nat) (answers : List Answer)
  | blockAllocation (blocked : Bool)
  | close (answers : List Answer)
  | crash (keep : List Bool)
  deriving DecidableEq, Repr

def Memory.empty : Memory := ⟨[], ∅, ∅, [], 0, false⟩

section Machine

variable (f : Format)

/-- The program of an action on an open device, with the answers of its calls. An action on a handle
needs the handle. -/
def Action.program (m : Memory) : Action → Option (DeviceIo Unit × List Answer)
  | .create key answers => some (createSegment f key, answers)
  | .openHandle key => some (openSegment key, [])
  | .cloneHandle ref => if ref ∈ m.handles then some (Zones.cloneHandle ref, []) else none
  | .write ref offset data answers =>
    if ref ∈ m.handles then some (writeAllAt f ref offset data, answers) else none
  | .sync ref answers => if ref ∈ m.handles then some (syncAll f ref, answers) else none
  | .remove key answers => some (removeSegment f key, answers)
  | .removeAll answers => some (removeAllSegments f, answers)
  | .drop ref answers => if ref ∈ m.handles then some (dropHandle f ref, answers) else none
  | .blockAllocation blocked =>
    some (onMemory fun m ↦ { m with allocationBlocked := blocked }, [])
  | .mount _ | .close _ | .crash _ => none

/-- The state after a program of an open device. -/
def afterOp {α : Type} : Ending ErrorKind α × Device × List Answer → State
  | (.powerLoss, d, _) => .down d.disk
  | (_, d, _) => .opened d

/-- The state after a mount: it is open if the scan succeeded. -/
def afterMount : Ending ErrorKind Unit × Device × List Answer → State
  | (.value _, d, _) => .opened d
  | (.error _, d, _) => .closed d.disk
  | (.powerLoss, d, _) => .down d.disk

/-- The state after a clean close, whose errors are only logged. -/
def afterClose : Ending ErrorKind Unit × Device × List Answer → State
  | (.powerLoss, d, _) => .down d.disk
  | (_, d, _) => .closed d.disk

def State.step : State → Action → Option State
  | .closed disk, .mount answers => some (afterMount (scanZones f ⟨disk, .empty⟩ answers))
  | .closed disk, .crash keep | .down disk, .crash keep =>
    some (.closed (disk.crash Image.apply keep))
  | .opened d, .crash keep => some (.closed (d.disk.crash Image.apply keep))
  | .opened d, .close answers =>
    if d.memory.handles = [] then some (afterClose (closeDevice f d answers)) else none
  | .opened d, a => (a.program f d.memory).map fun (m, answers) ↦ afterOp (m d answers)
  | _, _ => none

/-- A freshly formatted device: no zone header is one of this format's. -/
def State.Formatted : State → Prop
  | .closed disk => ∃ image, disk = .fresh image ∧ ∀ zone, readZoneHeader f image zone = none
  | _ => False

/-- One device, from its format on: mounts, operations on segments and handles, closes and losses of
power. -/
def device : Machine State Action where
  init := State.Formatted f
  step := State.step f

end Machine

end Lchfs.Zones
