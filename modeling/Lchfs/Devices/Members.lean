import Lchfs.Format.Objects
import Lchfs.Library.Machine

/-!
# Devices, members and segment ids

A pool's devices each hold segments and a superblock. A mount opens some of them, hands out
pool-wide segment ids, and takes devices in and out of its member set while it runs. A
segment is created in three steps that other threads can run between: the id is taken from
the counter, the device set is read, and the segment is created on each device of that set.

Delta-log segments have ids of their own and are left out, and so is the pool's uuid: every
device here is one of this pool. An unopened device keeps what it holds; segments are claimed
and removed durably, so a crash changes no device. That a record is durable, indexed or
referenced plays no part here.
-/

namespace Lchfs.Devices

open Lchfs.Format (SegmentId)
open Lchfs.Library

abbrev VdevId := Nat

inductive SegmentKind
  | data
  | metadata
  | stripeShard (index : Nat)
  deriving DecidableEq

structure Segment (Hash : Type) where
  kind : SegmentKind
  id : SegmentId
  records : List Hash
  deriving DecidableEq

structure SuperblockSlot where
  vdevId : VdevId
  vdevCount : Nat
  generation : Nat
  deriving DecidableEq

structure Vdev (Dev : Type) where
  id : VdevId
  root : Dev
  deriving DecidableEq

/-- A segment about to be created. The targets of a data or meta segment are read from the
member set after its id was taken. -/
structure Creation (Dev : Type) where
  kind : SegmentKind
  id : SegmentId
  targets : Option (List Dev)
  deriving DecidableEq

/-- A mount: `VdevSet`, the id counter, the devices the coalescer last read, and the segments
about to be created. `opened` is a ghost: every device this mount has had as a member. -/
structure Mount (Dev : Type) where
  members : List (Vdev Dev)
  faulted : List (Vdev Dev)
  count : Nat
  catchingUp : List VdevId
  generation : Nat
  nextSegmentId : SegmentId
  passTargets : List Dev
  creations : List (Creation Dev)
  opened : List Dev

structure State (Dev Hash : Type) where
  segments : Dev → List (Segment Hash)
  superblock : Dev → Option SuperblockSlot
  mount : Option (Mount Dev)

/-! ## One device -/

section Device

variable {Hash : Type}

def removeSegment (kind : SegmentKind) (id : SegmentId) (segs : List (Segment Hash)) :
    List (Segment Hash) :=
  segs.filter fun seg ↦ ¬(seg.kind = kind ∧ seg.id = id)

/-- `create_segment`: one that already exists is removed first. -/
def createSegment (kind : SegmentKind) (id : SegmentId) (segs : List (Segment Hash)) :
    List (Segment Hash) :=
  ⟨kind, id, []⟩ :: removeSegment kind id segs

def appendRecord (kind : SegmentKind) (id : SegmentId) (hash : Hash) (segs : List (Segment Hash)) :
    List (Segment Hash) :=
  segs.map fun seg ↦
    if seg.kind = kind ∧ seg.id = id then { seg with records := seg.records ++ [hash] } else seg

/-- `highest_segment_id_on`. -/
def highestSegmentId (segs : List (Segment Hash)) : SegmentId :=
  (segs.map (·.id)).foldr max 0

end Device

/-! ## The member set -/

namespace Mount

variable {Dev : Type} (m : Mount Dev)

/-- `VdevSet::online`. -/
def online : List Dev :=
  m.members.map (·.root)

def isOnline (id : VdevId) : Bool :=
  m.members.any (·.id = id)

/-- `VdevSet::missing`: the slots with no device online. -/
def missing : List VdevId :=
  (List.range m.count).filter fun id ↦ !m.isOnline id

/-- `VdevSet::faulted_root`. -/
def faultedRoot (id : VdevId) : Option Dev :=
  (m.faulted.find? (·.id = id)).map (·.root)

/-- `VdevSet::attach`. -/
def attach (vdev : Vdev Dev) : Mount Dev :=
  { m with
    members := m.members ++ [vdev]
    count := max m.count (vdev.id + 1)
    catchingUp := vdev.id :: m.catchingUp
    opened := vdev.root :: m.opened }

/-- `VdevSet::take_faulted`. -/
def takeFaulted (id : VdevId) : Mount Dev :=
  { m with faulted := m.faulted.filter (·.id ≠ id) }

/-- `VdevSet::fault`. -/
def fault (id : VdevId) : Mount Dev :=
  { m with
    members := m.members.filter (·.id ≠ id)
    faulted := m.faulted ++ m.members.filter (·.id = id)
    catchingUp := m.catchingUp.filter (· ≠ id) }

/-- `VdevSet::detach_last`. -/
def detachLast : Mount Dev :=
  { m with
    members := m.members.filter (·.id ≠ m.count - 1)
    faulted := m.faulted.filter (·.id ≠ m.count - 1)
    catchingUp := m.catchingUp.filter (· ≠ m.count - 1)
    count := m.count - 1
    passTargets := [] }

/-- Takes an id for a segment to be created. -/
def allocate (kind : SegmentKind) (targets : Option (List Dev)) : Mount Dev :=
  { m with
    nextSegmentId := m.nextSegmentId + 1
    creations := m.creations ++ [⟨kind, m.nextSegmentId, targets⟩] }

/-- Reads the member set for the segment with this id. -/
def readOnline (id : SegmentId) : Mount Dev :=
  { m with
    creations := m.creations.map fun c ↦
      if c.id = id then { c with targets := some (c.targets.getD m.online) } else c }

def forget (id : SegmentId) : Mount Dev :=
  { m with creations := m.creations.filter (·.id ≠ id) }

end Mount

/-! ## Steps -/

/-- Who creates a segment: a shard's data writer, the meta writer, a heal writer, the repack of
one device's segment, or the repack of a stripe into mirrors. -/
inductive Writer (Dev : Type)
  | shard
  | metadata
  | heal (dev : Dev) (kind : SegmentKind)
  | repack (dev : Dev)
  | unstripe

/-- The kind of segment a writer creates and the devices it has chosen when it takes the id.
The coalescer goes by the member set as it last read it. -/
def Writer.plan {Dev : Type} [DecidableEq Dev] (m : Mount Dev) : Writer Dev → Option (SegmentKind × Option (List Dev))
  | .shard => some (.data, none)
  | .metadata => some (.metadata, none)
  | .heal dev kind => if dev ∈ m.online then some (kind, some [dev]) else none
  | .repack dev => if dev ∈ m.passTargets then some (.data, some [dev]) else none
  | .unstripe => some (.data, some m.passTargets)

inductive Action (Dev Hash : Type)
  | create (roots : List Dev)
  | openSet (roots : List Dev) (allowMissing : Bool)
  | allocate (writer : Writer Dev)
  | readOnline (id : SegmentId)
  | createSegment (id : SegmentId) (failed : List Dev)
  | giveUp (id : SegmentId)
  | append (dev : Dev) (kind : SegmentKind) (id : SegmentId) (hash : Hash)
  | removeSegment (dev : Dev) (kind : SegmentKind) (id : SegmentId)
  | writeShard (dev : Dev) (index : Nat) (id : SegmentId)
  | readTargets
  | fault (id : VdevId)
  | attachVdevLive (dev : Dev)
  | onlineVdev (dev : Dev)
  | finishCatchUp (id : VdevId)
  | checkpoint
  | detachVdevLive
  | crash

namespace State

variable {Dev Hash : Type} [DecidableEq Dev] (s : State Dev Hash)

def modifyDevice (dev : Dev) (f : List (Segment Hash) → List (Segment Hash)) : State Dev Hash :=
  { s with segments := fun d ↦ if d = dev then f (s.segments d) else s.segments d }

def isBlank (dev : Dev) : Prop :=
  s.segments dev = [] ∧ s.superblock dev = none

instance (dev : Dev) : Decidable (s.isBlank dev) :=
  inferInstanceAs (Decidable (_ ∧ _))

/-- `Pool::create`: segment ids start at zero. The first checkpoint writes the superblocks. -/
def create (roots : List Dev) : Option (State Dev Hash) :=
  if s.mount.isNone ∧ roots ≠ [] ∧ roots.Nodup ∧ ∀ root ∈ roots, s.isBlank root then
    some { s with
      mount := some
        { members := roots.zipIdx.map fun (root, id) ↦ ⟨id, root⟩
          faulted := []
          count := roots.length
          catchingUp := []
          generation := 0
          nextSegmentId := 0
          passTargets := []
          creations := []
          opened := roots } }
  else none

/-- `check_membership`: every root has a superblock and a slot of its own; unless devices may
be missing, the roots are the pool's slots in order. The highest slot count wins. -/
def checkMembership (roots : List Dev) (allowMissing : Bool) :
    Option (List (SuperblockSlot × Dev)) :=
  (roots.mapM fun root ↦ (s.superblock root).map (·, root)).bind fun slots ↦
    let ids := slots.map (·.1.vdevId)
    let count := (slots.map (·.1.vdevCount)).foldr max 0
    if slots ≠ [] ∧ ids.Nodup ∧ (allowMissing ∨ ids = List.range count) then some slots else none

/-- `open_set`: the id counter starts above the highest id on the devices that are present. -/
def openSet (roots : List Dev) (allowMissing : Bool) : Option (State Dev Hash) :=
  if s.mount.isNone then
    (s.checkMembership roots allowMissing).map fun slots ↦
      { s with
        mount := some
          { members := slots.map fun (slot, root) ↦ ⟨slot.vdevId, root⟩
            faulted := []
            count := (slots.map (·.1.vdevCount)).foldr max 0
            catchingUp := []
            generation := (slots.map (·.1.generation)).foldr max 0
            nextSegmentId := (slots.map fun (_, root) ↦ highestSegmentId (s.segments root)).foldr max 0 + 1
            passTargets := []
            creations := []
            opened := slots.map (·.2) } }
  else none

/-- `create_on`: the segment is created on each target that does not fail. -/
def createOn (c : Creation Dev) (targets failed : List Dev) : State Dev Hash :=
  { s with
    segments := fun dev ↦
      if dev ∈ targets ∧ dev ∉ failed then Devices.createSegment c.kind c.id (s.segments dev)
      else s.segments dev }

/-- The slot `attach_vdev_live` gives a blank device: the missing one, or a new last one. -/
def attachSlot (m : Mount Dev) : Option VdevId :=
  match m.missing with
  | [] => some m.count
  | [id] => some id
  | _ => none

/-- `online_vdev` up to `join_live`: the device must hold a superblock, and its slot must be
one of the pool's and not online, not ahead of this mount, and not faulted at another root. -/
def onlineVdev (m : Mount Dev) (dev : Dev) : Option (Mount Dev) :=
  (s.superblock dev).bind fun slot ↦
    if m.isOnline slot.vdevId = false ∧ dev ∉ m.online ∧ slot.vdevId < m.count ∧
        slot.generation ≤ m.generation ∧ (m.faultedRoot slot.vdevId).getD dev = dev then
      some ((m.takeFaulted slot.vdevId).attach ⟨slot.vdevId, dev⟩)
    else none

/-- Publishes a generation: a device that is catching up keeps its superblock. -/
def checkpoint (m : Mount Dev) : State Dev Hash :=
  { s with
    superblock := fun dev ↦
      match m.members.find? fun v ↦ v.root = dev ∧ v.id ∉ m.catchingUp with
      | some v => some ⟨v.id, m.count, m.generation + 1⟩
      | none => s.superblock dev
    mount := some { m with generation := m.generation + 1 } }

/-- `detach_vdev_live` after it has shown the other devices complete: the last slot leaves and
its device is wiped. -/
def detachVdevLive (m : Mount Dev) : State Dev Hash :=
  let leaving := ((m.members ++ m.faulted).filter (·.id = m.count - 1)).map (·.root)
  { segments := fun dev ↦ if dev ∈ leaving then [] else s.segments dev
    superblock := fun dev ↦ if dev ∈ leaving then none else s.superblock dev
    mount := some m.detachLast }

/-- A step of a mounted pool. -/
def mountedStep (m : Mount Dev) : Action Dev Hash → Option (State Dev Hash)
  | .create _ | .openSet _ _ => none
  | .allocate writer =>
    (writer.plan m).map fun (kind, targets) ↦
      { s with mount := some (m.allocate kind targets) }
  | .readOnline id => some { s with mount := some (m.readOnline id) }
  | .createSegment id failed =>
    (m.creations.find? (·.id = id)).bind fun c ↦
      c.targets.map fun targets ↦ { s.createOn c targets failed with mount := some (m.forget id) }
  | .giveUp id => some { s with mount := some (m.forget id) }
  | .append dev kind id hash =>
    if dev ∈ m.opened then some (s.modifyDevice dev (appendRecord kind id hash)) else none
  | .removeSegment dev kind id =>
    if dev ∈ m.opened then some (s.modifyDevice dev (Devices.removeSegment kind id)) else none
  -- A shard has the id of the segment it replaces or of the stripe it belongs to.
  | .writeShard dev index id =>
    if dev ∈ m.online ∧ ∃ d ∈ m.online, ∃ seg ∈ s.segments d, seg.id = id then
      some (s.modifyDevice dev (Devices.createSegment (.stripeShard index) id))
    else none
  | .readTargets => some { s with mount := some { m with passTargets := m.online } }
  | .fault id => some { s with mount := some (m.fault id) }
  | .attachVdevLive dev =>
    if s.isBlank dev ∧ ∀ v ∈ m.members ++ m.faulted, v.root ≠ dev then
      (attachSlot m).map fun id ↦ { s with mount := some (m.attach ⟨id, dev⟩) }
    else none
  | .onlineVdev dev => (s.onlineVdev m dev).map fun m' ↦ { s with mount := some m' }
  | .finishCatchUp id =>
    some { s with mount := some { m with catchingUp := m.catchingUp.filter (· ≠ id) } }
  | .checkpoint => some (s.checkpoint m)
  | .detachVdevLive => if 1 < m.count then some (s.detachVdevLive m) else none
  | .crash => some { s with mount := none }

def step (a : Action Dev Hash) : Option (State Dev Hash) :=
  match s.mount with
  | some m => s.mountedStep m a
  | none =>
    match a with
    | .create roots => s.create roots
    | .openSet roots allowMissing => s.openSet roots allowMissing
    | _ => none

end State

/-- The devices of a pool, all blank at first. -/
def members (Dev Hash : Type) [DecidableEq Dev] : Machine (State Dev Hash) (Action Dev Hash) where
  init s := s.mount = none ∧ ∀ dev, s.isBlank dev
  step s a := s.step a

end Lchfs.Devices
