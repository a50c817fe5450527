import Lchfs.Devices.Members

/-!
# The device set of a mount

Slots move between the members, the faulted devices and the absent ones: writers report
faults at any time, an operator takes a device offline or brings one online, the failover
task brings back what faulted on its own, a blank device is attached, the last slot is
detached, and the role of the primary moves. A device that joins is online for writes and
catching up until its resilver is done; a join that fails faults the device again.

The calls that change the set hold one lock for their whole length, so at most one join is
under way, but faults and offline calls come between its parts. What a device's superblock
ring says comes from the checkpoints of this mount or, for a device that was never a member
of it, from outside. The proof that a detach runs first, rolling the writers and the copying
itself are left out, and slots are not bounded.
-/

namespace Lchfs.Devices

open Lchfs.Library

structure VdevSet (Dev : Type) where
  members : List (Vdev Dev)
  faulted : List (Vdev Dev)
  count : Nat
  offlined : List VdevId
  catchingUp : List VdevId
  primary : VdevId

namespace VdevSet

variable {Dev : Type} (set : VdevSet Dev)

def online : List (Vdev Dev) :=
  set.members

def isOnline (id : VdevId) : Bool :=
  set.members.any (·.id = id)

def faultedRoot (id : VdevId) : Option Dev :=
  (set.faulted.find? (·.id = id)).map (·.root)

def primaryFaulted : Bool :=
  set.faulted.any (·.id = set.primary)

def promote (id : VdevId) : VdevSet Dev :=
  { set with primary := id }

/-- A device that fails an operation leaves the online set; a second report does nothing. -/
def fault (id : VdevId) : VdevSet Dev :=
  match set.members.find? (·.id = id) with
  | none => set
  | some member =>
    { set with
      members := set.members.eraseP (·.id = id)
      catchingUp := set.catchingUp.filter (· ≠ id)
      faulted := set.faulted ++ [member] }

/-- Slots with no device online. -/
def missing : List VdevId :=
  (List.range set.count).filter fun id ↦ !set.isOnline id

def attach (member : Vdev Dev) : VdevSet Dev :=
  { set with
    count := max set.count (member.id + 1)
    catchingUp := set.catchingUp.insert member.id
    members := (set.members ++ [member]).insertionSort fun v w ↦ v.id ≤ w.id }

def takeFaulted (id : VdevId) : VdevSet Dev :=
  { set with
    offlined := set.offlined.filter (· ≠ id)
    faulted := set.faulted.eraseP (·.id = id) }

def markOfflined (id : VdevId) : VdevSet Dev :=
  { set with offlined := set.offlined.insert id }

/-- What automatic rejoin probes. -/
def faultedUnintended : List (Vdev Dev) :=
  set.faulted.filter (·.id ∉ set.offlined)

/-- The last slot goes: its member if there is one, or else its faulted device. -/
def detachLast : VdevSet Dev :=
  let id := set.count - 1
  { set with
    members := set.members.eraseP (·.id = id)
    faulted := if set.isOnline id then set.faulted else set.faulted.eraseP (·.id = id)
    catchingUp := set.catchingUp.filter (· ≠ id)
    offlined := set.offlined.filter (· ≠ id)
    count := id }

def finishCatchUp (id : VdevId) : VdevSet Dev :=
  { set with catchingUp := set.catchingUp.filter (· ≠ id) }

/-- The mount holds the lock of the device. -/
def owns [DecidableEq Dev] (root : Dev) : Bool :=
  (set.members ++ set.faulted).any (·.root = root)

/-- The slot `attach_vdev_live` gives a blank device: the one that is missing, or a new last
one. -/
def attachSlot : Option VdevId :=
  match set.missing with
  | [] => some set.count
  | [id] => some id
  | _ => none

end VdevSet

/-- A mount's device set with the rings of all devices. `joining` is the slot of the join under
way. -/
structure Slots (Dev : Type) where
  set : VdevSet Dev
  ring : Dev → Option SuperblockSlot
  generation : Nat
  joining : Option VdevId

inductive SlotAction (Dev : Type)
  | fault (id : VdevId)
  | offlineVdev (id : VdevId)
  | onlineVdev (root : Dev)
  | rejoin (id : VdevId)
  | attachVdevLive (root : Dev)
  | finishCatchUp
  | endJoin (ok : Bool)
  | checkpoint
  | detachVdevLive
  | promotePrimary

namespace Slots

variable {Dev : Type} [DecidableEq Dev] (s : Slots Dev)

/-- `online_vdev` up to the attach of `join_live`: the slot the ring names, if it is one of the
pool's that is not online, not ahead of this mount and not faulted at another root, and the
set with the device in it. -/
def onlineVdev (root : Dev) : Option (VdevId × VdevSet Dev) :=
  (s.ring root).bind fun slot ↦
    let id := slot.vdevId
    if s.set.isOnline id then none
    else if s.set.count ≤ id then none
    else if s.generation < slot.generation then none
    else
      match s.set.faultedRoot id with
      | some faultedRoot =>
        if faultedRoot = root then some (id, (s.set.takeFaulted id).attach ⟨id, root⟩) else none
      | none =>
        if s.set.owns root then none else some (id, (s.set.takeFaulted id).attach ⟨id, root⟩)

def join (result : VdevId × VdevSet Dev) : Slots Dev :=
  { s with set := result.2, joining := some result.1 }

def setVdevs (set : VdevSet Dev) : Slots Dev :=
  { s with set := set }

/-- Every member that is not catching up gets the new generation in its ring. -/
def checkpoint : Slots Dev :=
  { s with
    generation := s.generation + 1
    ring := fun root ↦
      match s.set.members.find? fun v ↦ v.root = root ∧ v.id ∉ s.set.catchingUp with
      | some v => some ⟨v.id, s.set.count, s.generation + 1⟩
      | none => s.ring root }

/-- The slot leaves, and its device loses its ring. -/
def detachVdevLive : Slots Dev :=
  let leaving := ((s.set.members ++ s.set.faulted).find? (·.id = s.set.count - 1)).map (·.root)
  { s with
    set := s.set.detachLast
    ring := fun root ↦ if some root = leaving then none else s.ring root }

/-- One call, or one part of a join. A call that returns an error before it changes anything is
not a step. -/
def step : SlotAction Dev → Option (Slots Dev)
  | .fault id => some (s.setVdevs (s.set.fault id))
  | .offlineVdev id =>
    if id = s.set.primary ∨ ¬s.set.isOnline id then none
    else some (s.setVdevs ((s.set.fault id).markOfflined id))
  | .onlineVdev root => if s.joining.isSome then none else (s.onlineVdev root).map s.join
  -- The failover task faults the slot again when it cannot be brought back.
  | .rejoin id =>
    if s.joining.isSome then none
    else
      (s.set.faultedUnintended.find? (·.id = id)).map fun vdev ↦
        match s.onlineVdev vdev.root with
        | some result => s.join result
        | none => s.setVdevs (s.set.fault vdev.id)
  | .attachVdevLive root =>
    if s.joining.isSome ∨ (s.ring root).isSome ∨ s.set.owns root then none
    else s.set.attachSlot.map fun id ↦ s.join (id, s.set.attach ⟨id, root⟩)
  | .finishCatchUp => s.joining.map fun id ↦ s.setVdevs (s.set.finishCatchUp id)
  | .endJoin ok =>
    s.joining.map fun id ↦
      { s with set := if ok then s.set else s.set.fault id, joining := none }
  | .checkpoint => some s.checkpoint
  | .detachVdevLive =>
    if s.joining.isSome ∨ s.set.count < 2 ∨ s.set.count - 1 = s.set.primary then none
    else some s.detachVdevLive
  | .promotePrimary =>
    if s.joining.isSome ∨ ¬s.set.primaryFaulted then none
    else s.set.online.head?.map fun v ↦ s.setVdevs (s.set.promote v.id)

/-- A mount as it starts: some of the pool's slots, in order, each on a device of its own whose
ring names the slot. -/
def Mounted (s : Slots Dev) : Prop :=
  (s.set.members.Pairwise fun v w ↦ v.id < w.id) ∧ (s.set.members.map (·.root)).Nodup ∧
    (∀ v ∈ s.set.members, v.id < s.set.count ∧ ∀ slot, s.ring v.root = some slot → slot.vdevId = v.id) ∧
    s.set.faulted = [] ∧ s.set.offlined = [] ∧ s.set.catchingUp = [] ∧ s.joining = none

end Slots

/-- The device set of a mount. -/
def slots (Dev : Type) [DecidableEq Dev] : Machine (Slots Dev) (SlotAction Dev) where
  init := Slots.Mounted
  step s a := s.step a

end Lchfs.Devices
