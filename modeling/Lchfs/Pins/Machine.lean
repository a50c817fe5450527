import Lchfs.Format.Objects
import Lchfs.Library.Machine
import Lchfs.Library.Refcount
import Lchfs.Library.Table

/-!
# Dedup pins

Who holds a pin and when it is let go. An operation that commits chunks of a file (a write, a
truncation, an fsync, the rekeying of a file) works under the inode's lock: it marks the inode
dirty and then commits chunk after chunk. A commit pins the hash, looks it up, and either keeps
the pin in the inode's list or gives it back. A checkpoint takes the lists of the files it
captures and of the inodes that are gone, and releases them once its root is visible; one that
fails hands them back with the dirty marks. The rekeying of a snapshot keeps its pins in a
ledger of its own.

Which lookups hit is left open, and so is everything an inode holds besides its kind. Pins do
not outlive a mount: a run starts with none, over whatever inodes the mount recovered.
-/

namespace Lchfs.Pins

open Lchfs.Format (Ino InodeKind)
open Lchfs.Library

/-- The steps of a checkpoint, each named after what it does next. `finalize` commits the tail of
a file's session under the inode's lock. -/
inductive Phase (Hash : Type)
  | collect
  | capture (todo : List (Ino × InodeKind))
  | finalize (ino : Ino) (pinned : Option Hash) (todo : List (Ino × InodeKind))
  | orphans (todo : List Ino)
  | publish
  | release
  | superblock
deriving DecidableEq

def Phase.inFlight {Hash : Type} : Phase Hash → List Hash
  | .finalize _ (some hash) _ => [hash]
  | _ => []

/-- `inos` and `taken` are what the guard hands back. `alone` is a ghost: nothing else was running
when the checkpoint began, and nothing has been since. -/
structure Checkpoint (Hash : Type) where
  inos : List Ino
  taken : List (Ino × Hash)
  phase : Phase Hash
  alone : Bool

structure Ledger (Hash : Type) where
  hashes : List Hash
  pinned : Option Hash

/-- `pinsByIno` has the lists of all inodes in one. `waiting` are the operations that found a file
and wait for its lock, `operations` those that have it, with the hash they have pinned and not
kept yet. -/
structure State (Hash : Type) where
  inodes : Table Ino InodeKind
  nextIno : Ino
  dirty : List Ino
  refcounts : Hash → Nat
  pinsByIno : List (Ino × Hash)
  waiting : List Ino
  operations : List (Ino × Option Hash)
  ledger : Option (Ledger Hash)
  checkpoint : Option (Checkpoint Hash)

inductive Action (Hash : Type)
  | create (kind : InodeKind)
  | remove (ino : Ino)
  | markDirty (ino : Ino)
  | check (ino : Ino)
  | giveUp (ino : Ino)
  | lock (ino : Ino)
  | pin (ino : Ino) (hash : Hash)
  | hit (ino : Ino) (hash : Hash)
  | miss (ino : Ino) (hash : Hash)
  | unlock (ino : Ino)
  | beginLedger
  | ledgerPin (hash : Hash)
  | ledgerKeep
  | ledgerMiss
  | ledgerRelease
  | endLedger
  | beginCheckpoint
  | checkpointPin (hash : Hash)
  | checkpointHit
  | checkpointMiss
  | checkpointStep
  | failCheckpoint

namespace State

variable {Hash : Type} [DecidableEq Hash] (s : State Hash)

/-! ## The counts -/

def pin (hash : Hash) : State Hash :=
  { s with refcounts := increment 32 hash s.refcounts }

def unpin (hash : Hash) : State Hash :=
  { s with refcounts := decrement hash s.refcounts }

/-! ## Operations on files -/

def setCheckpoint (c : Option (Checkpoint Hash)) : State Hash :=
  { s with checkpoint := c }

/-- Something besides the checkpoint runs. -/
def disturb : State Hash :=
  s.setCheckpoint (s.checkpoint.map fun c ↦ { c with alone := false })

/-- The file whose lock the checkpoint has. -/
def finalizing : Option Ino :=
  s.checkpoint.bind fun c ↦
    match c.phase with
    | .finalize ino _ _ => some ino
    | _ => none

def locked (ino : Ino) : Bool :=
  ino ∈ s.operations.map (·.1) || s.finalizing = some ino

def setOperation (ino : Ino) (old new : Option Hash) : State Hash :=
  { s with operations := (ino, new) :: s.operations.erase (ino, old) }

def create (kind : InodeKind) : State Hash :=
  { s with
    inodes := s.inodes.insert s.nextIno kind
    nextIno := s.nextIno + 1
    dirty := s.dirty.insert s.nextIno }

/-- The last link of an inode goes. -/
def remove (ino : Ino) : State Hash :=
  { s with inodes := s.inodes.erase ino, dirty := s.dirty.filter (· ≠ ino) }

/-! ## Checkpoints -/

def beginCheckpoint : Option (State Hash) :=
  if s.checkpoint.isNone then
    some { s with
      dirty := []
      checkpoint := some ⟨s.dirty, [], .collect, s.waiting.isEmpty && s.operations.isEmpty && s.ledger.isNone⟩ }
  else none

/-- Moves an inode's list into the guard. -/
def take (c : Checkpoint Hash) (ino : Ino) (phase : Phase Hash) : State Hash :=
  { s with
    pinsByIno := s.pinsByIno.filter (·.1 ≠ ino)
    checkpoint := some { c with taken := s.pinsByIno.filter (·.1 = ino) ++ c.taken, phase := phase } }

def setPhase (c : Checkpoint Hash) (phase : Phase Hash) : State Hash :=
  s.setCheckpoint (some { c with phase := phase })

/-- One step of a checkpoint that commits nothing. Between `publish` and `release` the root becomes
visible; the superblock comes last. -/
def checkpointStep (c : Checkpoint Hash) : Option (State Hash) :=
  match c.phase with
  | .collect =>
    some (s.setPhase c (.capture (c.inos.filterMap fun ino ↦ (s.inodes.lookup ino).map (ino, ·))))
  | .capture ((ino, .file) :: todo) =>
    if s.locked ino then none else some (s.setPhase c (.finalize ino none todo))
  | .capture ((_, _) :: todo) => some (s.setPhase c (.capture todo))
  | .capture [] =>
    some (s.setPhase c (.orphans ((s.pinsByIno.map (·.1)).dedup.filter fun ino ↦ (s.inodes.lookup ino).isNone)))
  | .finalize ino none todo => some (s.take c ino (.capture todo))
  | .finalize _ (some _) _ => none
  | .orphans (ino :: todo) => some (s.take c ino (.orphans todo))
  | .orphans [] => some (s.setPhase c .publish)
  | .publish => some (s.setPhase c .release)
  | .release =>
    match c.taken with
    | (_, hash) :: taken => some ((s.unpin hash).setCheckpoint (some { c with taken := taken }))
    | [] => some (s.setPhase c .superblock)
  | .superblock => some (s.setCheckpoint none)

/-- `RestoreOnFailure`. Nothing fails while a lookup is under way or while pins are released. -/
def failCheckpoint (c : Checkpoint Hash) : Option (State Hash) :=
  match c.phase with
  | .finalize _ (some _) _ | .release => none
  | _ => some { s with
      dirty := s.dirty ∪ c.inos
      pinsByIno := c.taken ++ s.pinsByIno
      checkpoint := none }

def setPinned (c : Checkpoint Hash) (ino : Ino) (pinned : Option Hash) (todo : List (Ino × InodeKind)) : State Hash :=
  s.setPhase c (.finalize ino pinned todo)

/-! ## Steps -/

def step : Action Hash → Option (State Hash)
  | .create kind => some (s.create kind).disturb
  | .remove ino => some (s.remove ino).disturb
  | .markDirty ino =>
    if (s.inodes.lookup ino).isSome then some { s with dirty := s.dirty.insert ino }.disturb else none
  | .check ino =>
    if s.inodes.lookup ino = some .file then some { s with waiting := ino :: s.waiting }.disturb else none
  | .giveUp ino => some { s with waiting := s.waiting.erase ino }.disturb
  | .lock ino =>
    if ino ∈ s.waiting ∧ s.locked ino = false then
      some { s with
        waiting := s.waiting.erase ino
        operations := (ino, none) :: s.operations
        dirty := s.dirty.insert ino }.disturb
    else none
  | .pin ino hash =>
    if (ino, none) ∈ s.operations then some ((s.pin hash).setOperation ino none (some hash)).disturb else none
  | .hit ino hash =>
    if (ino, some hash) ∈ s.operations then
      some { s.setOperation ino (some hash) none with pinsByIno := (ino, hash) :: s.pinsByIno }.disturb
    else none
  | .miss ino hash =>
    if (ino, some hash) ∈ s.operations then some ((s.unpin hash).setOperation ino (some hash) none).disturb else none
  | .unlock ino =>
    if (ino, none) ∈ s.operations then some { s with operations := s.operations.erase (ino, none) }.disturb else none
  | .beginLedger => if s.ledger.isNone then some { s with ledger := some ⟨[], none⟩ }.disturb else none
  | .ledgerPin hash =>
    match s.ledger with
    | some ⟨hashes, none⟩ => some { s.pin hash with ledger := some ⟨hashes, some hash⟩ }.disturb
    | _ => none
  | .ledgerKeep =>
    match s.ledger with
    | some ⟨hashes, some hash⟩ => some { s with ledger := some ⟨hash :: hashes, none⟩ }.disturb
    | _ => none
  | .ledgerMiss =>
    match s.ledger with
    | some ⟨hashes, some hash⟩ => some { s.unpin hash with ledger := some ⟨hashes, none⟩ }.disturb
    | _ => none
  | .ledgerRelease =>
    match s.ledger with
    | some ⟨hash :: hashes, none⟩ => some { s.unpin hash with ledger := some ⟨hashes, none⟩ }.disturb
    | _ => none
  | .endLedger =>
    match s.ledger with
    | some ⟨[], none⟩ => some { s with ledger := none }.disturb
    | _ => none
  | .beginCheckpoint => s.beginCheckpoint
  | .checkpointPin hash =>
    s.checkpoint.bind fun c ↦
      match c.phase with
      | .finalize ino none todo => some ((s.pin hash).setPinned c ino (some hash) todo)
      | _ => none
  | .checkpointHit =>
    s.checkpoint.bind fun c ↦
      match c.phase with
      | .finalize ino (some hash) todo =>
        some { s.setPinned c ino none todo with pinsByIno := (ino, hash) :: s.pinsByIno }
      | _ => none
  | .checkpointMiss =>
    s.checkpoint.bind fun c ↦
      match c.phase with
      | .finalize ino (some hash) todo => some ((s.unpin hash).setPinned c ino none todo)
      | _ => none
  | .checkpointStep => s.checkpoint.bind s.checkpointStep
  | .failCheckpoint => s.checkpoint.bind s.failCheckpoint

/-! ## Who holds a pin -/

/-- The lists of the inodes, the pins a checkpoint has taken, the ledger, and the commits under
way. -/
def held : List Hash :=
  s.pinsByIno.map (·.2) ++ s.checkpoint.elim [] (fun c ↦ c.taken.map (·.2) ++ c.phase.inFlight) ++
    s.ledger.elim [] (fun l ↦ l.hashes ++ l.pinned.toList) ++ s.operations.filterMap (·.2)

/-- The hash a step gives a pin back for. -/
def released : Action Hash → Option Hash
  | .miss _ hash => some hash
  | .ledgerMiss => s.ledger.bind (·.pinned)
  | .ledgerRelease => s.ledger.bind fun l ↦ l.hashes.head?
  | .checkpointMiss => s.checkpoint.bind fun c ↦ c.phase.inFlight.head?
  | .checkpointStep =>
    s.checkpoint.bind fun c ↦
      match c.phase with
      | .release => (c.taken.map (·.2)).head?
      | _ => none
  | _ => none

end State

/-- A pool after a mount. -/
def pinning (Hash : Type) [DecidableEq Hash] : Machine (State Hash) (Action Hash) where
  init s := (∀ hash, s.refcounts hash = 0) ∧ s.pinsByIno = [] ∧ s.waiting = [] ∧ s.operations = [] ∧
    s.ledger = none ∧ s.checkpoint = none
  step s a := s.step a

end Lchfs.Pins
