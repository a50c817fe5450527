import Lchfs.Devices.VerifiedReads
import Lchfs.Library.Faults
import Lchfs.Library.Table

/-!
# The dedup scanner

A pass looks on every device for hashes with several records and puts one of the locations into
the index and, on the primary, into the cache. The location known so far is kept. On the primary
that is the cache's, whatever device it is tagged with.
-/

namespace Lchfs.Devices.Dedup

open Lchfs.Library
open List Option
open Reads (ExtentLocation Place)

inductive SegmentState
  | opened
  | sealed
  | coalesced
  | striped
  deriving DecidableEq

/-- A segment as its reader gives it. One that cannot be opened has no header. -/
structure SegmentFile (Hash : Type) where
  id : Nat
  header : Option SegmentState
  records : List (Hash × Nat × Nat)

/-- A device with its data segments in ascending order. -/
structure Vdev (Hash : Type) where
  id : VdevId
  segments : List (SegmentFile Hash)

structure DedupMerge (Hash : Type) where
  contentHash : Hash
  canonical : ExtentLocation
  loser : ExtentLocation

/-- `puts` are the locations that a pass put into the index or the cache, and `merges` is what it
returns, unless it ends with an error. -/
structure State (Hash : Type) where
  primary : VdevId
  locations : Table Hash (ExtentLocation × Place)
  index : Table (Hash × Place) ExtentLocation
  scannedUpTo : Table VdevId Nat
  merges : List (DedupMerge Hash)
  puts : List (Hash × VdevId × ExtentLocation)

/-- `seen` has the locations of a hash in the order in which they were pushed. -/
structure Scan (Hash : Type) where
  seen : List (Hash × ExtentLocation)
  lowestStillOpen : Option Nat
  highestSealedProcessed : Nat

variable {Hash : Type}

def SegmentFile.scan (file : SegmentFile Hash) : List (Hash × ExtentLocation) :=
  file.records.map fun (hash, offset, len) ↦ (hash, ⟨file.id, offset, len⟩)

/-- The candidates, sorted and without repetitions. -/
def candidates (locs : List ExtentLocation) (existing : Option ExtentLocation) : List ExtentLocation :=
  ((locs ++ existing.toList).insertionSort fun a b ↦
    a.segmentId < b.segmentId ∨ a.segmentId = b.segmentId ∧ a.offset ≤ b.offset).destutter (· ≠ ·)

/-- The location that is kept, if there are several. -/
def canonical (locs : List ExtentLocation) (existing : Option ExtentLocation) : Option ExtentLocation :=
  match candidates locs existing with
  | first :: second :: rest => some ((existing.filter (· ∈ first :: second :: rest)).getD first)
  | _ => none

def Scan.addSegment (cursor : Nat) (scan : Scan Hash) (file : SegmentFile Hash) : Scan Hash :=
  if file.id < cursor then scan
  else match file.header with
    | none => scan
    | some .opened =>
      { scan with seen := scan.seen ++ file.scan, lowestStillOpen := scan.lowestStillOpen.or (some file.id) }
    | some _ =>
      { scan with
        seen := scan.seen ++ file.scan
        highestSealedProcessed := max scan.highestSealedProcessed (file.id + 1) }

def Scan.nextCursor (scan : Scan Hash) : Nat :=
  scan.lowestStillOpen.getD scan.highestSealedProcessed

def Vdev.scan (vdev : Vdev Hash) (cursor : Nat) : Scan Hash :=
  vdev.segments.foldl (Scan.addSegment cursor) ⟨[], none, cursor⟩

variable {online : List (Vdev Hash)} {vdev : Vdev Hash} {hash : Hash} {loc : ExtentLocation}
  {locs : List ExtentLocation} {known : Option ExtentLocation}

/-- The device has a record of the hash at the location. -/
def HasRecord (online : List (Vdev Hash)) (id : VdevId) (hash : Hash) (loc : ExtentLocation) : Prop :=
  ∃ vdev ∈ online, vdev.id = id ∧ ∃ file ∈ vdev.segments, (hash, loc) ∈ file.scan

theorem canonical_mem (h : canonical locs known = some loc) : loc ∈ locs ∨ known = some loc := by
  unfold canonical at h
  split at h
  next first second rest hcandidates =>
    have hfirst : first ∈ candidates locs known := hcandidates ▸ mem_cons_self
    have hmem : first ∈ locs ++ known.toList := (mem_insertionSort _).1 ((destutter_sublist _ _).subset hfirst)
    cases hfilter : known.filter (· ∈ first :: second :: rest) with
    | none =>
      rw [hfilter] at h
      cases h
      simpa using hmem
    | some =>
      rw [hfilter] at h
      cases h
      exact .inr (filter_eq_some_iff.1 hfilter).1
  · cases h

theorem hasRecord_of_seen {cursor : Nat} (hvdev : vdev ∈ online) (hseen : (hash, loc) ∈ (vdev.scan cursor).seen) :
    HasRecord online vdev.id hash loc := by
  have hadd (scan : Scan Hash) (file : SegmentFile Hash) : (scan.addSegment cursor file).seen ⊆ scan.seen ++ file.scan := by
    unfold Scan.addSegment
    split_ifs
    · exact subset_append_left _ _
    split
    · exact subset_append_left _ _
    all_goals exact Subset.refl _
  have hfold : ∀ (files : List (SegmentFile Hash)) scan, (hash, loc) ∈ (files.foldl (Scan.addSegment cursor) scan).seen →
      (hash, loc) ∈ scan.seen ∨ ∃ file ∈ files, (hash, loc) ∈ file.scan := by
    intro files
    induction files with
    | nil => exact fun _ h ↦ .inl h
    | cons file _ ih =>
      intro scan h
      rcases ih _ h with h | ⟨file', hfile', hmem⟩
      · exact (mem_append.1 (hadd scan file h)).imp_right fun h ↦ ⟨file, mem_cons_self, h⟩
      · exact .inr ⟨file', mem_cons_of_mem _ hfile', hmem⟩
  exact ⟨vdev, hvdev, rfl, (hfold _ _ hseen).resolve_left not_mem_nil⟩

variable [DecidableEq Hash] {s : State Hash} {v : VdevId}

def State.chunkLocations (s : State Hash) (hash : Hash) : List (Place × ExtentLocation) :=
  (s.index.toList.filter (·.1.1 = hash)).map fun entry ↦ (entry.1.2, entry.2)

/-- The location known so far. Reading the index may fail. -/
def existing (vdev : VdevId) (hash : Hash) : Faulty Unit (State Hash) (Option ExtentLocation) := do
  let s ← Faulty.read
  if vdev = s.primary then pure ((s.locations.lookup hash).map (·.1))
  else do
    Faulty.call () id
    pure (((s.chunkLocations hash).find? (·.1 = .vdev vdev)).map (·.2))

/-- `put` on the cache, which holds the primary's locations only. -/
def putCache (vdev : VdevId) (hash : Hash) (loc : ExtentLocation) (s : State Hash) : State Hash :=
  if vdev = s.primary then
    { s with locations := s.locations.insert hash (loc, .vdev vdev), puts := s.puts ++ [(hash, vdev, loc)] }
  else s

def putChunkLocation (vdev : VdevId) (hash : Hash) (loc : ExtentLocation) (s : State Hash) : State Hash :=
  { s with index := s.index.insert (hash, .vdev vdev) loc, puts := s.puts ++ [(hash, vdev, loc)] }

def mergeHash (vdev : VdevId) (hash : Hash) (locs : List ExtentLocation) : Faulty Unit (State Hash) Unit := do
  let known ← existing vdev hash
  match canonical locs known with
  | none => pure ()
  | some loc => do
    Faulty.change (putCache vdev hash loc)
    Faulty.call () (putChunkLocation vdev hash loc)
    Faulty.change fun s ↦
      { s with merges := s.merges ++ ((candidates locs known).filter (· ≠ loc)).map (⟨hash, loc, ·⟩) }

/-- The hashes seen come in the order of a hash map, that of `order`. -/
def runPassOn (order : List Hash) (vdev : Vdev Hash) : Faulty Unit (State Hash) Unit := do
  let s ← Faulty.read
  let scan := vdev.scan ((s.scannedUpTo.lookup vdev.id).getD 0)
  Faulty.change fun s ↦ { s with scannedUpTo := s.scannedUpTo.insert vdev.id scan.nextCursor }
  (order.filter (· ∈ scan.seen.map (·.1))).forM fun hash ↦
    mergeHash vdev.id hash ((scan.seen.filter (·.1 = hash)).map (·.2))

def runPass (online : List (Vdev Hash)) (order : Vdev Hash → List Hash) : Faulty Unit (State Hash) Unit :=
  online.forM fun vdev ↦ runPassOn (order vdev) vdev

/-! ## What a pass puts -/

/-- The entries that a pass may keep are true: those of the devices, and those of the cache for
hashes that the primary has a record of. -/
structure Truthful (online : List (Vdev Hash)) (s : State Hash) : Prop where
  cached : ∀ hash loc place, s.locations.lookup hash = some (loc, place) →
    place = .vdev s.primary ∧ HasRecord online s.primary hash loc ∨ ∀ loc, ¬HasRecord online s.primary hash loc
  indexed : ∀ vdev ∈ online, ∀ hash loc, s.index.lookup (hash, .vdev vdev.id) = some loc →
    HasRecord online vdev.id hash loc

/-- The invariant of a pass. -/
structure Sound (online : List (Vdev Hash)) (s : State Hash) : Prop extends Truthful online s where
  puts : ∀ put ∈ s.puts, HasRecord online put.2.1 put.1 put.2.2

/-- The location known for a hash that the device has a record of is one on the device. -/
theorem existing_spec (hvdev : vdev ∈ online) : Ensures (fun _ ↦ True) (Sound online) (existing vdev.id hash)
    (fun known s ↦ Sound online s ∧
      ∀ loc ∈ known, ∀ seen, HasRecord online vdev.id hash seen → HasRecord online vdev.id hash loc)
    (fun _ ↦ Sound online) (Sound online) := by
  refine Ensures.read_keeps fun s hs ↦ ?_
  split_ifs with hprimary
  · refine Ensures.pure fun t ht ↦ ⟨ht, fun loc hloc seen hseen ↦ ?_⟩
    obtain ⟨⟨_, _⟩, hlookup, rfl⟩ := map_eq_some_iff.1 hloc
    rcases hs.cached _ _ _ hlookup with ⟨_, htrue⟩ | hnone
    · exact hprimary ▸ htrue
    · exact absurd (hprimary ▸ hseen) (hnone seen)
  · refine Ensures.bind (Q := fun _ ↦ Sound online) (Ensures.call (fun _ h ↦ h) (fun _ _ h ↦ h) (fun _ _ h ↦ h)
      fun _ h ↦ h) fun _ ↦ Ensures.pure fun t ht ↦ ⟨ht, fun _ hloc _ _ ↦ ?_⟩
    obtain ⟨⟨_, _⟩, hfind, rfl⟩ := map_eq_some_iff.1 hloc
    obtain ⟨⟨⟨hash', place'⟩, _⟩, hentry, heq⟩ := mem_map.1 (mem_of_find?_eq_some hfind)
    obtain ⟨hmem, hhash⟩ := mem_filter.1 hentry
    cases heq
    obtain rfl : place' = .vdev vdev.id := by simpa using find?_some hfind
    obtain rfl : hash' = hash := by simpa using hhash
    exact hs.indexed vdev hvdev _ _ (Table.mem_toList.1 hmem)

theorem Sound.putCache (h : Sound online s) (hrecord : HasRecord online v hash loc) :
    Sound online (putCache v hash loc s) := by
  unfold Dedup.putCache
  split_ifs with hv
  · subst hv
    refine ⟨⟨fun _ _ _ hlookup ↦ ?_, h.indexed⟩, ?_⟩
    · rcases Table.of_lookup_insert hlookup with ⟨rfl, ⟨⟩⟩ | ⟨-, hlookup⟩
      · exact .inl ⟨rfl, hrecord⟩
      · exact h.cached _ _ _ hlookup
    · rw [forall_mem_append, forall_mem_singleton]
      exact ⟨h.puts, hrecord⟩
  · exact h

theorem Sound.putChunkLocation (h : Sound online s) (hrecord : HasRecord online v hash loc) :
    Sound online (putChunkLocation v hash loc s) := by
  refine ⟨⟨h.cached, fun vdev hvdev _ _ hlookup ↦ ?_⟩, ?_⟩
  · rcases Table.of_lookup_insert hlookup with ⟨⟨⟩, rfl⟩ | ⟨-, hlookup⟩
    · exact hrecord
    · exact h.indexed vdev hvdev _ _ hlookup
  · rw [Dedup.putChunkLocation, forall_mem_append, forall_mem_singleton]
    exact ⟨h.puts, hrecord⟩

theorem mergeHash_keeps (hvdev : vdev ∈ online) (hlocs : ∀ loc ∈ locs, HasRecord online vdev.id hash loc) :
    Keeps (fun _ ↦ True) (Sound online) (mergeHash vdev.id hash locs) := by
  refine (existing_spec hvdev).bind fun known ↦ ?_
  split
  · exact Ensures.pure fun _ h ↦ h.1
  next loc hcanonical =>
    refine Ensures.of_forall fun s ⟨hs, hknown⟩ ↦ ?_
    have hrecord : HasRecord online vdev.id hash loc := by
      cases locs with
      | nil => cases known <;> cases hcanonical
      | cons seen =>
        exact (canonical_mem hcanonical).elim (hlocs loc) fun h ↦ hknown loc h seen (hlocs seen mem_cons_self)
    have hput {t} (ht : Sound online t) := ht.putChunkLocation hrecord
    refine Ensures.bind (Q := fun _ ↦ Sound online) (Ensures.change ?_) fun _ ↦
      Ensures.bind (Q := fun _ ↦ Sound online) (Ensures.call (fun _ ↦ hput) (fun _ _ ↦ hput) (fun _ _ h ↦ h) fun _ h ↦ h)
        fun _ ↦ Ensures.change fun t ht ↦ { ht with }
    rintro _ rfl
    exact hs.putCache hrecord

theorem runPassOn_keeps (order : List Hash) (hvdev : vdev ∈ online) :
    Keeps (fun _ ↦ True) (Sound online) (runPassOn order vdev) := by
  refine Ensures.read_keeps fun s _ ↦ ?_
  refine Ensures.bind (Q := fun _ ↦ Sound online) (Ensures.change fun t ht ↦ { ht with }) fun _ ↦
    Ensures.forM_keeps fun _ _ ↦ mergeHash_keeps hvdev fun _ hloc ↦ ?_
  obtain ⟨⟨_, _⟩, hmem, rfl⟩ := mem_map.1 hloc
  obtain ⟨hseen, hhash⟩ := mem_filter.1 hmem
  exact of_decide_eq_true hhash ▸ hasRecord_of_seen hvdev hseen

end Lchfs.Devices.Dedup
