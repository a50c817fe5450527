import Lchfs.Devices.Members

/-!
# Reads of a content hash

A hash is looked up in the cache or the index, and the record at the location found is verified
against the hash in its own header. When that fails the other copies are tried. A mirror is read
once; the record of a stripe may be read again without the shards that it is on.
-/

namespace Lchfs.Devices.Reads

open List Option

/-- `STRIPED` or a device. -/
inductive Place
  | striped
  | vdev (id : VdevId)
  deriving DecidableEq

structure ExtentLocation where
  segmentId : Nat
  offset : Nat
  len : Nat
  deriving DecidableEq

/-- The hash and the epoch of a record; the other fields are only passed to `open`. -/
structure ExtentRecordHeader (Hash : Type) where
  contentHash : Hash
  epoch : Nat
  fields : List Nat
  deriving DecidableEq

structure Opened (Bytes : Type) where
  codecId : Nat
  uncompressedLen : Nat
  payload : Bytes

inductive SegmentError (Hash : Type)
  | io
  | sealed
  | decompress
  | contentHash (loc : ExtentLocation) (expected : Hash)
  deriving DecidableEq

inductive PoolError (Hash : Type)
  | notFound (hash : Hash)
  | segment (e : SegmentError Hash)
  | flush
  | integrityFailure (hash : Hash)
  deriving DecidableEq

/-- The keys of the pool, and the codecs. The address of an epoch without keys is nothing. -/
structure RecordCrypto (Hash Bytes : Type) where
  openRecord : ExtentRecordHeader Hash → Bytes → Option (Opened Bytes)
  decompress : Nat → Nat → Bytes → Option Bytes
  address : Nat → Bytes → Option Hash

/-- A record as its framing gives it. -/
abbrev Record (Hash Bytes : Type) := ExtentRecordHeader Hash × Bytes

/-- What reading a location gives, at the first try and at the others. -/
abbrev Medium (Hash Bytes : Type) := Place → ExtentLocation → List (Option (Record Hash Bytes))

variable {Hash Bytes : Type} [DecidableEq Hash]

def verifyRecordWith (crypto : RecordCrypto Hash Bytes) (loc : ExtentLocation) (r : Record Hash Bytes) :
    Except (SegmentError Hash) Bytes :=
  match crypto.openRecord r.1 r.2 with
  | none => .error .sealed
  | some opened =>
    match crypto.decompress opened.codecId opened.uncompressedLen opened.payload with
    | none => .error .decompress
    | some bytes =>
      if crypto.address r.1.epoch bytes = some r.1.contentHash then .ok bytes
      else .error (.contentHash loc r.1.contentHash)

/-- The tries of `read_record_with`, of which the last one's error is returned. -/
def readTries (crypto : RecordCrypto Hash Bytes) (loc : ExtentLocation) :
    List (Option (Record Hash Bytes)) → SegmentError Hash → Except (SegmentError Hash) Bytes
  | [], e => .error e
  | none :: rest, _ => readTries crypto loc rest .io
  | some r :: rest, _ =>
    match verifyRecordWith crypto loc r with
    | .ok bytes => .ok bytes
    | .error e => readTries crypto loc rest e

def readRecordWith (crypto : RecordCrypto Hash Bytes) (medium : Medium Hash Bytes) (place : Place)
    (loc : ExtentLocation) : Except (SegmentError Hash) Bytes :=
  readTries crypto loc (medium place loc) .io

/-- The first copy that can be read. -/
def firstCopy (crypto : RecordCrypto Hash Bytes) (medium : Medium Hash Bytes)
    (copies : List (Place × ExtentLocation)) : Option Bytes :=
  copies.findSome? fun c ↦ (readRecordWith crypto medium c.1 c.2).toOption

/-! ## The live path -/

/-- What a read finds when it looks. -/
structure View (Hash Bytes : Type) where
  crypto : RecordCrypto Hash Bytes
  medium : Medium Hash Bytes
  dedupIndex : Hash → Option (ExtentLocation × Place)
  chunkLocations : Hash → List (Place × ExtentLocation)
  isOnline : VdevId → Bool
  vdevCount : Nat
  flushIndex : Bool

namespace View

variable (view : View Hash Bytes)

/-- Stripes are always asked. -/
def asked : Place → Bool
  | .striped => true
  | .vdev id => view.isOnline id

/-- The replicas that are tried after the preferred one. -/
def others (hash : Hash) (preferred : Place) : List (Place × ExtentLocation) :=
  (view.chunkLocations hash).filter fun c ↦ c.1 ≠ preferred ∧ view.asked c.1

def failover (hash : Hash) (preferred : Place) : Except (PoolError Hash) Bytes :=
  if !view.flushIndex then .error .flush
  else (firstCopy view.crypto view.medium (view.others hash preferred)).elim (.error (.integrityFailure hash)) .ok

/-- A read that fails starts over when the cache has another location by then. -/
def readVerified (hash : Hash) (moved : ExtentLocation × Place → Bool) (again : Except (PoolError Hash) Bytes) :
    Except (PoolError Hash) Bytes :=
  match view.dedupIndex hash with
  | none => .error (.notFound hash)
  | some (preferred, place) =>
    if !view.asked place then view.failover hash place
    else match readRecordWith view.crypto view.medium place preferred with
      | .ok bytes => .ok bytes
      | .error e =>
        if moved (preferred, place) then again
        else if place = .striped ∨ view.vdevCount = 1 then .error (.segment e)
        else view.failover hash place

end View

/-- `views retries` is what a read with that many retries left finds. -/
def readVerifiedFrom (views : Nat → View Hash Bytes) (hash : Hash) : Nat → Except (PoolError Hash) Bytes
  | 0 => (views 0).readVerified hash (fun _ ↦ false) (.error (.notFound hash))
  | retries + 1 =>
    (views (retries + 1)).readVerified hash (fun tagged ↦ ((views retries).dedupIndex hash).any (· ≠ tagged))
      (readVerifiedFrom views hash retries)

/-! ## The mount path -/

/-- The copies in the order in which a mount tries them after the primary's at `loc`. -/
def mountCopies (primary : VdevId) (rest : List VdevId) (replicas : List (Place × ExtentLocation))
    (loc : ExtentLocation) : List (Place × ExtentLocation) :=
  (replicas.find? (·.1 = .striped)).toList ++ replicas.filter (fun c ↦ c.1 = .vdev primary ∧ c.2 ≠ loc) ++
    rest.flatMap fun v ↦ (.vdev v, loc) :: replicas.filter fun c ↦ c.1 = .vdev v ∧ c.2 ≠ loc

def mountRead (crypto : RecordCrypto Hash Bytes) (medium : Medium Hash Bytes) (primary : VdevId) (rest : List VdevId)
    (chunkLocations : Hash → List (Place × ExtentLocation)) (hash : Hash) (loc : ExtentLocation) :
    Except (PoolError Hash) Bytes :=
  match readRecordWith crypto medium (.vdev primary) loc with
  | .ok bytes => .ok bytes
  | .error e =>
    (firstCopy crypto medium (mountCopies primary rest (chunkLocations hash) loc)).elim (.error (.segment e)) .ok

/-! ## What is returned -/

variable {crypto : RecordCrypto Hash Bytes} {medium : Medium Hash Bytes} {hash : Hash} {bytes : Bytes}
variable {place : Place} {loc : ExtentLocation}

/-- A record at a location has the address `hash` and these bytes. -/
def HasContent (crypto : RecordCrypto Hash Bytes) (medium : Medium Hash Bytes) (hash : Hash) (bytes : Bytes) : Prop :=
  ∃ place loc, ∃ r : Record Hash Bytes, some r ∈ medium place loc ∧ crypto.address r.1.epoch bytes = some hash

/-- The records at a location are of the hash. -/
def Named (medium : Medium Hash Bytes) (hash : Hash) (place : Place) (loc : ExtentLocation) : Prop :=
  ∀ r : Record Hash Bytes, some r ∈ medium place loc → r.1.contentHash = hash

theorem address_of_verify {r : Record Hash Bytes} (h : verifyRecordWith crypto loc r = .ok bytes) :
    crypto.address r.1.epoch bytes = some r.1.contentHash := by
  unfold verifyRecordWith at h
  split at h
  · cases h
  split at h
  · cases h
  split_ifs at h with haddress
  cases h
  exact haddress

theorem readRecordWith_content (hnamed : Named medium hash place loc)
    (h : readRecordWith crypto medium place loc = .ok bytes) : HasContent crypto medium hash bytes := by
  have htries : ∀ tries e, readTries crypto loc tries e = .ok bytes →
      ∃ r, some r ∈ tries ∧ crypto.address r.1.epoch bytes = some r.1.contentHash := by
    intro tries
    induction tries with
    | nil => exact fun _ h ↦ nomatch h
    | cons a _ ih =>
      intro e h
      cases a with
      | none =>
        obtain ⟨r, hmem, haddress⟩ := ih _ h
        exact ⟨r, .tail _ hmem, haddress⟩
      | some r =>
        simp only [readTries] at h
        split at h
        next hverify =>
          cases h
          exact ⟨r, mem_cons_self, address_of_verify hverify⟩
        next =>
          obtain ⟨r, hmem, haddress⟩ := ih _ h
          exact ⟨r, .tail _ hmem, haddress⟩
  obtain ⟨r, hmem, haddress⟩ := htries _ _ h
  exact ⟨place, loc, r, hmem, hnamed r hmem ▸ haddress⟩

theorem firstCopy_content {copies : List (Place × ExtentLocation)} (hnamed : ∀ c ∈ copies, Named medium hash c.1 c.2)
    (h : firstCopy crypto medium copies = some bytes) : HasContent crypto medium hash bytes := by
  obtain ⟨c, hc, hread⟩ := exists_of_findSome?_eq_some h
  refine readRecordWith_content (hnamed c hc) ?_
  cases hok : readRecordWith crypto medium c.1 c.2 with
  | ok => simpa [hok, Except.toOption] using hread
  | error => simp [hok, Except.toOption] at hread

/-- Every location that is looked up for the hash has records of the hash. -/
structure Sound (view : View Hash Bytes) (hash : Hash) : Prop where
  cached : ∀ loc place, view.dedupIndex hash = some (loc, place) → Named view.medium hash place loc
  indexed : ∀ c ∈ view.chunkLocations hash, Named view.medium hash c.1 c.2

theorem Sound.failover {view : View Hash Bytes} (h : Sound view hash) (hok : view.failover hash place = .ok bytes) :
    HasContent view.crypto view.medium hash bytes := by
  unfold View.failover at hok
  split_ifs at hok
  cases hcopy : firstCopy view.crypto view.medium (view.others hash place) with
  | none => simp [hcopy] at hok
  | some bytes' =>
    obtain rfl : bytes' = bytes := by simpa [hcopy] using hok
    exact firstCopy_content (fun c hc ↦ h.indexed c (mem_of_mem_filter hc)) hcopy

theorem Sound.readVerified {view : View Hash Bytes} (h : Sound view hash) {moved : ExtentLocation × Place → Bool}
    {again : Except (PoolError Hash) Bytes} (hok : view.readVerified hash moved again = .ok bytes) :
    again = .ok bytes ∨ HasContent view.crypto view.medium hash bytes := by
  unfold View.readVerified at hok
  split at hok
  · cases hok
  next preferred place hcached =>
    split at hok
    · exact .inr (h.failover hok)
    split at hok
    next hread =>
      cases hok
      exact .inr (readRecordWith_content (h.cached preferred place hcached) hread)
    next =>
      split_ifs at hok
      · exact .inl hok
      · exact .inr (h.failover hok)

section Reused

/-- Numbers that are their own address. -/
def plaintext : RecordCrypto Nat Nat where
  openRecord _ payload := some ⟨0, 0, payload⟩
  decompress _ _ payload := some payload
  address _ payload := some payload

/-- A pool of one device, with one record that the cache finds for the hash 1. -/
def single (r : Record Nat Nat) : View Nat Nat where
  crypto := plaintext
  medium _ _ := [some r]
  dedupIndex hash := if hash = 1 then some (⟨0, 0, 0⟩, .vdev 0) else none
  chunkLocations _ := []
  isOnline _ := true
  vdevCount := 1
  flushIndex := true

end Reused

end Lchfs.Devices.Reads
