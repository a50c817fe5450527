import Mathlib

/-!
# The layout of a device

The label of a device says where its regions and its zones are. Its arithmetic is that of
`u64`: sums and products wrap, except where the source checks them. A zone header names
the segment that a zone belongs to and the zone's place in it.
-/

namespace Lchfs.Zones

/-- A `u64` that an unchecked operation leaves. -/
def wrap (n : Nat) : Nat := n % 2 ^ 64

/-- Size of a label, a zone header and every fixed slot. -/
def deviceBlock : Nat := 4096

def mib : Nat := 1048576

/-- Logical shards a device keeps a superblock slot for. -/
def maxShardSlots : Nat := 1024

/-- Bytes kept for each of the two keyring copies. -/
def keyringCopyLen : Nat := 2 * mib

def deviceLabelMagic : String := "LCHFSDEV"

def zoneHeaderMagic : String := "LCHFSZON"

def deviceLayoutVersion : Nat := 1

structure Region where
  offset : Nat
  len : Nat
  deriving DecidableEq, Repr

def Region.stop (r : Region) : Nat := wrap (r.offset + r.len)

/-- Where everything on a formatted device is. -/
structure DeviceLabel where
  magic : String
  layoutVersion : Nat
  deviceUuid : Nat
  generation : Nat
  deviceSize : Nat
  superblock : Region
  keyring : Region
  keyringCopyLen : Nat
  shardSuperblocks : Region
  scratch : Region
  index : Region
  indexCopyLen : Nat
  indexActive : Nat
  indexLen : Nat × Nat
  zonesOffset : Nat
  zoneSize : Nat
  zoneCount : Nat
  checksum : Nat
  deriving DecidableEq, Repr

inductive ZoneState
  | free
  | owned
  | freeing
  deriving DecidableEq, Repr

/-- Which kind of segment a zone belongs to. -/
inductive SegmentKind
  | data
  | metadata
  | delta (shard : Nat)
  | stripeShard (index : Nat)
  deriving DecidableEq, Repr

/-- The first block of every zone. -/
structure ZoneHeader where
  magic : String
  deviceUuid : Nat
  state : ZoneState
  kind : SegmentKind
  segmentId : Nat
  ordinal : Nat
  writtenLen : Nat
  checksum : Nat
  deriving DecidableEq, Repr

namespace DeviceLabel

variable (crc : DeviceLabel → Nat)

def computeChecksum (l : DeviceLabel) : Nat := crc { l with checksum := 0 }

def finalize (l : DeviceLabel) : DeviceLabel := { l with checksum := l.computeChecksum crc }

/-- The regions in the order in which they have to lie, the first label included. -/
def ordered (l : DeviceLabel) : List Region :=
  [⟨0, deviceBlock⟩, l.superblock, l.keyring, l.shardSuperblocks, l.scratch, l.index]

/-- The end of the zone area, if it is a `u64`. -/
def zonesEnd (l : DeviceLabel) : Option Nat :=
  if l.zoneSize * l.zoneCount < 2 ^ 64 ∧ l.zoneSize * l.zoneCount + l.zonesOffset < 2 ^ 64 then
    some (l.zoneSize * l.zoneCount + l.zonesOffset)
  else none

/-- Whether neighbours in a list of regions are in order. -/
def inOrder : List Region → Bool
  | r :: r' :: rest => decide (r.stop ≤ r'.offset) && inOrder (r' :: rest)
  | _ => true

/-- Magic, version and checksum hold, and the regions fit the device in order. -/
def isValid (l : DeviceLabel) : Bool :=
  if l.magic ≠ deviceLabelMagic ∨ l.layoutVersion ≠ deviceLayoutVersion ∨
      l.checksum ≠ l.computeChecksum crc ∨ l.indexActive > 1 ∨ l.zoneSize ≤ deviceBlock then
    false
  else
    inOrder l.ordered && decide (l.index.stop ≤ l.zonesOffset) &&
      decide (l.keyring.len = wrap (2 * l.keyringCopyLen)) &&
      decide (l.index.len = wrap (2 * l.indexCopyLen)) &&
      decide (l.indexLen.1 ≤ l.indexCopyLen ∧ l.indexLen.2 ≤ l.indexCopyLen) &&
      l.zonesEnd.any fun stop ↦ decide (wrap (stop + deviceBlock) ≤ l.deviceSize)

/-- Bytes of a zone after its header. -/
def payload (l : DeviceLabel) : Nat := l.zoneSize - deviceBlock

def zoneOffset (l : DeviceLabel) (zone : Nat) : Nat := l.zonesOffset + zone * l.zoneSize

/-- The payload of a zone, as addresses of the device. -/
def InPayload (l : DeviceLabel) (zone a : Nat) : Prop :=
  l.zoneOffset zone + deviceBlock ≤ a ∧ a < l.zoneOffset zone + l.zoneSize

instance (l : DeviceLabel) (zone a : Nat) : Decidable (l.InPayload zone a) :=
  inferInstanceAs (Decidable (_ ∧ _))

/-- A zone ends before the next one begins. -/
theorem zoneOffset_add_le (l : DeviceLabel) {zone zone' : Nat} (h : zone < zone') :
    l.zoneOffset zone + l.zoneSize ≤ l.zoneOffset zone' := by
  have hmul : (zone + 1) * l.zoneSize ≤ zone' * l.zoneSize := Nat.mul_le_mul_right _ h
  rw [Nat.add_mul, Nat.one_mul] at hmul
  simp only [zoneOffset]
  omega

end DeviceLabel

def alignUp (v unit : Nat) : Nat := wrap ((v + unit - 1) / unit * unit)

inductive ErrorKind
  | notFound
  | storageFull
  | unexpectedEof
  | invalidInput
  | other
  deriving DecidableEq, Repr

/-- The layout that a device of `deviceSize` bytes gets, with the random `deviceUuid`. -/
def planLayout (crc : DeviceLabel → Nat) (deviceSize zoneSize : Nat) (indexCopyLen : Option Nat)
    (deviceUuid : Nat) : Except ErrorKind DeviceLabel :=
  if zoneSize ≠ 2 ^ Nat.log2 zoneSize ∨ zoneSize < 65536 then .error .invalidInput
  else
    let superblock : Region := ⟨deviceBlock, 16 * deviceBlock⟩
    let keyring : Region := ⟨mib, 2 * keyringCopyLen⟩
    let shardSuperblocks : Region := ⟨keyring.stop, maxShardSlots * deviceBlock⟩
    let scratch : Region := ⟨shardSuperblocks.stop, deviceBlock⟩
    let indexCopyLen := indexCopyLen.getD (alignUp (max (deviceSize / 200) (64 * mib)) mib)
    let index : Region := ⟨alignUp scratch.stop mib, wrap (2 * indexCopyLen)⟩
    let zonesOffset := alignUp index.stop (min zoneSize (16 * mib))
    let usable := deviceSize - wrap (zonesOffset + deviceBlock)
    let zoneCount := usable / zoneSize
    if zoneCount < 8 then .error .invalidInput
    else
      .ok <| DeviceLabel.finalize crc
        { magic := deviceLabelMagic, layoutVersion := deviceLayoutVersion, deviceUuid
          generation := 1, deviceSize, superblock, keyring, keyringCopyLen := keyringCopyLen
          shardSuperblocks, scratch, index, indexCopyLen, indexActive := 0, indexLen := (0, 0)
          zonesOffset, zoneSize, zoneCount, checksum := 0 }

namespace ZoneHeader

variable (crc : ZoneHeader → Nat)

def computeChecksum (h : ZoneHeader) : Nat := crc { h with checksum := 0 }

def finalize (h : ZoneHeader) : ZoneHeader := { h with checksum := h.computeChecksum crc }

/-- Magic and checksum hold, and the header belongs to the device `uuid`. -/
def isValidFor (uuid : Nat) (h : ZoneHeader) : Bool :=
  h.magic == zoneHeaderMagic && h.deviceUuid == uuid && h.checksum == h.computeChecksum crc

end ZoneHeader

/-- The label of an open device, with the checksums of labels and headers. A label that is not valid
is not read. -/
structure Format where
  labelCrc : DeviceLabel → Nat
  headerCrc : ZoneHeader → Nat
  label : DeviceLabel
  valid : label.isValid labelCrc = true

namespace Format

variable (f : Format)

theorem deviceBlock_lt_zoneSize : deviceBlock < f.label.zoneSize := by
  have h := f.valid
  unfold DeviceLabel.isValid at h
  split at h
  · exact absurd h Bool.false_ne_true
  · next hcheck => omega

/-- What `write_zone_header` puts into a block: magic, device and checksum are its own. -/
def stamp (h : ZoneHeader) : ZoneHeader :=
  ZoneHeader.finalize f.headerCrc
    { h with magic := zoneHeaderMagic, deviceUuid := f.label.deviceUuid }

/-- Payloads of different zones do not meet. -/
theorem zone_unique {zone zone' a : Nat} (h : f.label.InPayload zone a)
    (h' : f.label.InPayload zone' a) : zone = zone' := by
  obtain ⟨hlow, hhigh⟩ := h
  obtain ⟨hlow', hhigh'⟩ := h'
  rcases Nat.lt_trichotomy zone zone' with hlt | heq | hlt
  · have hend := f.label.zoneOffset_add_le hlt
    omega
  · exact heq
  · have hend := f.label.zoneOffset_add_le hlt
    omega

end Format

end Lchfs.Zones
