import Lchfs.Devices.Members

/-!
# The superblock ring of a device

A superblock goes to the slot that its generation selects, and the newest slot that is intact is
read back. A checkpoint writes a new generation; attach and detach rewrite the current one with
another number of devices; attach begins the ring of a new device, and detach clears that of the
one that leaves.
-/

namespace Lchfs.Devices.Superblocks

open Lchfs.Library
open List Option
open Function

def superblockSlotCount : Nat := 16

def formatVersion : Nat := 6

def minReadableFormatVersion : Nat := 6

/-- What a slot's bytes are taken for. Bytes that do not decode, have another magic or do not match
their checksum are nothing; those of an older layout are recognised by their magic. -/
inductive Decoded
  | nothing
  | legacy (version : Nat)
  | slot (version : Nat) (slot : SuperblockSlot)

/-- The encoding of slots. A write that stops half-way leaves a mix of old and new bytes, and the
checksum tells a mix from a slot. -/
structure Codec (α : Type) where
  encode : SuperblockSlot → List α
  decode : List α → Decoded
  decode_nil : decode [] = .nothing
  decode_encode : ∀ slot, decode (encode slot) = .slot formatVersion slot
  torn : ∀ slot old n, decode ((encode slot).take n ++ old.drop n) = .nothing ∨
    decode ((encode slot).take n ++ old.drop n) = decode old ∨
    decode ((encode slot).take n ++ old.drop n) = decode (encode slot)

inductive PoolError
  | legacyFormatVersion (found supported : Nat)
  | unsupportedFormatVersion (found supported : Nat)
  | format (vdevId vdevCount : Nat)

abbrev Ring (α : Type) := Nat → List α

variable {α : Type} (codec : Codec α)

/-- The loop of `read_superblock`. -/
def readSlots (ring : Ring α) : List Nat → Option SuperblockSlot → Except PoolError (Option SuperblockSlot)
  | [], best => .ok best
  | i :: rest, best =>
    match codec.decode (ring i) with
    | .nothing => readSlots ring rest best
    | .legacy version => .error (.legacyFormatVersion version formatVersion)
    | .slot version slot =>
      if version < minReadableFormatVersion then .error (.legacyFormatVersion version formatVersion)
      else if formatVersion < version then .error (.unsupportedFormatVersion version formatVersion)
      else if slot.vdevCount = 0 ∨ slot.vdevCount ≤ slot.vdevId then .error (.format slot.vdevId slot.vdevCount)
      else readSlots ring rest (if best.all (·.generation < slot.generation) then some slot else best)

def readSuperblock (ring : Ring α) : Except PoolError (Option SuperblockSlot) :=
  readSlots codec ring (List.range superblockSlotCount) none

def slotIdx (slot : SuperblockSlot) : Nat := slot.generation % superblockSlotCount

def writeSuperblockSlot (ring : Ring α) (slot : SuperblockSlot) : Ring α :=
  update ring (slotIdx slot) (codec.encode slot)

/-- The first `n` bytes of a slot are written. -/
def tornWrite (ring : Ring α) (slot : SuperblockSlot) (n : Nat) : Ring α :=
  update ring (slotIdx slot) ((codec.encode slot).take n ++ (ring (slotIdx slot)).drop n)

inductive Write
  | checkpoint (slot : SuperblockSlot)
  | setCount (vdevCount : Nat)
  | begin (vdevId vdevCount : Nat)
  | clear
  deriving DecidableEq

/-- The slot that a writer writes. Attach and detach start from the one they read. -/
def slotOf (ring : Ring α) : Write → Option SuperblockSlot
  | .checkpoint slot => if slot.vdevId < slot.vdevCount then some slot else none
  | .setCount vdevCount =>
    match readSuperblock codec ring with
    | .ok (some slot) => if slot.vdevId < vdevCount then some { slot with vdevCount } else none
    | _ => none
  | .begin vdevId vdevCount =>
    match readSuperblock codec ring with
    | .ok none => if vdevId < vdevCount then some ⟨vdevId, vdevCount, 0⟩ else none
    | _ => none
  | .clear => none

/-- A ring, with the last slot whose write was completed. -/
structure State (α : Type) where
  ring : Ring α
  last : Option SuperblockSlot

/-- Every step is a completed write. -/
def machine : Machine (State α) Write where
  init s := (∀ i, codec.decode (s.ring i) = .nothing) ∧ s.last = none
  step s
    | .clear => some ⟨fun _ ↦ [], none⟩
    | w => (slotOf codec s.ring w).map fun slot ↦ ⟨writeSuperblockSlot codec s.ring slot, some slot⟩

/-- A checkpoint is newer than the last slot written. -/
def Newer (s : State α) (w : Write) : Prop :=
  ∀ slot, w = .checkpoint slot → ∀ l ∈ s.last, l.generation < slot.generation

/-! ## What is read -/

variable {codec} {ring : Ring α} {slot : SuperblockSlot} {last best : Option SuperblockSlot}

/-- The last slot is there, and every other one that decodes is older. -/
structure Newest (codec : Codec α) (ring : Ring α) (last : Option SuperblockSlot) : Prop where
  block : ∀ i, codec.decode (ring i) = .nothing ∨ ∃ t, codec.decode (ring i) = .slot formatVersion t ∧
    t.vdevId < t.vdevCount ∧ slotIdx t = i ∧ ∃ l ∈ last, t = l ∨ t.generation < l.generation
  found : ∀ l ∈ last, codec.decode (ring (slotIdx l)) = .slot formatVersion l

theorem not_outOfRange (h : slot.vdevId < slot.vdevCount) :
    ¬(slot.vdevCount = 0 ∨ slot.vdevCount ≤ slot.vdevId) :=
  not_or.2 ⟨Nat.ne_of_gt (Nat.zero_lt_of_lt h), Nat.not_le.2 h⟩

theorem Newest.readSlots (h : Newest codec ring last) {indices : List Nat}
    (hbest : best = last ∨ ∃ l ∈ last, slotIdx l ∈ indices ∧ ∀ b ∈ best, b.generation < l.generation) :
    readSlots codec ring indices best = .ok last := by
  induction indices generalizing best with
  | nil =>
    obtain rfl := hbest.resolve_right (by simp)
    rfl
  | cons i _ ih =>
    unfold Superblocks.readSlots
    rcases h.block i with hnone | ⟨t, hslot, hid, hidx, l, hl, hle⟩
    · simp only [hnone]
      refine ih (hbest.imp_right ?_)
      rintro ⟨l, hl, hmem, hb⟩
      refine ⟨l, hl, (mem_cons.1 hmem).resolve_left ?_, hb⟩
      rintro rfl
      cases hnone.symm.trans (h.found l hl)
    · rw [hslot]
      simp only [Nat.lt_irrefl, if_false, not_outOfRange hid, show ¬formatVersion < minReadableFormatVersion by decide]
      apply ih
      rcases hbest with rfl | ⟨_, hl', hmem, hb⟩
      · left
        rw [mem_def] at hl
        rw [if_neg]
        rcases hle with rfl | hlt <;> simp [hl]
        exact Nat.le_of_lt hlt
      obtain rfl := mem_unique hl hl'
      rcases hle with rfl | hlt
      · left
        rw [if_pos ((all_eq_true _ _).2 fun b hb' ↦ decide_eq_true (hb b hb'))]
        exact hl.symm
      · right
        refine ⟨l, hl, (mem_cons.1 hmem).resolve_left fun heq ↦ ?_, ?_⟩
        · -- the slot at that index is `t`
          have hfound := h.found l hl
          rw [heq, hslot] at hfound
          cases hfound
          exact Nat.lt_irrefl _ hlt
        · intro b hb'
          split_ifs at hb' with hnewer
          · cases hb'
            exact hlt
          · exact hb b hb'

theorem Newest.readSuperblock (h : Newest codec ring last) : readSuperblock codec ring = .ok last := by
  refine h.readSlots ?_
  cases last with
  | none => exact .inl rfl
  | some l => exact .inr ⟨l, rfl, mem_range.2 (Nat.mod_lt _ (by decide)), by simp⟩

theorem Newest.update (h : Newest codec ring last) (hid : slot.vdevId < slot.vdevCount)
    (hnewer : ∀ l ∈ last, l.generation ≤ slot.generation) {block : List α}
    (hblock : codec.decode block = .slot formatVersion slot) :
    Newest codec (update ring (slotIdx slot) block) (some slot) where
  block i := by
    by_cases hi : i = slotIdx slot
    · subst hi
      rw [update_self]
      exact .inr ⟨slot, hblock, hid, rfl, slot, rfl, .inl rfl⟩
    · rw [update_of_ne hi]
      refine (h.block i).imp_right ?_
      rintro ⟨t, ht, hid, rfl, l, hl, hle⟩
      refine ⟨t, ht, hid, rfl, slot, rfl, .inr ?_⟩
      rcases hle with rfl | hlt
      · exact Nat.lt_of_le_of_ne (hnewer t hl) fun heq ↦ hi (congrArg (· % superblockSlotCount) heq)
      · exact Nat.lt_of_lt_of_le hlt (hnewer l hl)
  found l hl := by
    cases hl
    rw [update_self, hblock]

theorem slotOf_valid {w : Write} (h : slotOf codec ring w = some slot) : slot.vdevId < slot.vdevCount := by
  cases w with
  | checkpoint =>
    obtain ⟨hid, ⟨⟩⟩ := ite_none_right_eq_some.1 h
    exact hid
  | setCount vdevCount | begin vdevId vdevCount =>
    simp only [slotOf] at h
    split at h
    · obtain ⟨hid, ⟨⟩⟩ := ite_none_right_eq_some.1 h
      exact hid
    · cases h
  | clear => cases h

theorem Newest.blank : Newest codec (fun _ ↦ []) none := ⟨fun _ ↦ .inl codec.decode_nil, nofun⟩

theorem Newest.write {w : Write} (h : Newest codec ring last)
    (hnewer : ∀ slot, w = .checkpoint slot → ∀ l ∈ last, l.generation < slot.generation)
    (hslot : slotOf codec ring w = some slot) : Newest codec (writeSuperblockSlot codec ring slot) (some slot) := by
  refine h.update (slotOf_valid hslot) (fun l hl ↦ ?_) (codec.decode_encode slot)
  have hread := h.readSuperblock
  rw [mem_def.1 hl] at hread
  cases w <;> simp only [slotOf, hread] at hslot
  case checkpoint =>
    obtain ⟨-, ⟨⟩⟩ := ite_none_right_eq_some.1 hslot
    exact Nat.le_of_lt (hnewer _ rfl l hl)
  case setCount =>
    obtain ⟨-, ⟨⟩⟩ := ite_none_right_eq_some.1 hslot
    exact Nat.le_refl _
  all_goals cases hslot

theorem Newest.of_reachable {s : State α} (hs : (machine codec).ReachableUnder Newer s) :
    Newest codec s.ring s.last := by
  refine hs.invariant (I := fun s ↦ Newest codec s.ring s.last) ?_ fun s w t _ h hnewer hst ↦ ?_
  · rintro s ⟨hblank, hlast⟩
    exact ⟨fun i ↦ .inl (hblank i), fun l hl ↦ nomatch hlast ▸ hl⟩
  cases w with
  | clear =>
    cases hst
    exact .blank
  | checkpoint slot | setCount vdevCount | begin vdevId vdevCount =>
    obtain ⟨_, hslot, rfl⟩ := map_eq_some_iff.1 hst
    exact h.write hnewer hslot

inductive FsckError
  | legacyFormatVersion (found supported : Nat)
  | unsupportedFormatVersion (found supported : Nat)
  | noValidSuperblock

/-- The loop of the `read_superblock` of fsck, which does not look at the device's number. -/
def fsckSlots (codec : Codec α) (ring : Ring α) :
    List Nat → Option SuperblockSlot → Except FsckError (Option SuperblockSlot)
  | [], best => .ok best
  | i :: rest, best =>
    match codec.decode (ring i) with
    | .nothing => fsckSlots codec ring rest best
    | .legacy version => .error (.legacyFormatVersion version formatVersion)
    | .slot version slot =>
      if version < minReadableFormatVersion then .error (.legacyFormatVersion version formatVersion)
      else if formatVersion < version then .error (.unsupportedFormatVersion version formatVersion)
      else fsckSlots codec ring rest (if best.all (·.generation < slot.generation) then some slot else best)

def fsckReadSuperblock (codec : Codec α) (ring : Ring α) : Except FsckError SuperblockSlot :=
  match fsckSlots codec ring (List.range superblockSlotCount) none with
  | .ok (some slot) => .ok slot
  | .ok none => .error .noValidSuperblock
  | .error e => .error e

/-- Every slot of this version names a device that its pool has. -/
def InRange (codec : Codec α) (ring : Ring α) : Prop :=
  ∀ i < superblockSlotCount, ∀ slot, codec.decode (ring i) = .slot formatVersion slot → slot.vdevId < slot.vdevCount

theorem fsckSlots_eq_ok {indices : List Nat} (h : ∀ i ∈ indices, ∀ slot,
      codec.decode (ring i) = .slot formatVersion slot → slot.vdevId < slot.vdevCount) :
    fsckSlots codec ring indices best = .ok last ↔ readSlots codec ring indices best = .ok last := by
  induction indices generalizing best with
  | nil => simp [fsckSlots, readSlots]
  | cons i _ ih =>
    obtain ⟨hi, hrest⟩ := forall_mem_cons.1 h
    unfold fsckSlots readSlots
    split
    · exact ih hrest
    · simp
    · next version slot hslot =>
      by_cases hold : version < minReadableFormatVersion
      · simp [hold]
      by_cases hnew : formatVersion < version
      · simp [hold, hnew]
      obtain rfl : version = formatVersion := Nat.le_antisymm (Nat.not_lt.1 hnew) (Nat.not_lt.1 hold)
      simp only [hold, hnew, not_outOfRange (hi slot hslot), if_false]
      exact ih hrest

section Twice

/-- Slots that are written twice, as one byte each. -/
def twice : Codec SuperblockSlot where
  encode slot := [slot, slot]
  decode
    | [a, b] => if a = b then .slot formatVersion a else .nothing
    | _ => .nothing
  decode_nil := rfl
  decode_encode slot := by simp
  torn slot old n := by
    match n, old with
    | 0, old => exact .inr (.inl rfl)
    | 1, [] | 1, [_] | 1, _ :: _ :: _ :: _ => exact .inl rfl
    | 1, [_, b] =>
      by_cases h : slot = b
      · subst h
        exact .inr (.inr rfl)
      · exact .inl (by simp [h])
    | n + 2, old =>
      cases h : old.drop (n + 2) with
      | nil => exact .inr (.inr (by simp))
      | cons b rest => exact .inl (by simp)

/-- A device that was just attached. -/
theorem reachable_begun : (machine twice).ReachableUnder Newer
    ⟨writeSuperblockSlot twice (fun _ ↦ []) ⟨0, 1, 0⟩, some ⟨0, 1, 0⟩⟩ := by
  have hblank : (machine twice).init ⟨fun _ ↦ [], none⟩ := ⟨fun _ ↦ rfl, rfl⟩
  exact .step (.init hblank) (a := .begin 0 1) nofun rfl

end Twice

end Lchfs.Devices.Superblocks
