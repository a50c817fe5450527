import Lchfs.Zones.Scan

/-!
# Segments do not touch each other

Every byte written through a handle lies in the payload of a zone of the handle's segment.
The label keeps the zones apart from the fixed regions, as long as the ends of its regions
are numbers that fit into 64 bits: their sums wrap without a check.
-/

namespace Lchfs.Zones

open Lchfs.Library
open List Option

variable {f : Format} {α : Type} {d : Device} {answers : List Answer}

/-! ## The label -/

namespace DeviceLabel

variable {l : DeviceLabel}

/-- No end of a region and no end of the zone area wraps. -/
def Fits (l : DeviceLabel) : Prop :=
  (∀ r ∈ l.ordered, r.offset + r.len < 2 ^ 64) ∧
    l.zonesOffset + l.zoneCount * l.zoneSize + deviceBlock < 2 ^ 64

instance : DecidablePred Fits := fun _ ↦ inferInstanceAs (Decidable (_ ∧ _))

theorem stop_eq {r : Region} (h : r.offset + r.len < 2 ^ 64) : r.stop = r.offset + r.len :=
  Nat.mod_eq_of_lt h

/-- Regions in order end before the last one does. -/
theorem stop_le_of_inOrder (regions : List Region) (last : Region) (hordered : inOrder (regions ++ [last]) = true)
    (hfits : ∀ r ∈ regions ++ [last], r.offset + r.len < 2 ^ 64) :
    ∀ r ∈ regions ++ [last], r.offset + r.len ≤ last.stop := by
  induction regions with
  | nil =>
    intro r hr
    obtain rfl : r = last := by simpa using hr
    exact (stop_eq (hfits r (by simp))).ge
  | cons r regions ih =>
    obtain ⟨r', rest, hrest⟩ : ∃ r' rest, regions ++ [last] = r' :: rest :=
      exists_cons_of_ne_nil (by simp)
    have hfits' : ∀ s ∈ regions ++ [last], s.offset + s.len < 2 ^ 64 :=
      fun s hs ↦ hfits s (mem_cons_of_mem r hs)
    rw [cons_append, hrest, inOrder, Bool.and_eq_true_iff, decide_eq_true_iff] at hordered
    have hlater := ih (hrest ▸ hordered.2) hfits'
    intro s hs
    rcases mem_cons.1 hs with rfl | hs
    · have hnext := hlater r' (hrest ▸ mem_cons_self)
      have hstop := stop_eq (hfits s mem_cons_self)
      omega
    · exact hlater s hs

/-- The fixed regions lie before the zones, the second label after them. -/
theorem regions_before_zones {crc : DeviceLabel → Nat} (hvalid : l.isValid crc = true) (hfits : l.Fits) :
    (∀ r ∈ l.ordered, r.offset + r.len ≤ l.zonesOffset) ∧
      l.zonesOffset + l.zoneCount * l.zoneSize + deviceBlock ≤ l.deviceSize := by
  unfold isValid at hvalid
  split at hvalid
  · exact absurd hvalid Bool.false_ne_true
  · simp only [Bool.and_eq_true_iff, decide_eq_true_iff] at hvalid
    obtain ⟨⟨⟨⟨⟨hordered, hindex⟩, -⟩, -⟩, -⟩, hend⟩ := hvalid
    refine ⟨fun r hr ↦ ?_, ?_⟩
    · have hlast := stop_le_of_inOrder
        [⟨0, deviceBlock⟩, l.superblock, l.keyring, l.shardSuperblocks, l.scratch] l.index hordered hfits.1 r hr
      exact hlast.trans hindex
    · obtain ⟨_, hstop, hle⟩ := (any_eq_true _ _).1 hend
      unfold zonesEnd at hstop
      obtain ⟨-, hstop⟩ := ite_none_right_eq_some.1 hstop
      cases hstop
      have hwrap := hfits.2
      rw [decide_eq_true_iff, wrap, Nat.mod_eq_of_lt (by rw [Nat.mul_comm]; omega)] at hle
      rw [Nat.mul_comm] at hle
      omega

/-- An address that belongs to no zone's header, to no fixed region and to neither label. -/
def Private (l : DeviceLabel) (a : Nat) : Prop :=
  (∀ zone, ¬(l.zoneOffset zone ≤ a ∧ a < l.zoneOffset zone + deviceBlock)) ∧
    (∀ r ∈ l.ordered, ¬(r.offset ≤ a ∧ a < r.offset + r.len)) ∧ a < l.deviceSize - deviceBlock

end DeviceLabel

/-- The payloads of the zones are private. -/
theorem Format.private_of_inPayload (hfits : f.label.Fits) {zone a : Nat} (hzone : zone < f.label.zoneCount)
    (h : f.label.InPayload zone a) : f.label.Private a := by
  obtain ⟨hlow, hhigh⟩ := h
  obtain ⟨hregions, hend⟩ := DeviceLabel.regions_before_zones f.valid hfits
  have hlast := f.label.zoneOffset_add_le hzone
  have hfirst : f.label.zonesOffset ≤ f.label.zoneOffset zone := Nat.le_add_right _ _
  refine ⟨fun zone' hheader ↦ ?_, fun r hr hin ↦ ?_, ?_⟩
  · rcases Nat.lt_trichotomy zone zone' with hlt | rfl | hlt
    · have hmul := f.label.zoneOffset_add_le hlt
      omega
    · omega
    · have hmul := f.label.zoneOffset_add_le hlt
      omega
  · have hbefore := hregions r hr
    omega
  · unfold DeviceLabel.zoneOffset at hlast hhigh
    omega

/-! ## Where the bytes of a write go -/

/-- The bytes lie in the payload of one of the zones. Other writes do not count. -/
def Write.LandsIn (l : DeviceLabel) (zones : List Nat) : Write → Prop
  | .bytes start data => ∃ zone ∈ zones, l.zoneOffset zone + deviceBlock ≤ start ∧
      start + data.length ≤ l.zoneOffset zone + l.zoneSize
  | _ => True

theorem pieces_land (offset stop : Nat) (zones : List Nat) (pos : Nat) :
    ∀ p ∈ pieces f.label offset stop zones pos, ∃ zone ∈ zones,
      f.label.zoneOffset zone + deviceBlock ≤ p.start ∧
        p.start + p.len ≤ f.label.zoneOffset zone + f.label.zoneSize := by
  have hsize := f.deviceBlock_lt_zoneSize
  have hpayload : f.label.payload + deviceBlock = f.label.zoneSize := by
    rw [DeviceLabel.payload]
    omega
  induction zones generalizing pos with
  | nil => simp [pieces]
  | cons zone _ ih =>
    intro p hp
    unfold pieces at hp
    split at hp
    · rcases mem_cons.1 hp with rfl | hp
      · refine ⟨zone, mem_cons_self, by simp only []; omega, ?_⟩
        have hwithin : pos % f.label.payload < f.label.payload := Nat.mod_lt _ (by omega)
        simp only []
        omega
      · obtain ⟨zone', hzone', hland⟩ := ih _ p hp
        exact ⟨zone', mem_cons_of_mem zone hzone', hland⟩
    · simp at hp

theorem locate_lands {zones : List Nat} {offset stop : Nat} {list : List Piece}
    (h : locate f.label zones offset stop = some list) : ∀ p ∈ list, ∃ zone ∈ zones,
      f.label.zoneOffset zone + deviceBlock ≤ p.start ∧
        p.start + p.len ≤ f.label.zoneOffset zone + f.label.zoneSize := by
  unfold locate at h
  obtain ⟨-, h⟩ := ite_none_right_eq_some.1 h
  cases h
  intro p hp
  obtain ⟨zone, hzone, hland⟩ := pieces_land offset stop _ offset p hp
  exact ⟨zone, mem_of_mem_take (mem_of_mem_drop hzone), hland⟩

/-- All writes issued since `old` satisfy `W`. -/
def IssuedSince (old : List Write) (W : Write → Prop) (disk : Disk) : Prop :=
  ∃ new, disk.issued = old ++ new ∧ ∀ w ∈ new, W w

theorem IssuedSince.mono {old : List Write} {W W' : Write → Prop} {disk : Disk} (h : IssuedSince old W disk)
    (himp : ∀ w, W w → W' w) : IssuedSince old W' disk := by
  obtain ⟨new, hissued, hnew⟩ := h
  exact ⟨new, hissued, fun w hw ↦ himp w (hnew w hw)⟩

section Issued

variable {old : List Write} {W : Write → Prop}

theorem issue_issued {w : Write} (hw : W w) : Keeps anyAnswer (IssuedSince old W) (issue w) := by
  have hwrite : ∀ disk, IssuedSince old W disk → IssuedSince old W (disk.write w) := by
    rintro _ ⟨new, hissued, hnew⟩
    refine ⟨new ++ [w], ?_, fun v hv ↦ ?_⟩
    · rw [WriteCache.write, hissued, append_assoc]
    · rcases mem_append.1 hv with hv | hv
      · exact hnew v hv
      · exact mem_singleton.1 hv ▸ hw
  exact .call hwrite (fun _ ↦ hwrite) (fun _ _ h ↦ h) fun _ h ↦ h

theorem sync_issued : Keeps anyAnswer (IssuedSince old W) sync :=
  .call (fun _ h ↦ h) (fun _ _ h ↦ h) (fun _ _ h ↦ h) fun _ h ↦ h

/-- A claim writes headers and zeros only. -/
theorem takeZone_issued (hheader : ∀ zone h, W (.header zone h)) (hzeros : ∀ start len, W (.zeros start len))
    (key : Key) (ordinal zone : Nat) (was : Zone) :
    Keeps anyAnswer (IssuedSince old W) (takeZone f key ordinal zone was) := by
  refine .bind (Q := fun _ ↦ IssuedSince old W) ?_ fun _ ↦ .bind (issue_issued (hheader _ _)) fun _ ↦ sync_issued
  unfold zeroUnknown
  split
  · exact issue_issued (hzeros _ _)
  · exact .pure fun _ h ↦ h

/-- No bytes were written since `old`, and the memory is well formed. -/
abbrev NoBytes (f : Format) (old : List Write) (d : Device) : Prop :=
  KeptWith f (IssuedSince old (Write.LandsIn f.label [])) d

theorem growTo_noBytes (ref stop : Nat) : Keeps anyAnswer (NoBytes f old) (growTo f ref stop) := by
  have hgrow : ∀ n, Keeps anyAnswer (NoBytes f old) (grow f ref n) := by
    intro n
    induction n with
    | zero => exact .pure fun _ h ↦ h
    | succ n ih =>
      refine .read_keeps fun _ _ ↦ ?_
      split
      · exact .pure fun _ h ↦ h
      · refine .bind (claimZone_keeps (takeZone_issued (fun _ _ ↦ trivial) (fun _ _ ↦ trivial) _ _)) fun zone ↦
          .bind (onMemory_ensures fun d h ↦ ?_) fun _ ↦ ih
        exact ⟨h.1, h.2.1.modify (fun _ ↦ rfl) (.inr ⟨zone, h.2.2, fun _ ↦ rfl⟩)⟩
  refine .read_keeps fun _ _ ↦ ?_
  split
  · exact hgrow _
  · exact .pure fun _ h ↦ h

/-- The bytes written since `old` are in zones of the object `ref`. -/
def Landed (f : Format) (old : List Write) (ref : Nat) (d : Device) : Prop :=
  IssuedSince old (Write.LandsIn f.label (d.memory.zonesOf ref)) d.disk

theorem NoBytes.landed {ref : Nat} (h : NoBytes f old d) : Landed f old ref d := by
  refine h.1.mono fun w hw ↦ ?_
  cases w with
  | header => trivial
  | zeros => trivial
  | bytes =>
    obtain ⟨_, hzone, -⟩ := hw
    simp at hzone

theorem mapPieces_lands (ref offset len : Nat) :
    Ensures anyAnswer (NoBytes f old) (mapPieces f ref offset len)
      (fun list d ↦ NoBytes f old d ∧ ∀ p ∈ list, ∃ zone ∈ d.memory.zonesOf ref,
        f.label.zoneOffset zone + deviceBlock ≤ p.start ∧
          p.start + p.len ≤ f.label.zoneOffset zone + f.label.zoneSize)
      (fun _ ↦ NoBytes f old) (NoBytes f old) := by
  refine (growTo_noBytes ref _).bind fun _ ↦ ?_
  split
  · exact .pure fun _ h ↦ ⟨h, by simp⟩
  · refine .read_bind fun d hd ↦ ?_
    split
    · next hlist => exact .pure fun _ heq ↦ heq ▸ ⟨hd, locate_lands hlist⟩
    · exact .raise fun _ heq ↦ heq ▸ hd

/-- Every byte that a write issues, whether it succeeds or not, lands in a zone of the segment. -/
theorem writeAllAt_lands (ref offset : Nat) (data : List UInt8) :
    Ensures anyAnswer (NoBytes f old) (writeAllAt f ref offset data)
      (fun _ d ↦ Landed f old ref d ∧ Kept f d) (fun _ d ↦ Landed f old ref d ∧ Kept f d)
      fun d ↦ Landed f old ref d ∧ Kept f d := by
  refine .bind ((mapPieces_lands ref offset data.length).mono (fun _ h ↦ h) (fun _ _ h ↦ h)
    (fun _ _ h ↦ ⟨NoBytes.landed h, h.2⟩) fun _ h ↦ ⟨NoBytes.landed h, h.2⟩) fun list ↦ .of_forall fun d hd ↦ ?_
  obtain ⟨hnone, hland⟩ := hd
  have hissue : Keeps anyAnswer (IssuedSince old (Write.LandsIn f.label (d.memory.zonesOf ref)))
      (list.forM fun p ↦ issue (.bytes p.start ((data.drop p.skip).take p.len))) := by
    refine .forM_keeps fun p hp ↦ issue_issued ?_
    obtain ⟨zone, hzone, hlow, hhigh⟩ := hland p hp
    have hlen := length_take_le p.len (data.drop p.skip)
    exact ⟨zone, hzone, hlow, by omega⟩
  have hpieces := onDisk_frame hissue fun m ↦ m = d.memory
  have hlanded : ∀ d' : Device, IssuedSince old (Write.LandsIn f.label (d.memory.zonesOf ref)) d'.disk ∧
      d'.memory = d.memory → Landed f old ref d' ∧ Kept f d' := by
    rintro _ ⟨hissued, hmemory⟩
    rw [Landed, Kept, hmemory]
    exact ⟨hissued, hnone.2⟩
  have hstart : ∀ d' : Device, d' = d →
      IssuedSince old (Write.LandsIn f.label (d.memory.zonesOf ref)) d'.disk ∧ d'.memory = d.memory := by
    rintro _ rfl
    exact ⟨NoBytes.landed hnone, rfl⟩
  refine .bind (hpieces.mono hstart (fun _ _ h ↦ h)
    (fun _ d' h ↦ hlanded d' h) fun d' h ↦ hlanded d' h) fun _ ↦ onMemory_ensures fun d' hd' ↦ ?_
  obtain ⟨hissued, hmemory⟩ := hd'
  have hzones : Memory.zonesOf { d'.memory with
        heap := Table.modify ref
          (fun seg ↦ { seg with len := max seg.len (wrap (offset + data.length)) }) d'.memory.heap } ref =
      d.memory.zonesOf ref := by
    rw [hmemory, Memory.zonesOf, Memory.zonesOf, Table.lookup_modify_self, Option.map_map]
    rfl
  have howns : d'.memory.Owns f := hmemory ▸ hnone.2
  refine ⟨?_, howns.modify (fun _ ↦ rfl) (.inl fun _ ↦ rfl)⟩
  rw [Landed, hzones]
  exact hissued

end Issued

theorem noBytes_refl (hd : Kept f d) : NoBytes f d.disk.issued d :=
  ⟨⟨[], by simp, by simp⟩, hd⟩

theorem writeAllAt_keeps (ref offset : Nat) (data : List UInt8) :
    Keeps anyAnswer (Kept f) (writeAllAt f ref offset data) :=
  .of_forall fun _ hd ↦ (writeAllAt_lands ref offset data).mono (by rintro _ rfl; exact noBytes_refl hd)
    (fun _ _ h ↦ h.2) (fun _ _ h ↦ h.2) fun _ h ↦ h.2

/-! ## All runs -/

/-- An operation of an open device keeps what its program keeps. -/
theorem afterOp_opened {I : Device → Prop} {m : DeviceIo α} (h : Keeps anyAnswer I m) {d' : Device}
    (hd : I d) (heq : afterOp (m d answers) = .opened d') : I d' := by
  obtain ⟨-, hmeets⟩ := h d answers (fun _ _ ↦ trivial) hd
  match hend : m d answers, hmeets with
  | (.value a, t, rest), hmeets =>
    obtain rfl := State.opened.inj (hend ▸ heq)
    exact hmeets
  | (.error e, t, rest), hmeets =>
    obtain rfl := State.opened.inj (hend ▸ heq)
    exact hmeets
  | (.powerLoss, t, rest), _ =>
    rw [hend] at heq
    exact State.noConfusion heq

theorem Action.program_keeps {m : Memory} {a : Action} {program : DeviceIo Unit}
    (h : a.program f m = some (program, answers)) : Keeps anyAnswer (Kept f) program := by
  cases a with
  | create key => cases h; exact createSegment_keeps key
  | openHandle key => cases h; exact openSegment_keeps key
  | cloneHandle ref =>
    obtain ⟨-, ⟨⟩⟩ := ite_none_right_eq_some.1 h
    exact cloneHandle_keeps ref
  | write ref offset data =>
    obtain ⟨-, ⟨⟩⟩ := ite_none_right_eq_some.1 h
    exact writeAllAt_keeps ref offset data
  | sync ref =>
    obtain ⟨-, ⟨⟩⟩ := ite_none_right_eq_some.1 h
    exact syncAll_keeps ref
  | remove key => cases h; exact removeSegment_keeps key
  | removeAll => cases h; exact removeAllSegments_keeps
  | drop ref =>
    obtain ⟨-, ⟨⟩⟩ := ite_none_right_eq_some.1 h
    exact dropHandle_keeps ref
  | blockAllocation =>
    cases h
    exact onMemory_ensures fun _ hd ↦ hd.refer hd.listed hd.opened
  | mount | close | crash => simp [Action.program] at h

/-- In every run the memory of an open device is well formed, whichever calls failed. -/
theorem owns_of_reachable {s : State} (hreach : (device f).Reachable s) :
    ∀ d, s = .opened d → d.memory.Owns f := by
  induction hreach with
  | init hinit =>
    rintro d rfl
    exact hinit.elim
  | @step s t a hreach _ hstep ih =>
    rintro d rfl
    change State.step f s a = some (.opened d) at hstep
    unfold State.step at hstep
    split at hstep
    · next disk answers =>
      obtain ⟨-, hmeets⟩ := scanZones_keeps (f := f) ⟨disk, .empty⟩ answers (fun _ _ ↦ trivial) trivial
      match hend : scanZones f ⟨disk, .empty⟩ answers, hmeets with
      | (.value _, d', rest), hmeets =>
        obtain rfl := State.opened.inj (some.inj (hend ▸ hstep))
        exact hmeets
      | (.error _, d', rest), _ =>
        rw [hend] at hstep
        exact State.noConfusion (some.inj hstep)
      | (.powerLoss, d', rest), _ =>
        rw [hend] at hstep
        exact State.noConfusion (some.inj hstep)
    · exact State.noConfusion (some.inj hstep)
    · exact State.noConfusion (some.inj hstep)
    · exact State.noConfusion (some.inj hstep)
    · next d' answers =>
      obtain ⟨-, hstep⟩ := ite_none_right_eq_some.1 hstep
      match hend : closeDevice f d' answers with
      | (.value _, _, _) | (.error _, _, _) | (.powerLoss, _, _) =>
        rw [hend] at hstep
        exact State.noConfusion (some.inj hstep)
    · next a d' _ _ =>
      obtain ⟨⟨_, _⟩, hprogram, heq⟩ := map_eq_some_iff.1 hstep
      exact afterOp_opened (Action.program_keeps hprogram) (ih d' rfl) heq
    · simp at hstep

/-- A disk before its first use. -/
def blankImage : Image := ⟨fun _ ↦ none, fun _ ↦ 0⟩

theorem init_blank : (device f).init (.closed (.fresh blankImage)) :=
  ⟨blankImage, rfl, fun _ ↦ rfl⟩

/-- A device of 24 MiB with zones of 1 MiB and index copies of 1 MiB. -/
def smallFormat : Format where
  labelCrc _ := 0
  headerCrc _ := 0
  label :=
    { magic := deviceLabelMagic, layoutVersion := 1, deviceUuid := 7, generation := 1
      deviceSize := 25165824, superblock := ⟨4096, 65536⟩, keyring := ⟨1048576, 4194304⟩
      keyringCopyLen := 2097152, shardSuperblocks := ⟨5242880, 4194304⟩
      scratch := ⟨9437184, 4096⟩, index := ⟨10485760, 2097152⟩, indexCopyLen := 1048576
      indexActive := 0, indexLen := (0, 0), zonesOffset := 12582912, zoneSize := 1048576
      zoneCount := 11, checksum := 0 }
  valid := by decide

/-- Answers without a failure. -/
def fine (n : Nat) : List Answer := List.replicate n .done

/-- Mounts a new device and creates a segment. -/
def createRun : List Action := [.mount (fine 2), .create (.data, 1) (fine 3)]

/-- The label of a 16 MiB device whose two index copies are to take 2 ^ 64 - 10 MiB: the end of the
index wraps to zero, and the zones begin at the start of the device. -/
def hugeIndexFormat : Format where
  labelCrc _ := 0
  headerCrc _ := 0
  label :=
    { magic := deviceLabelMagic, layoutVersion := 1, deviceUuid := 7, generation := 1
      deviceSize := 16777216, superblock := ⟨4096, 65536⟩, keyring := ⟨1048576, 4194304⟩
      keyringCopyLen := 2097152, shardSuperblocks := ⟨5242880, 4194304⟩
      scratch := ⟨9437184, 4096⟩, index := ⟨10485760, 18446744073699065856⟩
      indexCopyLen := 9223372036849532928, indexActive := 0, indexLen := (0, 0)
      zonesOffset := 0, zoneSize := 1048576, zoneCount := 15, checksum := 0 }
  valid := by decide

end Lchfs.Zones
