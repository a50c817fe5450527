import Lchfs.Zones.Ownership

/-!
# What the scan rebuilds

The headers of an image group the zones by the segment they name. Of one segment's zones
the scan takes those whose ordinals run from zero on and frees the rest.
-/

namespace Lchfs.Zones

open Lchfs.Library
open List Option Table

variable {f : Format} {i : Image}
variable {zone : Nat} {key : Key} {p : Part} {parts : List Part} {freed freed' : List Nat}

/-! ## The zones of one segment -/

theorem foldl_add_perm (parts : List Part) (a : Adopted) :
    ((parts.foldl Adopted.add a).list ++ (parts.foldl Adopted.add a).orphans).Perm
      (a.list ++ a.orphans ++ parts.map (·.2.1)) := by
  induction parts generalizing a with
  | nil => simp
  | cons p _ ih =>
    refine (ih (a.add p)).trans ?_
    unfold Adopted.add
    split
    · simp only [map_cons, append_assoc, singleton_append]
      exact (perm_middle.symm.trans (List.Perm.of_eq (by simp))).append_left a.list
    · simp

/-- Every zone is taken or left over, once. -/
theorem adopt_perm (parts : List Part) :
    ((adopt parts).list ++ (adopt parts).orphans).Perm (parts.map (·.2.1)) :=
  (foldl_add_perm _ _).trans ((perm_insertionSort partLe parts).map _)

/-! ## Grouping the zones -/

/-- The parts of a segment in the order of their zones. -/
def partsOf (f : Format) (i : Image) (key : Key) : List Part :=
  (List.range f.label.zoneCount).filterMap fun zone ↦
    (partOf f i zone).bind (Table.ofKey key)

theorem lookup_found (key : Key) :
    (found f i).lookup key = if partsOf f i key = [] then none else some (partsOf f i key) := by
  rw [found, lookup_foldl_push]
  simp only [lookup_empty, getD_none, nil_append]
  rfl

theorem partOf_zone (h : partOf f i zone = some (key, p)) : p.2.1 = zone := by
  obtain ⟨_, -, hpart⟩ := bind_eq_some_iff.1 h
  split at hpart
  · rw [← (Prod.mk.inj (some.inj hpart)).2]
  · simp at hpart

theorem mem_partsOf : p ∈ partsOf f i key ↔ p.2.1 < f.label.zoneCount ∧ partOf f i p.2.1 = some (key, p) := by
  simp only [partsOf, mem_filterMap, mem_range, bind_eq_some_iff]
  constructor
  · rintro ⟨_, hlt, ⟨key', _⟩, hpart, hp⟩
    unfold ofKey at hp
    split at hp
    · next hkey =>
      cases hp
      obtain rfl : key' = key := hkey
      rw [partOf_zone hpart]
      exact ⟨hlt, hpart⟩
    · simp at hp
  · rintro ⟨hlt, hpart⟩
    exact ⟨p.2.1, hlt, (key, p), hpart, if_pos rfl⟩

/-- A zone is a part of a segment once. -/
theorem nodup_partsOf (key : Key) : ((partsOf f i key).map (·.2.1)).Nodup := by
  rw [partsOf, map_filterMap]
  refine nodup_range.filterMap fun zone zone' z hz hz' ↦ ?_
  have hzone : ∀ n, z ∈ ((partOf f i n).bind (ofKey key)).map (·.2.1) → z = n := by
    intro n hn
    obtain ⟨p, hp, rfl⟩ := map_eq_some_iff.1 hn
    obtain ⟨⟨_, _⟩, hpart, hkey⟩ := bind_eq_some_iff.1 hp
    unfold ofKey at hkey
    split at hkey
    · cases hkey
      exact partOf_zone hpart
    · simp at hkey
  exact (hzone zone hz).symm.trans (hzone zone' hz')

/-! ## The table -/

/-- What the table holds after some segments have been gone through. -/
structure Rebuilt.Covers (f : Format) (entries : List (Key × List Part)) (r : Rebuilt) : Prop where
  listed : ∀ key ref, r.segments.lookup key = some ref →
    ∃ seg, r.heap.lookup ref = some seg ∧ seg.key = key
  objects : ∀ ref seg, r.heap.lookup ref = some seg →
    ref < r.next ∧ r.segments.lookup seg.key = some ref ∧
      ∃ parts, (seg.key, parts) ∈ entries ∧ (adopt parts).list ≠ [] ∧ seg = (adopt parts).segment f seg.key
  entered : ∀ key parts, (key, parts) ∈ entries → (adopt parts).list ≠ [] →
    ∃ ref, r.segments.lookup key = some ref ∧ r.heap.lookup ref = some ((adopt parts).segment f key)
  orphans : ∀ zone, zone ∈ r.orphans ↔ ∃ key parts, (key, parts) ∈ entries ∧ zone ∈ (adopt parts).orphans

namespace Rebuilt

variable {r : Rebuilt} {entries : List (Key × List Part)}

theorem Covers.add (h : r.Covers f entries) (hkey : key ∉ entries.map (·.1)) :
    (r.add f (key, parts)).Covers f (entries ++ [(key, parts)]) := by
  have horphans : ∀ zone, zone ∈ r.orphans ++ (adopt parts).orphans ↔
      ∃ key' parts', (key', parts') ∈ entries ++ [(key, parts)] ∧ zone ∈ (adopt parts').orphans := by
    intro zone
    simp only [mem_append, mem_singleton, Prod.mk.injEq, h.orphans zone]
    constructor
    · rintro (⟨key', parts', hmem, hzone⟩ | hzone)
      · exact ⟨key', parts', .inl hmem, hzone⟩
      · exact ⟨key, parts, .inr ⟨rfl, rfl⟩, hzone⟩
    · rintro ⟨key', parts', hmem | ⟨rfl, rfl⟩, hzone⟩
      · exact .inl ⟨key', parts', hmem, hzone⟩
      · exact .inr hzone
  unfold Rebuilt.add
  split
  · next hnil =>
    refine ⟨h.listed, fun ref seg hseg ↦ ?_, fun key' parts' hmem hne ↦ ?_, horphans⟩
    · obtain ⟨hlt, hlisted, parts', hmem, hne, heq⟩ := h.objects ref seg hseg
      exact ⟨hlt, hlisted, parts', mem_append_left _ hmem, hne, heq⟩
    · rcases mem_append.1 hmem with hmem | hmem
      · exact h.entered key' parts' hmem hne
      · obtain ⟨rfl, rfl⟩ := Prod.mk.inj (mem_singleton.1 hmem)
        exact absurd hnil hne
  · next hne =>
    have hold : ∀ ref seg, r.heap.lookup ref = some seg → ref ≠ r.next ∧ seg.key ≠ key := by
      intro ref seg hseg
      obtain ⟨hlt, -, _, hmem, -⟩ := h.objects ref seg hseg
      exact ⟨hlt.ne, fun heq ↦ hkey (heq ▸ mem_map_of_mem (f := (·.1)) hmem)⟩
    refine ⟨fun key' ref href ↦ ?_, fun ref seg hseg ↦ ?_, fun key' parts' hmem hne' ↦ ?_, horphans⟩
    · rw [lookup_insert_eq]
      rcases of_lookup_insert href with ⟨rfl, rfl⟩ | ⟨-, href⟩
      · exact ⟨_, if_pos rfl, rfl⟩
      · obtain ⟨seg, hseg, hsegkey⟩ := h.listed key' ref href
        exact ⟨seg, (if_neg (hold ref seg hseg).1).trans hseg, hsegkey⟩
    · rw [lookup_insert_eq]
      rcases of_lookup_insert hseg with ⟨rfl, rfl⟩ | ⟨-, hseg⟩
      · exact ⟨Nat.lt_succ_self _, if_pos rfl, parts, mem_append_right _ (mem_singleton.2 rfl), hne, rfl⟩
      · obtain ⟨hlt, hlisted, parts', hmem, hne', heq⟩ := h.objects ref seg hseg
        exact ⟨hlt.trans (Nat.lt_succ_self _), (if_neg (hold ref seg hseg).2).trans hlisted, parts',
          mem_append_left _ hmem, hne', heq⟩
    · simp only [lookup_insert_eq]
      rcases mem_append.1 hmem with hmem | hmem
      · obtain ⟨ref, href, hseg⟩ := h.entered key' parts' hmem hne'
        have hkey' : key' ≠ key := fun heq ↦ hkey (heq ▸ mem_map_of_mem (f := (·.1)) hmem)
        exact ⟨ref, (if_neg hkey').trans href, (if_neg (hold ref _ hseg).1).trans hseg⟩
      · obtain ⟨rfl, rfl⟩ := Prod.mk.inj (mem_singleton.1 hmem)
        exact ⟨r.next, if_pos rfl, if_pos rfl⟩

theorem Covers.foldl (h : r.Covers f entries) {rest : List (Key × List Part)}
    (hnodup : ((entries ++ rest).map (·.1)).Nodup) : (rest.foldl (Rebuilt.add f) r).Covers f (entries ++ rest) := by
  induction rest generalizing r entries with
  | nil => simpa using h
  | cons entry _ ih =>
    obtain ⟨key, _⟩ := entry
    rw [foldl_cons]
    have hkey : key ∉ entries.map (·.1) := by
      intro hmem
      rw [map_append, map_cons, nodup_append] at hnodup
      exact hnodup.2.2 key hmem key mem_cons_self rfl
    rw [append_cons]
    refine ih (h.add hkey) ?_
    rwa [← append_cons]

end Rebuilt

theorem rebuild_covers : (rebuild f i).Covers f (found f i).toList := by
  have hempty : Rebuilt.Covers f [] ⟨∅, ∅, 0, []⟩ :=
    ⟨fun key ref h ↦ by simp at h, fun _ _ h ↦ by simp at h, fun _ _ h ↦ by simp at h,
      fun _ ↦ by simp⟩
  refine hempty.foldl ?_
  rw [nil_append]
  exact nodup_toList (found f i)

theorem eq_partsOf (h : (key, parts) ∈ (found f i).toList) : parts = partsOf f i key := by
  have hlookup := mem_toList.1 h
  rw [lookup_found] at hlookup
  split_ifs at hlookup
  exact (some.inj hlookup).symm

/-- The objects that the scan makes are those of the segments it finds zones of. -/
theorem rebuild_objects {ref : Nat} {seg : SegInner} (h : (rebuild f i).heap.lookup ref = some seg) :
    ref < (rebuild f i).next ∧ (rebuild f i).segments.lookup seg.key = some ref ∧
      seg = (adopt (partsOf f i seg.key)).segment f seg.key := by
  obtain ⟨hlt, hlisted, _, hmem, -, heq⟩ := rebuild_covers.objects ref seg h
  exact ⟨hlt, hlisted, eq_partsOf hmem ▸ heq⟩

/-- A zone that the scan takes or leaves over is named by its header. -/
theorem partOf_of_mem_adopt (h : zone ∈ (adopt (partsOf f i key)).list ++ (adopt (partsOf f i key)).orphans) :
    zone < f.label.zoneCount ∧ ∃ p, partOf f i zone = some (key, p) := by
  obtain ⟨p, hp, rfl⟩ := mem_map.1 ((adopt_perm (partsOf f i key)).mem_iff.1 h)
  obtain ⟨hlt, hpart⟩ := mem_partsOf.1 hp
  exact ⟨hlt, p, hpart⟩

/-- A zone that the scan takes is not an orphan of any segment. -/
theorem not_mem_orphans (h : zone ∈ (adopt (partsOf f i key)).list) : zone ∉ (rebuild f i).orphans := by
  intro horphan
  obtain ⟨key', _, hmem, hzone⟩ := (rebuild_covers.orphans zone).1 horphan
  rw [eq_partsOf hmem] at hzone
  obtain ⟨-, p, hp⟩ := partOf_of_mem_adopt (mem_append_left _ h)
  obtain ⟨-, _, hp'⟩ := partOf_of_mem_adopt (mem_append_right _ hzone)
  obtain rfl : key = key' := (Prod.mk.inj (some.inj (hp.symm.trans hp'))).1
  have hnodup := (adopt_perm (partsOf f i key)).nodup_iff.2 (nodup_partsOf key)
  exact (nodup_append.1 hnodup).2.2 zone h zone hzone rfl

/-! ## The zone map -/

/-- The zone map that the scan ends with, when it freed these of the unfinished zones and of the
orphans. -/
def scanMap (f : Format) (i : Image) (freed freed' : List Nat) : List Zone :=
  setZones freed' .clean (setZones (rebuild f i).orphans .freeing
    (setZones freed .clean ((List.range f.label.zoneCount).map (classify f i))))

theorem readZoneHeader_of_partOf (h : partOf f i zone = some (key, p)) :
    ∃ header, readZoneHeader f i zone = some header ∧ header.state = .owned ∧
      key = (header.kind, header.segmentId) ∧ p = (header.ordinal, zone, header.writtenLen) := by
  obtain ⟨header, hheader, hpart⟩ := bind_eq_some_iff.1 h
  split at hpart
  · next hstate =>
    cases hpart
    exact ⟨header, hheader, hstate, rfl, rfl⟩
  · simp at hpart

theorem mem_unfinished : zone ∈ unfinished f i ↔ zone < f.label.zoneCount ∧
      ∃ header, readZoneHeader f i zone = some header ∧ header.state = .freeing := by
  simp [unfinished, Option.any_eq_true]

/-- A zone that the scan takes is owned in the map. -/
theorem scanMap_of_mem (hfreed : freed ⊆ unfinished f i) (hfreed' : freed' ⊆ (rebuild f i).orphans)
    (h : zone ∈ (adopt (partsOf f i key)).list) :
    (scanMap f i freed freed')[zone]? = some .owned := by
  obtain ⟨hlt, p, hp⟩ := partOf_of_mem_adopt (mem_append_left _ h)
  obtain ⟨_, hheader, hstate, -, -⟩ := readZoneHeader_of_partOf hp
  have hnot : zone ∉ freed := by
    intro hmem
    obtain ⟨-, _, hheader', hstate'⟩ := mem_unfinished.1 (hfreed hmem)
    cases hheader.symm.trans hheader'
    simp [hstate] at hstate'
  have horphan := not_mem_orphans h
  have hclassify : classify f i zone = .owned := by simp [classify, hheader, hstate]
  simp only [scanMap, getElem?_setZones, if_neg hnot, if_neg horphan, if_neg fun hmem ↦ horphan (hfreed' hmem)]
  simp [hlt, hclassify]

/-- The memory that a scan ends with is well formed. -/
theorem rebuild_owns (hfreed : freed ⊆ unfinished f i) (hfreed' : freed' ⊆ (rebuild f i).orphans) :
    Memory.Owns f
      { zones := scanMap f i freed freed', segments := (rebuild f i).segments, heap := (rebuild f i).heap
        handles := [], next := (rebuild f i).next, allocationBlocked := false } := by
  have hzones : ∀ ref seg, (rebuild f i).heap.lookup ref = some seg →
      seg.zones = (adopt (partsOf f i seg.key)).list := by
    intro _ _ hseg
    rw [(rebuild_objects hseg).2.2]
    rfl
  refine ⟨by simp [scanMap], fun ref seg hseg ↦ ?_, ?_, ?_, fun ref seg hseg ↦ (rebuild_objects hseg).1,
    rebuild_covers.listed, by simp⟩
  · rw [hzones ref seg hseg]
    exact (nodup_append.1 ((adopt_perm _).nodup_iff.2 (nodup_partsOf seg.key))).1
  · rintro ref _ ⟨seg, hseg, hzone⟩
    exact .inl (scanMap_of_mem hfreed hfreed' (hzones ref seg hseg ▸ hzone))
  · rintro ref ref' _ ⟨seg, hseg, hzone⟩ ⟨seg', hseg', hzone'⟩
    rw [hzones ref seg hseg] at hzone
    rw [hzones ref' seg' hseg'] at hzone'
    obtain ⟨-, p, hp⟩ := partOf_of_mem_adopt (mem_append_left _ hzone)
    obtain ⟨-, _, hp'⟩ := partOf_of_mem_adopt (mem_append_left _ hzone')
    have hkey : seg.key = seg'.key := (Prod.mk.inj (some.inj (hp.symm.trans hp'))).1
    have href := (rebuild_objects hseg).2.1
    rw [hkey, (rebuild_objects hseg').2.1] at href
    exact (some.inj href).symm

/-- A scan that succeeds leaves a well formed memory. -/
theorem scanZones_keeps :
    Ensures anyAnswer (fun _ ↦ True) (scanZones f) (fun _ ↦ Kept f) (fun _ _ ↦ True) fun _ ↦ True := by
  refine .read_bind fun d _ ↦ .weaken ?_ fun _ _ ↦ trivial
  refine .bind ((onDisk_frame (zeroAndFree_subset (unfinished f (d.disk.visible Image.apply)))
    fun _ ↦ True).mono (fun _ _ ↦ ⟨trivial, trivial⟩) (fun _ _ h ↦ h.1) (fun _ _ _ ↦ trivial)
      fun _ _ ↦ trivial) fun _ ↦ .of_forall fun _ hfreed ↦ .weaken ?_ fun _ _ ↦ trivial
  refine .bind .any fun _ ↦ .bind .any fun _ ↦ ?_
  refine .bind ((onDisk_frame (zeroAndFree_subset (rebuild f (d.disk.visible Image.apply)).orphans)
    fun _ ↦ True).mono (fun _ _ ↦ ⟨trivial, trivial⟩) (fun _ _ h ↦ h.1) (fun _ _ _ ↦ trivial)
      fun _ _ ↦ trivial) fun _ ↦ .of_forall fun _ hfreed' ↦ .weaken ?_ fun _ _ ↦ trivial
  refine .bind .any fun _ ↦ onMemory_ensures fun _ _ ↦ rebuild_owns hfreed hfreed'

end Lchfs.Zones
