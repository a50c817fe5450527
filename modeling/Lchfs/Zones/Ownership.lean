import Lchfs.Zones.Device

/-!
# Who owns a zone

In memory a zone belongs to at most one segment object, and the zones of an object are
never in a state in which they could be claimed again. This holds through every operation,
whichever of its calls fail.
-/

namespace Lchfs.Zones

open Lchfs.Library
open List Option Table

variable {f : Format} {was : Zone} {map : List Zone}

/-! ## The zone map -/

@[simp]
theorem length_setZones (zones : List Nat) (state : Zone) (map : List Zone) :
    (setZones zones state map).length = map.length := by
  induction zones generalizing map with
  | nil => rfl
  | cons zone zones ih =>
    change (setZones zones state (map.set zone state)).length = map.length
    rw [ih, length_set]

theorem getElem?_setZones (zones : List Nat) (state : Zone) (map : List Zone) (z : Nat) :
    (setZones zones state map)[z]? = if z ∈ zones then map[z]?.map fun _ ↦ state else map[z]? := by
  induction zones generalizing map with
  | nil => rfl
  | cons zone zones ih =>
    change (setZones zones state (map.set zone state))[z]? = _
    rw [ih, getElem?_set]
    by_cases hz : zone = z
    · subst hz
      by_cases hlen : zone < map.length <;> simp [hlen]
    · simp [hz, Ne.symm hz]

theorem getElem?_set_ne_or (map : List Zone) (zone z : Nat) (state : Zone) :
    (map.set zone state)[z]? = map[z]? ∨ z = zone ∧ (map.set zone state)[z]? = some state := by
  rw [getElem?_set]
  by_cases hz : zone = z
  · subst hz
    by_cases hlen : zone < map.length <;> simp [hlen]
  · simp [hz]

theorem pickZone_eq {zone : Nat} (h : pickZone map = some (zone, was)) :
    map[zone]? = some was ∧ (was = .clean ∨ was = .unknown) := by
  unfold pickZone at h
  split at h
  · next hfind =>
    cases h
    obtain ⟨hlt, hclean, -⟩ := findIdx?_eq_some_iff_getElem.1 hfind
    exact ⟨List.getElem?_eq_some_iff.2 ⟨hlt, by simpa using hclean⟩, .inl rfl⟩
  · obtain ⟨_, hfind, heq⟩ := map_eq_some_iff.1 h
    cases heq
    obtain ⟨hlt, hunknown, -⟩ := findIdx?_eq_some_iff_getElem.1 hfind
    exact ⟨List.getElem?_eq_some_iff.2 ⟨hlt, by simpa using hunknown⟩, .inr rfl⟩

/-! ## Segment objects and their zones -/

namespace Memory

/-- The zone is one of the segment object's. -/
def Holds (m : Memory) (ref zone : Nat) : Prop :=
  ∃ seg, m.heap.lookup ref = some seg ∧ zone ∈ seg.zones

/-- Zones belong to one segment object and are not claimable; references point to objects. -/
structure Owns (f : Format) (m : Memory) : Prop where
  length : m.zones.length = f.label.zoneCount
  nodup : ∀ ref seg, m.heap.lookup ref = some seg → seg.zones.Nodup
  taken : ∀ ref zone, m.Holds ref zone → m.zones[zone]? = some .owned ∨ m.zones[zone]? = some .freeing
  unique : ∀ ref ref' zone, m.Holds ref zone → m.Holds ref' zone → ref = ref'
  fresh : ∀ ref seg, m.heap.lookup ref = some seg → ref < m.next
  listed : ∀ key ref, m.segments.lookup key = some ref →
    ∃ seg, m.heap.lookup ref = some seg ∧ seg.key = key
  opened : ∀ ref ∈ m.handles, ∃ seg, m.heap.lookup ref = some seg

/-- A claimed zone that no segment object has yet. -/
def Spare (m : Memory) (zone : Nat) : Prop :=
  m.zones[zone]? = some .owned ∧ ∀ ref, ¬m.Holds ref zone

variable {m : Memory}
variable {ref zone : Nat} {ref' : Nat} {g : SegInner → SegInner}

theorem Owns.zone_lt (h : m.Owns f) (hholds : m.Holds ref zone) : zone < f.label.zoneCount := by
  rw [← h.length]
  rcases h.taken ref zone hholds with htaken | htaken <;>
    exact (List.getElem?_eq_some_iff.1 htaken).1

/-- A claimable zone is nobody's. -/
theorem Owns.not_holds (h : m.Owns f) (hzone : m.zones[zone]? = some was)
    (hwas : was = .clean ∨ was = .unknown) : ¬m.Holds ref zone := by
  intro hholds
  rcases hwas with rfl | rfl <;> rcases h.taken ref zone hholds with htaken | htaken <;>
    simp [hzone] at htaken

/-- A new zone map of the same length that keeps the held zones from being claimed. -/
theorem Owns.zones (h : m.Owns f) (hlen : map.length = m.zones.length)
    (htaken : ∀ ref zone, m.Holds ref zone → map[zone]? = some .owned ∨ map[zone]? = some .freeing) :
    Owns f { m with zones := map } :=
  ⟨hlen.trans h.length, h.nodup, htaken, h.unique, h.fresh, h.listed, h.opened⟩

/-- Other references to the same objects. -/
theorem Owns.refer (h : m.Owns f) {segments : Table Key Nat} {handles : List Nat} {blocked : Bool}
    (hlisted : ∀ key ref, segments.lookup key = some ref → ∃ seg, m.heap.lookup ref = some seg ∧ seg.key = key)
    (hopened : ∀ ref ∈ handles, ∃ seg, m.heap.lookup ref = some seg) :
    Owns f { m with segments, handles, allocationBlocked := blocked } :=
  ⟨h.length, h.nodup, h.taken, h.unique, h.fresh, hlisted, hopened⟩

theorem holds_modify : Holds { m with heap := modify ref g m.heap } ref' zone ↔
      ∃ seg, m.heap.lookup ref' = some seg ∧ zone ∈ (if ref' = ref then g seg else seg).zones := by
  simp only [Holds, lookup_modify]
  by_cases href : ref' = ref
  · simp [href]
  · simp [href]

/-- One object takes a spare zone, and the others hold what they held. -/
theorem Owns.take (h : m.Owns f) {m' : Memory}
    (hholds : ∀ ref' z, m'.Holds ref' z → m.Holds ref' z ∨ m.Spare z ∧ ref' = ref) (hzones : m'.zones = m.zones) :
    (∀ ref zone, m'.Holds ref zone → m'.zones[zone]? = some .owned ∨ m'.zones[zone]? = some .freeing) ∧
      ∀ ref ref' zone, m'.Holds ref zone → m'.Holds ref' zone → ref = ref' := by
  refine ⟨fun ref' z hz ↦ ?_, fun ref' ref'' z hz hz' ↦ ?_⟩
  · rw [hzones]
    rcases hholds ref' z hz with hz | ⟨hspare, -⟩
    · exact h.taken ref' z hz
    · exact .inl hspare.1
  · rcases hholds ref' z hz with hbefore | ⟨hspare, heq⟩ <;>
      rcases hholds ref'' z hz' with hbefore' | ⟨hspare', heq'⟩
    · exact h.unique ref' ref'' z hbefore hbefore'
    · exact absurd hbefore (hspare'.2 ref')
    · exact absurd hbefore' (hspare.2 ref'')
    · exact heq.trans heq'.symm

/-- An object changes, and keeps its key; its zones are as before or one more that was spare. -/
theorem Owns.modify (h : m.Owns f) (hkey : ∀ seg, (g seg).key = seg.key)
    (hzones : (∀ seg, (g seg).zones = seg.zones) ∨
      ∃ zone, m.Spare zone ∧ ∀ seg, (g seg).zones = seg.zones ++ [zone]) :
    Owns f { m with heap := modify ref g m.heap } := by
  -- what an object holds afterwards, it held before, or it is the spare zone and the object `ref`
  have hholds : ∀ ref' z, Holds { m with heap := Table.modify ref g m.heap } ref' z →
      m.Holds ref' z ∨ m.Spare z ∧ ref' = ref := by
    intro _ z hz
    obtain ⟨seg, hseg, hmem⟩ := holds_modify.1 hz
    split_ifs at hmem with href
    · rcases hzones with hsame | ⟨_, hspare, hmore⟩
      · exact .inl ⟨seg, hseg, hsame seg ▸ hmem⟩
      · rw [hmore seg, mem_append, mem_singleton] at hmem
        rcases hmem with hmem | rfl
        · exact .inl ⟨seg, hseg, hmem⟩
        · exact .inr ⟨hspare, href⟩
    · exact .inl ⟨seg, hseg, hmem⟩
  have hlookup : ∀ ref' seg', (Table.modify ref g m.heap).lookup ref' = some seg' →
      ∃ seg, m.heap.lookup ref' = some seg ∧ seg' = if ref' = ref then g seg else seg := by
    intro _ seg' hseg
    rw [lookup_modify] at hseg
    split_ifs at hseg with href
    · obtain ⟨seg, hbefore, rfl⟩ := map_eq_some_iff.1 hseg
      exact ⟨seg, hbefore, by rw [if_pos href]⟩
    · exact ⟨seg', hseg, by rw [if_neg href]⟩
  have hkept : ∀ ref' seg, m.heap.lookup ref' = some seg →
      (Table.modify ref g m.heap).lookup ref' = some (if ref' = ref then g seg else seg) := by
    intro _ _ hseg
    rw [lookup_modify, hseg]
    split_ifs <;> rfl
  obtain ⟨htaken, hunique⟩ := h.take hholds rfl
  refine ⟨h.length, ?_, htaken, hunique, ?_, ?_, ?_⟩
  · intro ref' seg' hseg'
    obtain ⟨seg, hseg, rfl⟩ := hlookup ref' seg' hseg'
    have hnodup := h.nodup ref' seg hseg
    split_ifs
    · rcases hzones with hsame | ⟨zone, hspare, hmore⟩
      · rw [hsame]
        exact hnodup
      · rw [hmore]
        exact hnodup.append (nodup_singleton zone) fun z hz hz' ↦
          hspare.2 ref' ⟨seg, hseg, (mem_singleton.1 hz') ▸ hz⟩
    · exact hnodup
  · intro ref' seg' hseg'
    obtain ⟨seg, hseg, -⟩ := hlookup ref' seg' hseg'
    exact h.fresh ref' seg hseg
  · intro key ref' hkeyed
    obtain ⟨seg, hseg, rfl⟩ := h.listed key ref' hkeyed
    refine ⟨_, hkept ref' seg hseg, ?_⟩
    split_ifs
    · exact hkey seg
    · rfl
  · intro ref' href'
    obtain ⟨seg, hseg⟩ := h.opened ref' href'
    exact ⟨_, hkept ref' seg hseg⟩

/-- The zones are claimed, spare or not, whatever the map says of them. -/
theorem Owns.claim (h : m.Owns f) (hzone : m.zones[zone]? = some was)
    (hwas : was = .clean ∨ was = .unknown) : Owns f { m with zones := m.zones.set zone .owned } ∧
      Spare { m with zones := m.zones.set zone .owned } zone := by
  have hlt := (List.getElem?_eq_some_iff.1 hzone).1
  refine ⟨h.zones (List.length_set) fun ref z hholds ↦ ?_, ?_, fun ref ↦ h.not_holds hzone hwas⟩
  · rcases getElem?_set_ne_or m.zones zone z .owned with heq | ⟨-, heq⟩
    · rw [heq]
      exact h.taken ref z hholds
    · exact .inl heq
  · exact List.getElem?_set_self hlt

/-- A spare zone goes back to what it was. -/
theorem Owns.unclaim (h : m.Owns f) (hspare : m.Spare zone) (was : Zone) :
    Owns f { m with zones := m.zones.set zone was } := by
  refine h.zones length_set fun ref z hholds ↦ ?_
  rcases getElem?_set_ne_or m.zones zone z was with heq | ⟨rfl, -⟩
  · rw [heq]
    exact h.taken ref z hholds
  · exact absurd hholds (hspare.2 ref)

/-- Zones that nobody holds are given back. -/
theorem Owns.giveBack (h : m.Owns f) {freed : List Nat} (hfreed : ∀ zone ∈ freed, ∀ ref, ¬m.Holds ref zone) :
    Owns f { m with zones := setZones freed .clean m.zones } := by
  refine h.zones (length_setZones freed .clean m.zones) fun ref z hholds ↦ ?_
  rw [getElem?_setZones, if_neg fun hmem ↦ hfreed z hmem ref hholds]
  exact h.taken ref z hholds

theorem Owns.setFreeing (h : m.Owns f) (zones : List Nat) :
    Owns f { m with zones := setZones zones .freeing m.zones } := by
  refine h.zones (length_setZones zones .freeing m.zones) fun ref z hholds ↦ ?_
  rw [getElem?_setZones]
  rcases h.taken ref z hholds with htaken | htaken <;> split_ifs <;> simp [htaken]

theorem refers_eq_false (h : m.refers ref = false) : ref ∉ m.handles ∧ ∀ key, m.segments.lookup key ≠ some ref := by
  simp only [refers, Bool.or_eq_false_iff, List.contains_eq_mem, decide_eq_false_iff_not,
    List.any_eq_false] at h
  refine ⟨h.1, fun key hkey ↦ ?_⟩
  have hne := h.2 (key, ref) (Table.mem_toList.2 hkey)
  simp at hne

theorem holds_erase :
    Holds { m with heap := m.heap.erase ref } ref' zone ↔ ref' ≠ ref ∧ m.Holds ref' zone := by
  simp only [Holds, lookup_erase_eq]
  by_cases href : ref' = ref <;> simp [href]

/-- An object without references is dropped; its zones are then nobody's. -/
theorem Owns.dropObject (h : m.Owns f) (href : m.refers ref = false) :
    Owns f { m with heap := m.heap.erase ref } ∧
      ∀ zone, m.Holds ref zone → ∀ ref', ¬Holds { m with heap := m.heap.erase ref } ref' zone := by
  obtain ⟨hhandles, hsegments⟩ := refers_eq_false href
  have hlookup : ∀ ref' seg, (m.heap.erase ref).lookup ref' = some seg → m.heap.lookup ref' = some seg :=
    fun _ _ hseg ↦ (of_lookup_erase hseg).2
  have hkept : ∀ ref' seg, ref' ≠ ref → m.heap.lookup ref' = some seg →
      (m.heap.erase ref).lookup ref' = some seg := by
    intro _ _ hne hseg
    rw [lookup_erase_eq, if_neg hne]
    exact hseg
  refine ⟨⟨h.length, fun ref' seg hseg ↦ h.nodup ref' seg (hlookup ref' seg hseg),
    fun ref' z hz ↦ h.taken ref' z (holds_erase.1 hz).2,
    fun ref' ref'' z hz hz' ↦ h.unique ref' ref'' z (holds_erase.1 hz).2 (holds_erase.1 hz').2,
    fun ref' seg hseg ↦ h.fresh ref' seg (hlookup ref' seg hseg), ?_, ?_⟩, ?_⟩
  · intro key ref' hkey
    obtain ⟨seg, hseg, hseg'⟩ := h.listed key ref' hkey
    exact ⟨seg, hkept ref' seg (fun heq ↦ hsegments key (heq ▸ hkey)) hseg, hseg'⟩
  · intro ref' href'
    obtain ⟨seg, hseg⟩ := h.opened ref' href'
    exact ⟨seg, hkept ref' seg (fun heq ↦ hhandles (heq ▸ href')) hseg⟩
  · intro zone hzone ref' hholds
    obtain ⟨hne, hholds⟩ := holds_erase.1 hholds
    exact hne (h.unique ref' ref zone hholds hzone)

theorem Owns.enter (h : m.Owns f) {key : Key} (hspare : m.Spare zone) : Owns f (m.enter key zone) := by
  have hlookup : ∀ ref seg, m.heap.lookup ref = some seg → ((m.enter key zone).heap).lookup ref = some seg := by
    intro ref seg hseg
    rw [Memory.enter, lookup_insert_eq, if_neg (h.fresh ref seg hseg).ne]
    exact hseg
  have hnew : (m.enter key zone).heap.lookup m.next =
      some { key, zones := [zone], len := 0, syncedLen := 0, removed := false } := by
    rw [Memory.enter, lookup_insert_eq, if_pos rfl]
  have hholds : ∀ ref z, (m.enter key zone).Holds ref z → m.Holds ref z ∨ m.Spare z ∧ ref = m.next := by
    rintro _ z ⟨seg, hseg, hz⟩
    rcases of_lookup_insert hseg with ⟨href, rfl⟩ | ⟨-, hseg⟩
    · exact .inr ⟨mem_singleton.1 hz ▸ hspare, href⟩
    · exact .inl ⟨seg, hseg, hz⟩
  obtain ⟨htaken, hunique⟩ := h.take hholds rfl
  refine ⟨h.length, ?_, htaken, hunique, ?_, ?_, ?_⟩
  · intro ref seg hseg
    rcases of_lookup_insert hseg with ⟨-, rfl⟩ | ⟨-, hseg⟩
    · exact nodup_singleton zone
    · exact h.nodup ref seg hseg
  · intro ref seg hseg
    change ref < m.next + 1
    rcases of_lookup_insert hseg with ⟨rfl, -⟩ | ⟨-, hseg⟩
    · exact Nat.lt_succ_self _
    · exact (h.fresh ref seg hseg).trans (Nat.lt_succ_self _)
  · intro key' ref hkey
    rcases of_lookup_insert hkey with ⟨rfl, rfl⟩ | ⟨-, hkey⟩
    · exact ⟨_, hnew, rfl⟩
    · obtain ⟨seg, hseg, hseg'⟩ := h.listed key' ref hkey
      exact ⟨seg, hlookup ref seg hseg, hseg'⟩
  · intro ref href
    rcases mem_cons.1 href with rfl | href
    · exact ⟨_, hnew⟩
    · obtain ⟨seg, hseg⟩ := h.opened ref href
      exact ⟨seg, hlookup ref seg hseg⟩

end Memory

/-! ## The programs -/

section Programs

/-- No condition on the answers of the environment. -/
def anyAnswer : Answer → Prop := fun _ ↦ True

theorem zeroEach_subset (zones : List Nat) :
    Ensures anyAnswer (fun _ ↦ True) (zeroEach f zones) (fun zeroed _ ↦ zeroed ⊆ zones)
      (fun _ _ ↦ True) fun _ ↦ True := by
  induction zones with
  | nil => exact .pure fun _ _ ↦ Subset.refl _
  | cons zone _ ih =>
    refine .bind .any fun result ↦ .bind (ih.weaken fun _ _ ↦ trivial) fun _ ↦ ?_
    cases result with
    | ok => exact .pure fun _ hsub ↦ cons_subset_cons zone hsub
    | error => exact .pure fun _ hsub ↦ subset_cons_of_subset zone hsub

theorem zeroAndFree_subset (zones : List Nat) :
    Ensures anyAnswer (fun _ ↦ True) (zeroAndFree f zones) (fun freed _ ↦ freed ⊆ zones)
      (fun _ _ ↦ True) fun _ ↦ True := by
  refine (zeroEach_subset zones).bind fun _ ↦ ?_
  split
  · exact .pure fun _ hsub ↦ hsub
  · refine .of_forall fun _ hsub ↦ ?_
    refine .bind .any fun _ ↦ .bind .any fun _ ↦ .pure fun _ _ ↦ hsub

/-- The memory is well formed. -/
abbrev Kept (f : Format) (d : Device) : Prop := d.memory.Owns f

theorem onDisk_keeps {α : Type} (m : DiskIo α) (P : Memory → Prop) :
    Keeps anyAnswer (fun d ↦ P d.memory) (onDisk m) :=
  (onDisk_frame (.any : Ensures anyAnswer (fun _ ↦ True) m _ _ _) P).mono (fun _ h ↦ ⟨trivial, h⟩) (fun _ _ h ↦ h.2) (fun _ _ h ↦ h.2) fun _ h ↦ h.2

/-- The memory is well formed, and the disk is as `I` says. -/
abbrev KeptWith (f : Format) (I : Disk → Prop) (d : Device) : Prop := I d.disk ∧ d.memory.Owns f

theorem claimZone_keeps {I : Disk → Prop} {key : Key} {ordinal : Nat}
    (hI : ∀ zone was, Keeps anyAnswer I (takeZone f key ordinal zone was)) :
    Ensures anyAnswer (KeptWith f I) (claimZone f key ordinal)
      (fun zone d ↦ I d.disk ∧ d.memory.Owns f ∧ d.memory.Spare zone) (fun _ ↦ KeptWith f I) (KeptWith f I) := by
  refine .read_bind fun d hd ↦ ?_
  split
  · exact .raise fun _ heq ↦ heq ▸ hd
  · split
    · exact .raise fun _ heq ↦ heq ▸ hd
    · next zone was hpick =>
      obtain ⟨hzone, hwas⟩ := pickZone_eq hpick
      have hset : Ensures anyAnswer (· = d)
          (onMemory fun m ↦ { m with zones := m.zones.set zone .owned })
          (fun _ d ↦ I d.disk ∧ d.memory.Owns f ∧ d.memory.Spare zone) (fun _ ↦ KeptWith f I) (KeptWith f I) :=
        onMemory_ensures fun _ heq ↦ heq ▸ ⟨hd.1, hd.2.claim hzone hwas⟩
      refine hset.bind fun _ ↦ .bind (Ensures.attempt ((onDisk_frame (hI zone was) fun m ↦ m.Owns f ∧ m.Spare zone).mono
        (fun _ h ↦ h) (fun _ _ h ↦ h) (fun _ _ h ↦ h) fun _ h ↦ ⟨h.1, h.2.1⟩)) fun result ↦ ?_
      cases result with
      | ok => exact .pure fun _ h ↦ h
      | error =>
        refine .bind (onMemory_ensures (Q := fun _ ↦ KeptWith f I) fun _ h ↦ ⟨h.1, h.2.1.unclaim h.2.2 was⟩) fun _ ↦ ?_
        exact .raise fun _ h ↦ h

theorem release_keeps (zones : List Nat) :
    Ensures anyAnswer (fun d ↦ d.memory.Owns f ∧ ∀ zone ∈ zones, ∀ ref, ¬d.memory.Holds ref zone)
      (release f zones) (fun _ ↦ Kept f) (fun _ ↦ Kept f) (Kept f) := by
  refine .bind (Ensures.attempt ((onDisk_frame (zeroAndFree_subset zones) fun m ↦
    m.Owns f ∧ ∀ zone ∈ zones, ∀ ref, ¬m.Holds ref zone).mono (fun _ h ↦ ⟨trivial, h⟩)
      (fun _ _ h ↦ h) (fun _ _ h ↦ h.2.1) fun _ h ↦ h.2.1)) fun result ↦ ?_
  cases result with
  | ok =>
    exact onMemory_ensures fun d h ↦ h.2.1.giveBack fun zone hzone ↦ h.2.2 zone (h.1 hzone)
  | error => exact .pure fun _ h ↦ h

theorem dropRef_keeps (ref : Nat) : Keeps anyAnswer (Kept f) (dropRef f ref) := by
  refine .read_bind fun d hd ↦ ?_
  split
  · exact .pure fun _ heq ↦ heq ▸ hd
  · next hrefers =>
    obtain ⟨howns, hnobody⟩ := hd.dropObject (Bool.eq_false_iff.2 hrefers)
    split
    · exact .pure fun _ heq ↦ heq ▸ hd
    · next seg hseg =>
      have herase : Ensures anyAnswer (· = d) (onMemory fun m ↦ { m with heap := m.heap.erase ref })
          (fun _ d ↦ d.memory.Owns f ∧ ∀ zone ∈ seg.zones, ∀ ref, ¬d.memory.Holds ref zone)
          (fun _ ↦ Kept f) (Kept f) :=
        onMemory_ensures fun _ heq ↦ heq ▸ ⟨howns, fun zone hzone ↦ hnobody zone ⟨seg, hseg, hzone⟩⟩
      refine herase.bind fun _ ↦ ?_
      split
      · exact release_keeps seg.zones
      · exact .pure fun _ h ↦ h.1

/-- Marking objects as removed changes no zone list. -/
theorem Memory.Owns.markAll {m : Memory} (h : m.Owns f) (refs : List Nat) : Memory.Owns f { m with
        heap := refs.foldl (fun heap ref ↦ Table.modify ref (fun seg ↦ { seg with removed := true }) heap)
          m.heap } := by
  induction refs generalizing m with
  | nil => exact h
  | cons ref _ ih =>
    exact ih (h.modify (fun _ ↦ rfl) (.inl fun _ ↦ rfl) : Memory.Owns f
      { m with heap := Table.modify ref (fun seg ↦ { seg with removed := true }) m.heap })

theorem markRemoved_keeps (refs : List Nat) : Keeps anyAnswer (Kept f) (markRemoved f refs) := by
  unfold markRemoved
  split
  · exact .pure fun _ h ↦ h
  · refine .read_keeps fun _ _ ↦ ?_
    refine .bind (onDisk_keeps _ (Memory.Owns f)) fun _ ↦ .bind (onDisk_keeps _ (Memory.Owns f)) fun _ ↦
      .bind (onDisk_keeps _ (Memory.Owns f)) fun _ ↦ .bind (onDisk_keeps _ (Memory.Owns f)) fun _ ↦ ?_
    exact onMemory_ensures fun d hd ↦ (hd.setFreeing _).markAll refs

/-- An error is passed on. -/
theorem rethrow_keeps {A : Answer → Prop} {I : Device → Prop} (result : Except ErrorKind Unit) :
    Keeps A I (match result with
      | .ok _ => (pure () : DeviceIo Unit)
      | .error e => Faulty.raise e) := by
  cases result with
  | ok => exact .pure fun _ h ↦ h
  | error => exact .raise fun _ h ↦ h

theorem removeSegment_keeps (key : Key) : Keeps anyAnswer (Kept f) (removeSegment f key) := by
  refine .read_bind fun d hd ↦ ?_
  split
  · exact .raise fun _ heq ↦ heq ▸ hd
  · next ref _ =>
    have herase : Kept f { d with memory := { d.memory with segments := d.memory.segments.erase key } } := by
      exact hd.refer (fun key' ref' hkey' ↦ hd.listed key' ref' (of_lookup_erase hkey').2) hd.opened
    exact .bind (Q := fun _ ↦ Kept f) (onMemory_ensures fun _ heq ↦ heq ▸ herase) fun _ ↦
      .bind (markRemoved_keeps [ref]).attempt_keeps fun result ↦
        .bind (dropRef_keeps ref) fun _ ↦ rethrow_keeps result

theorem removeAllSegments_keeps : Keeps anyAnswer (Kept f) (removeAllSegments f) := by
  refine .read_bind fun d hd ↦ ?_
  have hempty : Kept f { d with memory := { d.memory with segments := ∅ } } := by
    refine hd.refer (fun _ ref hkey ↦ ?_) hd.opened
    simp at hkey
  exact .bind (Q := fun _ ↦ Kept f) (onMemory_ensures fun _ heq ↦ heq ▸ hempty) fun _ ↦
    .bind (markRemoved_keeps _).attempt_keeps fun result ↦
      .bind (.forM_keeps fun ref _ ↦ dropRef_keeps ref) fun _ ↦ rethrow_keeps result

theorem createSegment_keeps (key : Key) : Keeps anyAnswer (Kept f) (createSegment f key) := by
  have hclaim : Keeps anyAnswer (Kept f) (do
      let zone ← claimZone f key 0
      onMemory (Memory.enter key zone)) :=
    ((claimZone_keeps (I := fun _ ↦ True) fun _ _ ↦ .any).mono (fun _ h ↦ ⟨trivial, h⟩) (fun _ _ h ↦ h.2)
      (fun _ _ h ↦ h.2) fun _ h ↦ h.2).bind fun _ ↦ onMemory_ensures fun _ h ↦ h.1.enter h.2
  refine .bind (removeSegment_keeps key).attempt_keeps fun _ ↦ ?_
  split
  · exact hclaim
  · exact hclaim
  · exact .raise fun _ h ↦ h

theorem openSegment_keeps (key : Key) : Keeps anyAnswer (Kept f) (openSegment key) := by
  refine .read_bind fun d hd ↦ ?_
  split
  · exact .raise fun _ heq ↦ heq ▸ hd
  · next href =>
    refine onMemory_ensures fun _ heq ↦ heq ▸ hd.refer hd.listed fun ref' href' ↦ ?_
    rcases mem_cons.1 href' with rfl | href'
    · obtain ⟨seg, hseg, -⟩ := hd.listed key ref' href
      exact ⟨seg, hseg⟩
    · exact hd.opened ref' href'

theorem syncAll_keeps (ref : Nat) : Keeps anyAnswer (Kept f) (syncAll f ref) := by
  refine .read_keeps fun _ _ ↦ ?_
  split
  · exact .pure fun _ h ↦ h
  · refine .bind (onDisk_keeps _ (Memory.Owns f)) fun _ ↦ .bind (onDisk_keeps _ (Memory.Owns f)) fun _ ↦ ?_
    exact onMemory_ensures fun _ h ↦ h.modify (fun _ ↦ rfl) (.inl fun _ ↦ rfl)

theorem cloneHandle_keeps (ref : Nat) : Keeps anyAnswer (Kept f) (cloneHandle ref) := by
  refine .read_bind fun d hd ↦ ?_
  split
  · next href =>
    refine onMemory_ensures fun _ heq ↦ heq ▸ hd.refer hd.listed fun ref' href' ↦ ?_
    rcases mem_cons.1 href' with rfl | href'
    · exact hd.opened ref' href
    · exact hd.opened ref' href'
  · exact .pure fun _ heq ↦ heq ▸ hd

theorem dropHandle_keeps (ref : Nat) : Keeps anyAnswer (Kept f) (dropHandle f ref) := by
  refine .bind (Q := fun _ ↦ Kept f) (onMemory_ensures fun d hd ↦ ?_) fun _ ↦ dropRef_keeps ref
  exact hd.refer hd.listed fun ref' href' ↦ hd.opened ref' (mem_of_mem_erase href')

end Programs

end Lchfs.Zones
