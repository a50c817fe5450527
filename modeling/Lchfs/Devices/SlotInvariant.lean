import Lchfs.Devices.VdevSet

/-!
# The invariant of the device set

Members and faulted devices together are a list of devices with distinct slots and distinct
roots, each slot below the count and each ring naming its device's slot. A fault, a rejoin
and an offline call only move a device between the two halves of that list.

A blank device is attached in the one slot that has no device online. That slot may have a
faulted device, which stays on the list: the slot is then both online and faulted, and the
next probe of the old device faults the new one. The invariant is about runs in which the
slot that is filled has no device at all.
-/

namespace Lchfs.Devices

open Lchfs.Library
open List Option

variable {Dev : Type}

/-- Devices with slots and roots of their own, below the count, whose rings name their slots. -/
structure Listed (ring : Dev → Option SuperblockSlot) (count : Nat) (vdevs : List (Vdev Dev)) :
    Prop where
  ids : (vdevs.map (·.id)).Nodup
  roots : (vdevs.map (·.root)).Nodup
  below : ∀ v ∈ vdevs, v.id < count
  rings : ∀ v ∈ vdevs, ∀ slot, ring v.root = some slot → slot.vdevId = v.id

namespace Listed

variable {ring ring' : Dev → Option SuperblockSlot} {count count' : Nat} {vdevs vdevs' : List (Vdev Dev)}
  {v w : Vdev Dev}

section

variable (h : Listed ring count vdevs)

include h

theorem perm (hperm : vdevs'.Perm vdevs) : Listed ring count vdevs' where
  ids := ((hperm.map _).nodup_iff).2 h.ids
  roots := ((hperm.map _).nodup_iff).2 h.roots
  below v hv := h.below v (hperm.subset hv)
  rings v hv := h.rings v (hperm.subset hv)

theorem sublist (hsub : vdevs'.Sublist vdevs)
    (hbelow : ∀ v ∈ vdevs', v.id < count') : Listed ring count' vdevs' where
  ids := h.ids.sublist (hsub.map _)
  roots := h.roots.sublist (hsub.map _)
  below := hbelow
  rings v hv := h.rings v (hsub.subset hv)

theorem cons (hid : ∀ w ∈ vdevs, w.id ≠ v.id)
    (hroot : ∀ w ∈ vdevs, w.root ≠ v.root) (hcount : count ≤ count') (hbelow : v.id < count')
    (hring : ∀ slot, ring v.root = some slot → slot.vdevId = v.id) :
    Listed ring count' (v :: vdevs) where
  ids := by
    rw [map_cons, nodup_cons]
    exact ⟨by simpa using hid, h.ids⟩
  roots := by
    rw [map_cons, nodup_cons]
    exact ⟨by simpa using hroot, h.roots⟩
  below := forall_mem_cons.2 ⟨hbelow, fun w hw ↦ Nat.lt_of_lt_of_le (h.below w hw) hcount⟩
  rings := forall_mem_cons.2 ⟨hring, h.rings⟩

theorem setRing (hring : ∀ v ∈ vdevs, ∀ slot, ring' v.root = some slot → slot.vdevId = v.id) :
    Listed ring' count vdevs :=
  ⟨h.ids, h.roots, h.below, hring⟩

theorem eq_of_root (hv : v ∈ vdevs) (hw : w ∈ vdevs) (heq : v.root = w.root) : v = w :=
  inj_on_of_nodup_map h.roots hv hw heq

theorem eq_of_id (hv : v ∈ vdevs) (hw : w ∈ vdevs) (heq : v.id = w.id) : v = w :=
  inj_on_of_nodup_map h.ids hv hw heq

end

end Listed

/-- Taking the first device of a slot out of a list and putting it elsewhere moves it. -/
theorem perm_eraseP {vdevs : List (Vdev Dev)} {id : VdevId} {v : Vdev Dev}
    (h : vdevs.find? (·.id = id) = some v) : vdevs.Perm (v :: vdevs.eraseP (·.id = id)) := by
  induction vdevs with
  | nil => simp at h
  | cons w vdevs ih =>
    by_cases hw : w.id = id
    · obtain rfl : w = v := by simpa [hw] using h
      simp [hw]
    · have hv : vdevs.find? (·.id = id) = some v := by simpa [hw] using h
      simpa [hw] using ((ih hv).cons w).trans (.swap v w _)

theorem pairwise_insertionSort_id {vdevs : List (Vdev Dev)} (h : (vdevs.map (·.id)).Nodup) :
    (vdevs.insertionSort fun v w ↦ v.id ≤ w.id).Pairwise fun v w ↦ v.id < w.id := by
  have hsorted : (vdevs.insertionSort fun v w ↦ v.id ≤ w.id).Pairwise fun v w ↦ v.id ≤ w.id :=
    letI : Std.Total fun v w : Vdev Dev ↦ v.id ≤ w.id := ⟨fun v w ↦ Nat.le_total v.id w.id⟩
    letI : IsTrans (Vdev Dev) fun v w ↦ v.id ≤ w.id := ⟨fun _ _ _ ↦ Nat.le_trans⟩
    pairwise_insertionSort _ vdevs
  have hnodup : (vdevs.insertionSort fun v w ↦ v.id ≤ w.id).Pairwise fun v w ↦ v.id ≠ w.id := by
    have hperm := (perm_insertionSort (fun v w : Vdev Dev ↦ v.id ≤ w.id) vdevs).map (·.id)
    exact pairwise_map.1 (hperm.nodup_iff.2 h)
  exact (hsorted.and hnodup).imp fun ⟨hle, hne⟩ ↦ Nat.lt_of_le_of_ne hle hne

namespace VdevSet

variable {set : VdevSet Dev} {id : VdevId} {v : Vdev Dev}

/-- The devices the mount owns. -/
def owned (set : VdevSet Dev) : List (Vdev Dev) :=
  set.members ++ set.faulted

theorem isOnline_iff : set.isOnline id = true ↔ ∃ v ∈ set.members, v.id = id := by
  simp [isOnline]

theorem find?_of_isOnline (h : set.isOnline id = true) :
    ∃ v, set.members.find? (·.id = id) = some v := by
  rw [← isSome_iff_exists, find?_isSome]
  simpa [isOnline] using h

theorem fault_of_find? (h : set.members.find? (·.id = id) = some v) : set.fault id = { set with
      members := set.members.eraseP (·.id = id)
      catchingUp := set.catchingUp.filter (· ≠ id)
      faulted := set.faulted ++ [v] } := by
  simp [fault, h]

section Fault

variable (set : VdevSet Dev) (id : VdevId)

/-- A fault moves a device from one half of the list to the other. -/
theorem perm_owned_fault : (set.fault id).owned.Perm set.owned := by
  cases hfind : set.members.find? (·.id = id) with
  | none => simp [fault, hfind]
  | some v =>
    rw [fault_of_find? hfind]
    refine Perm.trans ?_ ((perm_eraseP hfind).append_right set.faulted).symm
    simp only [owned, ← append_assoc]
    exact perm_append_singleton v _

theorem count_fault : (set.fault id).count = set.count := by
  unfold fault
  split <;> rfl

theorem offlined_fault : (set.fault id).offlined = set.offlined := by
  unfold fault
  split <;> rfl

theorem members_fault_sublist : (set.fault id).members.Sublist set.members := by
  unfold fault
  split
  · exact .refl _
  · exact eraseP_sublist

theorem faulted_subset_fault : set.faulted ⊆ (set.fault id).faulted := by
  unfold fault
  split
  · exact Subset.refl _
  · exact subset_append_left _ _

end Fault

/-- An attached device joins the list. -/
theorem perm_owned_attach (set : VdevSet Dev) (v : Vdev Dev) :
    (set.attach v).owned.Perm (v :: set.owned) := by
  have hsort := perm_insertionSort (fun v w : Vdev Dev ↦ v.id ≤ w.id) (set.members ++ [v])
  exact ((hsort.trans (perm_append_singleton v set.members)).append_right set.faulted)

theorem owned_detachLast_sublist (set : VdevSet Dev) : set.detachLast.owned.Sublist set.owned := by
  refine Sublist.append eraseP_sublist ?_
  dsimp only [detachLast]
  split
  · exact .refl _
  · exact eraseP_sublist

theorem mem_members_attach {w : Vdev Dev} :
    w ∈ (set.attach v).members ↔ w ∈ set.members ∨ w = v := by
  simp [attach, mem_insertionSort]

end VdevSet

namespace Slots

variable {s t : Slots Dev} {id : VdevId}
variable {v : Vdev Dev} {root : Dev}

structure Consistent (s : Slots Dev) : Prop where
  ascending : s.set.members.Pairwise fun v w ↦ v.id < w.id
  listed : Listed s.ring s.set.count s.set.owned
  catchingUp : ∀ id ∈ s.set.catchingUp, ∃ v ∈ s.set.members, v.id = id
  offlined : ∀ id ∈ s.set.offlined, ∃ v ∈ s.set.faulted, v.id = id

section

variable (h : s.Consistent)

include h

namespace Consistent

theorem fault (id : VdevId) : (s.setVdevs (s.set.fault id)).Consistent := by
  refine ⟨h.ascending.sublist (s.set.members_fault_sublist id), ?_, fun i hi ↦ ?_, fun i hi ↦ ?_⟩
  · dsimp only [setVdevs]
    rw [VdevSet.count_fault]
    exact h.listed.perm (s.set.perm_owned_fault id)
  · dsimp only [setVdevs] at hi ⊢
    cases hfind : s.set.members.find? (·.id = id) with
    | none =>
      simp only [VdevSet.fault, hfind] at hi ⊢
      exact h.catchingUp i hi
    | some =>
      rw [VdevSet.fault_of_find? hfind] at hi ⊢
      obtain ⟨hi, hne⟩ := mem_filter.1 hi
      obtain ⟨w, hw, rfl⟩ := h.catchingUp i hi
      exact ⟨w, (mem_eraseP_of_neg (by simpa using hne)).2 hw, rfl⟩
  · dsimp only [setVdevs] at hi ⊢
    rw [VdevSet.offlined_fault] at hi
    obtain ⟨w, hw, rfl⟩ := h.offlined i hi
    exact ⟨w, s.set.faulted_subset_fault id hw, rfl⟩

theorem offlineVdev (honline : s.set.isOnline id = true) :
    (s.setVdevs ((s.set.fault id).markOfflined id)).Consistent := by
  have hfault := h.fault id
  refine ⟨hfault.ascending, hfault.listed, hfault.catchingUp, fun i hi ↦ ?_⟩
  rcases mem_insert_iff.1 hi with rfl | hi
  · obtain ⟨v, hfind⟩ := VdevSet.find?_of_isOnline honline
    refine ⟨v, ?_, by simpa using find?_some hfind⟩
    change v ∈ (s.set.fault i).faulted
    rw [VdevSet.fault_of_find? hfind]
    exact mem_append_right _ (mem_singleton_self v)
  · exact hfault.offlined i hi

/-- A device joins in a slot that has none. -/
theorem attach (hid : ∀ w ∈ s.set.owned, w.id ≠ v.id) (hroot : ∀ w ∈ s.set.owned, w.root ≠ v.root)
    (hring : ∀ slot, s.ring v.root = some slot → slot.vdevId = v.id) :
    (s.join (v.id, s.set.attach v)).Consistent := by
  have hlisted : Listed s.ring (s.set.attach v).count (s.set.attach v).owned :=
    (h.listed.cons hid hroot (Nat.le_max_left _ _) (Nat.lt_of_lt_of_le (Nat.lt_succ_self _)
      (Nat.le_max_right _ _)) hring).perm (s.set.perm_owned_attach v)
  refine ⟨pairwise_insertionSort_id ?_, hlisted, fun i hi ↦ ?_, h.offlined⟩
  · have hsub : (s.set.attach v).members.Sublist (s.set.attach v).owned :=
      sublist_append_left _ _
    have hperm := (perm_insertionSort (fun v w : Vdev Dev ↦ v.id ≤ w.id)
      (s.set.members ++ [v])).map (·.id)
    exact hperm.nodup_iff.1 (hlisted.ids.sublist (hsub.map _))
  · rcases mem_insert_iff.1 hi with rfl | hi
    · exact ⟨v, VdevSet.mem_members_attach.2 (.inr rfl), rfl⟩
    · obtain ⟨w, hw, rfl⟩ := h.catchingUp i hi
      exact ⟨w, VdevSet.mem_members_attach.2 (.inl hw), rfl⟩

/-- The set without a faulted device, on its way back. -/
theorem takeFaulted (hfind : s.set.faulted.find? (·.id = id) = some v) :
    (s.setVdevs (s.set.takeFaulted id)).Consistent ∧
      ∀ w ∈ (s.set.takeFaulted id).owned, w.id ≠ v.id ∧ w.root ≠ v.root := by
  have hperm : s.set.owned.Perm (v :: (s.set.takeFaulted id).owned) :=
    ((perm_eraseP hfind).append_left s.set.members).trans perm_middle
  have hlisted := h.listed.perm hperm.symm
  refine ⟨⟨h.ascending, ?_, h.catchingUp, fun i hi ↦ ?_⟩, fun w hw ↦ ?_⟩
  · exact hlisted.sublist (sublist_cons_self _ _) fun w hw ↦
      hlisted.below w (mem_cons_of_mem _ hw)
  · obtain ⟨hi, hne⟩ := mem_filter.1 hi
    obtain ⟨w, hw, rfl⟩ := h.offlined i hi
    exact ⟨w, (mem_eraseP_of_neg (by simpa using hne)).2 hw, rfl⟩
  · have hids := (nodup_cons.1 (map_cons ▸ hlisted.ids)).1
    have hroots := (nodup_cons.1 (map_cons ▸ hlisted.roots)).1
    exact ⟨fun heq ↦ hids (mem_map.2 ⟨w, hw, heq⟩), fun heq ↦ hroots (mem_map.2 ⟨w, hw, heq⟩)⟩

theorem finishCatchUp (id : VdevId) : (s.setVdevs (s.set.finishCatchUp id)).Consistent :=
  ⟨h.ascending, h.listed, fun i hi ↦ h.catchingUp i (mem_filter.1 hi).1, h.offlined⟩

theorem promote (id : VdevId) : (s.setVdevs (s.set.promote id)).Consistent :=
  { h with }

theorem endJoin : ({ s with joining := none } : Slots Dev).Consistent :=
  { h with }

/-- No device the mount still owns is in the last slot after a detach. -/
theorem id_ne_of_detachLast
    (hv : v ∈ s.set.detachLast.owned) : v ∈ s.set.owned ∧ v.id ≠ s.set.count - 1 := by
  have hsub := s.set.owned_detachLast_sublist
  refine ⟨hsub.subset hv, fun hid ↦ ?_⟩
  -- The one device of the slot is at the place it is taken from.
  have honly : ∀ w ∈ s.set.owned, w.id = s.set.count - 1 → w = v := fun w hw hwid ↦
    h.listed.eq_of_id hw (hsub.subset hv) (hwid.trans hid.symm)
  have hnodup : s.set.owned.Nodup := h.listed.ids.of_map
  by_cases honline : s.set.isOnline (s.set.count - 1) = true
  · obtain ⟨w, hfind⟩ := VdevSet.find?_of_isOnline honline
    have hw : w ∈ s.set.members := mem_of_find?_eq_some hfind
    obtain rfl := honly w (mem_append_left _ hw) (by simpa using find?_some hfind)
    have hperm := (perm_eraseP hfind).append_right s.set.faulted
    have hnot := (nodup_cons.1 ((hperm.nodup_iff).1 hnodup)).1
    exact hnot (by simpa [VdevSet.owned, VdevSet.detachLast, honline] using hv)
  · rw [Bool.not_eq_true] at honline
    have hmembers : ∀ w ∈ s.set.members, ¬w.id = s.set.count - 1 := by
      simpa [VdevSet.isOnline] using honline
    have hv' : v ∈ s.set.faulted.eraseP (·.id = s.set.count - 1) := by
      rcases mem_append.1 hv with hv | hv
      · exact absurd hid (hmembers v (mem_of_mem_eraseP hv))
      · simpa [VdevSet.detachLast, honline] using hv
    obtain ⟨w, hfind⟩ : ∃ w, s.set.faulted.find? (·.id = s.set.count - 1) = some w := by
      rw [← isSome_iff_exists, find?_isSome]
      exact ⟨v, mem_of_mem_eraseP hv', by simpa using hid⟩
    obtain rfl := honly w (mem_append_right _ (mem_of_find?_eq_some hfind))
      (by simpa using find?_some hfind)
    have hfaulted : s.set.faulted.Nodup := hnodup.sublist (sublist_append_right _ _)
    exact (nodup_cons.1 (((perm_eraseP hfind).nodup_iff).1 hfaulted)).1 hv'

end Consistent

end

variable [DecidableEq Dev] {result : VdevId × VdevSet Dev}

/-- The devices that take part in a checkpoint get a ring that names their slot. -/
theorem Consistent.checkpoint (h : s.Consistent) : s.checkpoint.Consistent := by
  refine ⟨h.ascending, h.listed.setRing fun v hv slot hslot ↦ ?_, h.catchingUp, h.offlined⟩
  dsimp only [Slots.checkpoint] at hslot
  split at hslot
  case h_1 m hfind =>
    cases hslot
    have hm : m ∈ s.set.owned := mem_append_left _ (mem_of_find?_eq_some hfind)
    have hroot : m.root = v.root ∧ m.id ∉ s.set.catchingUp := by
      simpa using find?_some hfind
    exact congrArg Vdev.id (h.listed.eq_of_root hm hv hroot.1)
  case h_2 => exact h.listed.rings v hv slot hslot

theorem Consistent.detachVdevLive (h : s.Consistent) : s.detachVdevLive.Consistent := by
  have hsub := s.set.owned_detachLast_sublist
  refine ⟨h.ascending.sublist eraseP_sublist, ?_, fun i hi ↦ ?_, fun i hi ↦ ?_⟩
  · have hlisted : Listed s.ring (s.set.count - 1) s.set.detachLast.owned :=
      h.listed.sublist hsub fun v hv ↦ by
        obtain ⟨hv, hne⟩ := h.id_ne_of_detachLast hv
        exact Nat.lt_of_le_of_ne (Nat.le_sub_one_of_lt (h.listed.below v hv)) hne
    refine hlisted.setRing fun v hv slot hslot ↦ ?_
    exact hlisted.rings v hv slot (ite_none_left_eq_some.1 hslot).2
  · obtain ⟨hi, hne⟩ := mem_filter.1 hi
    obtain ⟨w, hw, rfl⟩ := h.catchingUp i hi
    exact ⟨w, (mem_eraseP_of_neg (by simpa using hne)).2 hw, rfl⟩
  · obtain ⟨hi, hne⟩ := mem_filter.1 hi
    obtain ⟨w, hw, rfl⟩ := h.offlined i hi
    refine ⟨w, ?_, rfl⟩
    dsimp only [Slots.detachVdevLive, VdevSet.detachLast]
    split
    · exact hw
    · exact (mem_eraseP_of_neg (by simpa using hne)).2 hw

/-- The device `online_vdev` lets in is in the slot its ring names, which had no member and no
other device. -/
theorem onlineVdev_eq_some (h : s.onlineVdev root = some result) :
    ∃ slot, s.ring root = some slot ∧ s.set.isOnline slot.vdevId = false ∧
      result = (slot.vdevId, (s.set.takeFaulted slot.vdevId).attach ⟨slot.vdevId, root⟩) ∧
      (s.set.faultedRoot slot.vdevId = some root ∨
        s.set.faultedRoot slot.vdevId = none ∧ s.set.owns root = false) := by
  obtain ⟨slot, hslot, h⟩ := bind_eq_some_iff.1 h
  obtain ⟨honline, h⟩ := ite_none_left_eq_some.1 h
  obtain ⟨-, h⟩ := ite_none_left_eq_some.1 h
  obtain ⟨-, h⟩ := ite_none_left_eq_some.1 h
  refine ⟨slot, hslot, Bool.not_eq_true _ ▸ honline, ?_⟩
  split at h
  case h_1 faultedRoot hfaulted =>
    obtain ⟨rfl, ⟨⟩⟩ := ite_none_right_eq_some.1 h
    exact ⟨rfl, .inl hfaulted⟩
  case h_2 hfaulted =>
    obtain ⟨howns, ⟨⟩⟩ := ite_none_left_eq_some.1 h
    exact ⟨rfl, .inr ⟨hfaulted, Bool.not_eq_true _ ▸ howns⟩⟩

theorem Consistent.onlineVdev (h : s.Consistent) (hresult : s.onlineVdev root = some result) :
    (s.join result).Consistent := by
  obtain ⟨slot, hslot, honline, rfl, hcase⟩ := onlineVdev_eq_some hresult
  have hring : ∀ other, s.ring root = some other → other.vdevId = slot.vdevId := fun _ hother ↦ by
    rw [hslot] at hother
    rw [some.inj hother]
  rcases hcase with hfaulted | ⟨hfaulted, howns⟩
  · obtain ⟨v, hfind, rfl⟩ := map_eq_some_iff.1 hfaulted
    have hid : v.id = slot.vdevId := by simpa using find?_some hfind
    obtain ⟨hset, hfresh⟩ := h.takeFaulted hfind
    rw [hid] at hfresh
    exact hset.attach (v := ⟨slot.vdevId, v.root⟩) (fun w hw ↦ (hfresh w hw).1)
      (fun w hw ↦ (hfresh w hw).2) hring
  · have hnone : ∀ w ∈ s.set.faulted, w.id ≠ slot.vdevId := by
      simpa [VdevSet.faultedRoot] using hfaulted
    have hmembers : ∀ w ∈ s.set.members, w.id ≠ slot.vdevId := by
      simpa [VdevSet.isOnline] using honline
    have htake : (s.set.takeFaulted slot.vdevId).faulted = s.set.faulted :=
      eraseP_of_forall_not (by simpa using hnone)
    have howned : (s.set.takeFaulted slot.vdevId).owned = s.set.owned :=
      congrArg (s.set.members ++ ·) htake
    have hset : (s.setVdevs (s.set.takeFaulted slot.vdevId)).Consistent := by
      refine ⟨h.ascending, ?_, h.catchingUp, fun i hi ↦ ?_⟩
      · change Listed s.ring s.set.count (s.set.takeFaulted slot.vdevId).owned
        rw [howned]
        exact h.listed
      · change ∃ v ∈ (s.set.takeFaulted slot.vdevId).faulted, v.id = i
        rw [htake]
        exact h.offlined i (mem_filter.1 hi).1
    have hmem : (s.set.takeFaulted slot.vdevId).owned ⊆ s.set.owned := howned ▸ Subset.refl _
    refine hset.attach (v := ⟨slot.vdevId, root⟩) (fun w hw ↦ ?_) (fun w hw ↦ ?_) hring
    · rcases mem_append.1 (hmem hw) with hw | hw
      · exact hmembers w hw
      · exact hnone w hw
    · have hroot : ∀ w ∈ s.set.members ++ s.set.faulted, w.root ≠ root := by
        simpa [VdevSet.owns, or_imp, forall_and] using howns
      exact hroot w (hmem hw)

omit [DecidableEq Dev] in
/-- The slot a blank device is attached in has no device online. -/
theorem isOnline_attachSlot (h : s.Consistent) (hid : s.set.attachSlot = some id) :
    s.set.isOnline id = false := by
  have hmissing : ∀ i ∈ s.set.missing, s.set.isOnline i = false := fun i hi ↦ by
    simpa using (mem_filter.1 hi).2
  unfold VdevSet.attachSlot at hid
  split at hid
  case h_1 =>
    obtain rfl := some.inj hid
    by_contra honline
    obtain ⟨v, hv, hvid⟩ := VdevSet.isOnline_iff.1 (Bool.not_eq_false _ ▸ honline)
    exact Nat.lt_irrefl _ (hvid ▸ h.listed.below v (mem_append_left _ hv))
  case h_2 i heq =>
    obtain rfl := some.inj hid
    exact hmissing i (heq ▸ mem_singleton_self i)
  case h_3 => cases hid

/-- A blank device is attached only in a slot whose device is gone from the mount. -/
def ReplacesAbsent (s : Slots Dev) : SlotAction Dev → Prop
  | .attachVdevLive _ => ∀ v ∈ s.set.faulted, s.set.attachSlot ≠ some v.id
  | _ => True

theorem Consistent.attachVdevLive (h : s.Consistent) (hring : s.ring root = none)
    (howns : s.set.owns root = false) (hid : s.set.attachSlot = some id)
    (hfaulted : ∀ v ∈ s.set.faulted, s.set.attachSlot ≠ some v.id) :
    (s.join (id, s.set.attach ⟨id, root⟩)).Consistent := by
  have hmembers : ∀ w ∈ s.set.members, w.id ≠ id := by
    simpa [VdevSet.isOnline] using isOnline_attachSlot h hid
  refine h.attach (v := ⟨id, root⟩) (fun w hw ↦ ?_) (fun w hw ↦ ?_) (fun _ hslot ↦ ?_)
  · rcases mem_append.1 hw with hw | hw
    · exact hmembers w hw
    · exact fun heq ↦ hfaulted w hw (heq ▸ hid)
  · have hroot : ∀ w ∈ s.set.members ++ s.set.faulted, w.root ≠ root := by
      simpa [VdevSet.owns, or_imp, forall_and] using howns
    exact hroot w hw
  · simp [hring] at hslot

theorem Consistent.step (h : s.Consistent) {a : SlotAction Dev} (hcond : ReplacesAbsent s a)
    (hstep : s.step a = some t) : t.Consistent := by
  cases a with
  | fault id =>
    cases hstep
    exact h.fault id
  | offlineVdev =>
    obtain ⟨hguard, ⟨⟩⟩ := ite_none_left_eq_some.1 hstep
    exact h.offlineVdev (by simpa using (not_or.1 hguard).2)
  | onlineVdev =>
    obtain ⟨-, hstep⟩ := ite_none_left_eq_some.1 hstep
    obtain ⟨_, hresult, rfl⟩ := map_eq_some_iff.1 hstep
    exact h.onlineVdev hresult
  | rejoin =>
    obtain ⟨-, hstep⟩ := ite_none_left_eq_some.1 hstep
    obtain ⟨v, -, rfl⟩ := map_eq_some_iff.1 hstep
    split
    case h_1 result hresult => exact h.onlineVdev hresult
    case h_2 => exact h.fault v.id
  | attachVdevLive root =>
    obtain ⟨hguard, hstep⟩ := ite_none_left_eq_some.1 hstep
    obtain ⟨_, hid, rfl⟩ := map_eq_some_iff.1 hstep
    have hguard : s.joining = none ∧ s.ring root = none ∧ s.set.owns root = false := by
      simpa using hguard
    exact h.attachVdevLive hguard.2.1 hguard.2.2 hid hcond
  | finishCatchUp =>
    obtain ⟨id, -, rfl⟩ := map_eq_some_iff.1 hstep
    exact h.finishCatchUp id
  | endJoin ok =>
    obtain ⟨id, -, rfl⟩ := map_eq_some_iff.1 hstep
    cases ok with
    | false => exact (h.fault id).endJoin
    | true => exact h.endJoin
  | checkpoint =>
    cases hstep
    exact h.checkpoint
  | detachVdevLive =>
    obtain ⟨-, ⟨⟩⟩ := ite_none_left_eq_some.1 hstep
    exact h.detachVdevLive
  | promotePrimary =>
    obtain ⟨-, hstep⟩ := ite_none_left_eq_some.1 hstep
    obtain ⟨v, -, rfl⟩ := map_eq_some_iff.1 hstep
    exact h.promote v.id

omit [DecidableEq Dev] in
theorem Consistent.of_mounted (h : s.Mounted) : s.Consistent := by
  obtain ⟨hascending, hroots, hslots, hfaulted, hofflined, hcatchingUp, -⟩ := h
  have howned : s.set.owned = s.set.members := by simp [VdevSet.owned, hfaulted]
  refine ⟨hascending, howned ▸ ⟨?_, hroots, fun v hv ↦ (hslots v hv).1, fun v hv ↦ (hslots v hv).2⟩,
    by simp [hcatchingUp], by simp [hofflined]⟩
  exact pairwise_map.2 (hascending.imp Nat.ne_of_lt)

theorem consistent_of_reachable (h : (slots Dev).ReachableUnder ReplacesAbsent s) : s.Consistent :=
  h.invariant (fun _ ↦ Consistent.of_mounted) fun _ _ _ _ hinv hcond hstep ↦ hinv.step hcond hstep

/-- Automatic rejoin brings back no device the operator took offline. -/
theorem Consistent.isOnline_rejoin (h : s.Consistent) (hstep : s.step (.rejoin id) = some t)
    {i : VdevId} (hi : i ∈ s.set.offlined) : t.set.isOnline i = false := by
  obtain ⟨v, hv, hvi⟩ := h.offlined i hi
  have hmembers : ∀ w ∈ s.set.members, w.id ≠ i := fun w hw heq ↦ by
    have hdisjoint := (nodup_append.1 (map_append ▸ h.listed.ids)).2.2
    exact hdisjoint w.id (mem_map_of_mem hw) v.id (mem_map_of_mem hv) (heq.trans hvi.symm)
  obtain ⟨-, hstep⟩ := ite_none_left_eq_some.1 hstep
  obtain ⟨w, hw, rfl⟩ := map_eq_some_iff.1 hstep
  obtain ⟨hwfaulted, hwi⟩ := mem_filter.1 (mem_of_find?_eq_some hw)
  have hne : w.id ≠ i := fun heq ↦ by simp [heq, hi] at hwi
  rw [← Bool.not_eq_true, VdevSet.isOnline_iff]
  rintro ⟨m, hm, hmi⟩
  split at hm
  case h_1 result hresult =>
    obtain ⟨slot, hslot, -, rfl, -⟩ := onlineVdev_eq_some hresult
    have hslot : slot.vdevId = w.id := h.listed.rings w (mem_append_right _ hwfaulted) slot hslot
    rcases VdevSet.mem_members_attach.1 hm with hm | rfl
    · exact hmembers m hm hmi
    · exact hne (hslot.symm.trans hmi)
  case h_2 => exact hmembers m ((s.set.members_fault_sublist w.id).subset hm) hmi

/-- Two devices, 10 and 11, in the two slots of a pool. -/
def twoSlots : Slots Nat where
  set :=
    { members := [⟨0, 10⟩, ⟨1, 11⟩]
      faulted := []
      count := 2
      offlined := []
      catchingUp := []
      primary := 0 }
  ring root := if root = 10 then some ⟨0, 2, 1⟩ else if root = 11 then some ⟨1, 2, 1⟩ else none
  generation := 1
  joining := none

theorem twoSlots_mounted : twoSlots.Mounted := by
  refine ⟨by decide, by decide, ?_, rfl, rfl, rfl, rfl⟩
  simp [twoSlots]

instance (s : Slots Dev) (a : SlotAction Dev) : Decidable (ReplacesAbsent s a) := by
  cases a <;> unfold ReplacesAbsent <;> infer_instance

/-- A device faults and rejoins, a third one is attached and taken offline, and the first faults
again. -/
def rejoinRun : List (SlotAction Nat) :=
  [.fault 1, .rejoin 1, .finishCatchUp, .checkpoint, .endJoin true, .attachVdevLive 12, .finishCatchUp,
    .checkpoint, .endJoin true, .offlineVdev 2, .fault 1]

end Slots

end Lchfs.Devices
