import Lchfs.Devices.Members
import Lchfs.Library.Table

/-!
# Segment ids are not reused

The id counter stays above every id on the devices a mount has opened, and an id that has
been taken for a segment to come is on none of them. A device that was absent at mount is
outside this: `online_vdev` does not raise the counter, so the device may hold ids the
counter has still to hand out.
-/

namespace Lchfs.Devices

open Lchfs.Format (SegmentId)
open Lchfs.Library
open List Option

variable {Dev Hash : Type}
variable {kind : SegmentKind} {id : SegmentId} {segs : List (Segment Hash)} {seg : Segment Hash}
  {dev : Dev} {targets : Option (List Dev)}

/-! ## Ids on a device -/

theorem id_of_mem_removeSegment (h : seg ∈ removeSegment kind id segs) : seg ∈ segs :=
  mem_of_mem_filter h

theorem id_of_mem_createSegment (h : seg ∈ createSegment kind id segs) : seg.id = id ∨ seg ∈ segs := by
  rcases mem_cons.1 h with rfl | h
  · exact .inl rfl
  · exact .inr (id_of_mem_removeSegment h)

theorem id_of_mem_appendRecord {hash : Hash} (h : seg ∈ appendRecord kind id hash segs) :
    ∃ old ∈ segs, old.id = seg.id := by
  obtain ⟨old, hold, rfl⟩ := mem_map.1 h
  refine ⟨old, hold, ?_⟩
  split <;> rfl

/-- Creating a segment under an id that the device does not have keeps every segment. -/
theorem mem_createSegment_of_fresh (hfresh : ∀ seg ∈ segs, seg.id ≠ id)
    (hseg : seg ∈ segs) : seg ∈ createSegment kind id segs := by
  refine mem_cons_of_mem _ (mem_filter.2 ⟨hseg, ?_⟩)
  simp [hfresh seg hseg]

theorem le_highestSegmentId (h : seg ∈ segs) : seg.id ≤ highestSegmentId segs :=
  le_foldr_max 0 (mem_map_of_mem h)

/-! ## The invariant -/

/-- Ids that are taken are below the counter, and ids still to be used are on no device this
mount has opened. -/
structure Mount.IdsKnown (segments : Dev → List (Segment Hash)) (m : Mount Dev) : Prop where
  members : ∀ v ∈ m.members, v.root ∈ m.opened
  faulted : ∀ v ∈ m.faulted, v.root ∈ m.opened
  passTargets : ∀ dev ∈ m.passTargets, dev ∈ m.opened
  targets : ∀ c ∈ m.creations, ∀ targets, c.targets = some targets →
    ∀ dev ∈ targets, dev ∈ m.opened
  below : ∀ dev ∈ m.opened, ∀ seg ∈ segments dev, seg.id < m.nextSegmentId
  unused : ∀ dev ∈ m.opened, ∀ seg ∈ segments dev, ∀ c ∈ m.creations, c.id ≠ seg.id
  taken : ∀ c ∈ m.creations, c.id < m.nextSegmentId
  distinct : m.creations.Pairwise (·.id ≠ ·.id)

namespace Mount.IdsKnown

variable {segments : Dev → List (Segment Hash)} {m : Mount Dev}

section

variable (h : m.IdsKnown segments)

include h

theorem online (hdev : dev ∈ m.online) : dev ∈ m.opened := by
  obtain ⟨v, hv, rfl⟩ := mem_map.1 hdev
  exact h.members v hv

/-- A change of the devices that leaves no id behind which was not there before. -/
theorem of_ids {segments' : Dev → List (Segment Hash)}
    (hids : ∀ dev ∈ m.opened, ∀ seg ∈ segments' dev,
      ∃ d ∈ m.opened, ∃ old ∈ segments d, old.id = seg.id) : m.IdsKnown segments' :=
  { h with
    below := fun dev hdev seg hseg ↦ by
      obtain ⟨d, hd, old, hold, hid⟩ := hids dev hdev seg hseg
      exact hid ▸ h.below d hd old hold
    unused := fun dev hdev seg hseg ↦ by
      obtain ⟨d, hd, old, hold, hid⟩ := hids dev hdev seg hseg
      exact hid ▸ h.unused d hd old hold }

theorem allocate (kind : SegmentKind)
    (htargets : ∀ ts, targets = some ts → ∀ dev ∈ ts, dev ∈ m.opened) :
    (m.allocate kind targets).IdsKnown segments where
  members := h.members
  faulted := h.faulted
  passTargets := h.passTargets
  targets c hc := by
    rcases mem_append.1 hc with hc | hc
    · exact h.targets c hc
    · obtain rfl := mem_singleton.1 hc
      exact htargets
  below dev hdev seg hseg := Nat.lt_succ_of_lt (h.below dev hdev seg hseg)
  unused dev hdev seg hseg c hc := by
    rcases mem_append.1 hc with hc | hc
    · exact h.unused dev hdev seg hseg c hc
    · obtain rfl := mem_singleton.1 hc
      exact Nat.ne_of_gt (h.below dev hdev seg hseg)
  taken c hc := by
    rcases mem_append.1 hc with hc | hc
    · exact Nat.lt_succ_of_lt (h.taken c hc)
    · obtain rfl := mem_singleton.1 hc
      exact Nat.lt_succ_self _
  distinct := pairwise_append.2 ⟨h.distinct, pairwise_singleton _ _, fun c hc _ hc' ↦ by
    obtain rfl := mem_singleton.1 hc'
    exact Nat.ne_of_lt (h.taken c hc)⟩

theorem readOnline (id : SegmentId) : (m.readOnline id).IdsKnown segments := by
  have hid : ∀ c ∈ (m.readOnline id).creations, ∃ c' ∈ m.creations, c'.id = c.id ∧
      ∀ ts, c.targets = some ts → c'.targets = some ts ∨ ts = m.online := by
    intro c hc
    obtain ⟨c', hc', rfl⟩ := mem_map.1 hc
    refine ⟨c', hc', by split <;> rfl, fun ts hts ↦ ?_⟩
    split at hts
    · cases ht : c'.targets <;> simp_all
    · exact .inl hts
  refine { h with targets := ?_, unused := ?_, taken := ?_, distinct := ?_ }
  · intro c hc ts hts
    obtain ⟨c', hc', -, htargets⟩ := hid c hc
    rcases htargets ts hts with hts | rfl
    · exact h.targets c' hc' ts hts
    · exact fun dev ↦ h.online
  · intro dev hdev seg hseg c hc
    obtain ⟨c', hc', heq, -⟩ := hid c hc
    exact heq ▸ h.unused dev hdev seg hseg c' hc'
  · intro c hc
    obtain ⟨c', hc', heq, -⟩ := hid c hc
    exact heq ▸ h.taken c' hc'
  · refine pairwise_map.2 (h.distinct.imp fun {c _} hne ↦ ?_)
    split <;> split <;> exact hne

theorem forget (id : SegmentId) : (m.forget id).IdsKnown segments :=
  { h with
    targets := fun c hc ↦ h.targets c (mem_of_mem_filter hc)
    unused := fun dev hdev seg hseg c hc ↦ h.unused dev hdev seg hseg c (mem_of_mem_filter hc)
    taken := fun c hc ↦ h.taken c (mem_of_mem_filter hc)
    distinct := h.distinct.filter _ }

theorem attach {vdev : Vdev Dev} (hbelow : ∀ seg ∈ segments vdev.root, seg.id < m.nextSegmentId)
    (hunused : ∀ seg ∈ segments vdev.root, ∀ c ∈ m.creations, c.id ≠ seg.id) :
    (m.attach vdev).IdsKnown segments where
  members v hv := by
    rcases mem_append.1 hv with hv | hv
    · exact mem_cons_of_mem _ (h.members v hv)
    · obtain rfl := mem_singleton.1 hv
      exact mem_cons_self
  faulted v hv := mem_cons_of_mem _ (h.faulted v hv)
  passTargets dev hdev := mem_cons_of_mem _ (h.passTargets dev hdev)
  targets c hc ts hts dev hdev := mem_cons_of_mem _ (h.targets c hc ts hts dev hdev)
  below dev hdev := by
    rcases mem_cons.1 hdev with rfl | hdev
    · exact hbelow
    · exact h.below dev hdev
  unused dev hdev := by
    rcases mem_cons.1 hdev with rfl | hdev
    · exact hunused
    · exact h.unused dev hdev
  taken := h.taken
  distinct := h.distinct

theorem takeFaulted (id : VdevId) : (m.takeFaulted id).IdsKnown segments :=
  { h with faulted := fun v hv ↦ h.faulted v (mem_of_mem_filter hv) }

theorem fault (id : VdevId) : (m.fault id).IdsKnown segments :=
  { h with
    members := fun v hv ↦ h.members v (mem_of_mem_filter hv)
    faulted := fun v hv ↦ (mem_append.1 hv).elim (h.faulted v)
      fun hv ↦ h.members v (mem_of_mem_filter hv) }

theorem detachLast : m.detachLast.IdsKnown segments :=
  { h with
    members := fun v hv ↦ h.members v (mem_of_mem_filter hv)
    faulted := fun v hv ↦ h.faulted v (mem_of_mem_filter hv)
    passTargets := fun _ hdev ↦ absurd hdev not_mem_nil }

end

end Mount.IdsKnown

namespace State

variable [DecidableEq Dev] {s t : State Dev Hash} {m : Mount Dev} {failed roots : List Dev}
  {a : Action Dev Hash}

def IdsKnown (s : State Dev Hash) : Prop :=
  ∀ m, s.mount = some m → m.IdsKnown s.segments

/-- A device that did not fault under this mount is brought online only if the counter has
passed every id it holds and none of them is about to be used. -/
def JoinsBelow (s : State Dev Hash) : Action Dev Hash → Prop
  | .onlineVdev dev => ∀ m ∈ s.mount, dev ∈ m.faulted.map (·.root) ∨
      ∀ seg ∈ s.segments dev, seg.id < m.nextSegmentId ∧ ∀ c ∈ m.creations, c.id ≠ seg.id
  | _ => True

instance (a : Action Dev Hash) : Decidable (s.JoinsBelow a) := by
  cases a <;> unfold JoinsBelow <;> infer_instance

theorem ids_modifyDevice {f : List (Segment Hash) → List (Segment Hash)} (h : m.IdsKnown s.segments)
    (hf : ∀ seg ∈ f (s.segments dev), ∃ d ∈ m.opened, ∃ old ∈ s.segments d, old.id = seg.id) :
    m.IdsKnown (s.modifyDevice dev f).segments := by
  refine h.of_ids fun d hd seg hseg ↦ ?_
  simp only [modifyDevice] at hseg
  split at hseg
  next heq => exact hf seg (heq ▸ hseg)
  · exact ⟨d, hd, seg, hseg, rfl⟩

theorem plan_targets {writer : Writer Dev} (h : m.IdsKnown s.segments)
    (hplan : writer.plan m = some (kind, targets)) :
    ∀ ts, targets = some ts → ∀ dev ∈ ts, dev ∈ m.opened := by
  rintro _ rfl dev hdev
  cases writer with
  | shard | metadata => simp [Writer.plan] at hplan
  | heal =>
    simp only [Writer.plan, ite_none_right_eq_some, some.injEq, Prod.mk.injEq] at hplan
    obtain ⟨hd, -, rfl⟩ := hplan
    exact mem_singleton.1 hdev ▸ h.online hd
  | repack d =>
    simp only [Writer.plan, ite_none_right_eq_some, some.injEq, Prod.mk.injEq] at hplan
    obtain ⟨hd, -, rfl⟩ := hplan
    exact mem_singleton.1 hdev ▸ h.passTargets d hd
  | unstripe =>
    simp only [Writer.plan, some.injEq, Prod.mk.injEq] at hplan
    exact h.passTargets dev (hplan.2 ▸ hdev)

theorem step_of_mounted (hm : s.mount = some m) (a : Action Dev Hash) :
    s.step a = s.mountedStep m a := by
  simp [step, hm]

/-- What the creation of a segment does: the id was taken for it, and the devices it is created
on were read before. -/
theorem createSegment_inv (hm : s.mount = some m)
    (hstep : s.step (.createSegment id failed) = some t) :
    ∃ c ∈ m.creations, ∃ targets, c.targets = some targets ∧ c.id = id ∧
      t = { s.createOn c targets failed with mount := some (m.forget id) } := by
  rw [step_of_mounted hm, mountedStep] at hstep
  obtain ⟨c, hc, hstep⟩ := bind_eq_some_iff.1 hstep
  obtain ⟨targets, htargets, rfl⟩ := map_eq_some_iff.1 hstep
  exact ⟨c, mem_of_find?_eq_some hc, targets, htargets, by simpa using find?_some hc, rfl⟩

section

variable (hm : s.mount = some m) (h : m.IdsKnown s.segments)

include hm h

theorem IdsKnown.createSegment (hstep : s.step (.createSegment id failed) = some t) :
    t.IdsKnown := by
  obtain ⟨c, hc, targets, -, rfl, rfl⟩ := createSegment_inv hm hstep
  rintro _ ⟨⟩
  have hold := h.forget c.id
  -- A segment of the new state is an old one or the one just created.
  have hcases : ∀ dev, ∀ seg ∈ (s.createOn c targets failed).segments dev,
      seg.id = c.id ∨ seg ∈ s.segments dev := by
    intro _ _ hseg
    simp only [createOn] at hseg
    split at hseg
    · exact id_of_mem_createSegment hseg
    · exact .inr hseg
  refine { hold with below := ?_, unused := ?_ }
  · intro dev hdev seg hseg
    rcases hcases dev seg hseg with hid | hseg
    · exact hid ▸ h.taken c hc
    · exact h.below dev hdev seg hseg
  · intro dev hdev seg hseg c' hc'
    rcases hcases dev seg hseg with hid | hseg
    · simpa [hid] using (mem_filter.1 hc').2
    · exact hold.unused dev hdev seg hseg c' hc'

theorem IdsKnown.onlineVdev {m' : Mount Dev} (hjoin : s.JoinsBelow (.onlineVdev dev))
    (honline : s.onlineVdev m dev = some m') : m'.IdsKnown s.segments := by
  obtain ⟨_, -, honline⟩ := bind_eq_some_iff.1 honline
  obtain ⟨-, ⟨⟩⟩ := ite_none_right_eq_some.1 honline
  have hids : ∀ seg ∈ s.segments dev, seg.id < m.nextSegmentId ∧ ∀ c ∈ m.creations, c.id ≠ seg.id := by
    rcases hjoin m hm with hfaulted | hids
    · obtain ⟨v, hv, rfl⟩ := mem_map.1 hfaulted
      have hopened := h.faulted v hv
      exact fun seg hseg ↦ ⟨h.below _ hopened seg hseg, h.unused _ hopened seg hseg⟩
    · exact hids
  exact (h.takeFaulted _).attach (fun seg hseg ↦ (hids seg hseg).1) fun seg hseg ↦ (hids seg hseg).2

theorem IdsKnown.mountedStep (hjoin : s.JoinsBelow a) (hstep : s.mountedStep m a = some t) :
    t.IdsKnown := by
  cases a with
  | create roots | openSet roots allowMissing => simp [State.mountedStep] at hstep
  | allocate =>
    obtain ⟨⟨kind, _⟩, hplan, rfl⟩ := map_eq_some_iff.1 hstep
    rintro _ ⟨⟩
    exact h.allocate kind (plan_targets h hplan)
  | readOnline id =>
    cases hstep
    rintro _ ⟨⟩
    exact h.readOnline id
  | createSegment =>
    exact IdsKnown.createSegment hm h ((step_of_mounted hm _).trans hstep)
  | giveUp id =>
    cases hstep
    rintro _ ⟨⟩
    exact h.forget id
  | append dev =>
    obtain ⟨hdev, ⟨⟩⟩ := ite_none_right_eq_some.1 hstep
    intro _ hm'
    cases hm.symm.trans hm'
    refine ids_modifyDevice h fun seg hseg ↦ ?_
    obtain ⟨old, hold, hid⟩ := id_of_mem_appendRecord hseg
    exact ⟨dev, hdev, old, hold, hid⟩
  | removeSegment dev =>
    obtain ⟨hdev, ⟨⟩⟩ := ite_none_right_eq_some.1 hstep
    intro _ hm'
    cases hm.symm.trans hm'
    exact ids_modifyDevice h fun seg hseg ↦ ⟨dev, hdev, seg, id_of_mem_removeSegment hseg, rfl⟩
  | writeShard dev =>
    obtain ⟨⟨hdev, d, hd, old, hold, hid⟩, ⟨⟩⟩ := ite_none_right_eq_some.1 hstep
    intro _ hm'
    cases hm.symm.trans hm'
    refine ids_modifyDevice h fun seg hseg ↦ ?_
    rcases id_of_mem_createSegment hseg with heq | hseg
    · exact ⟨d, h.online hd, old, hold, hid.trans heq.symm⟩
    · exact ⟨dev, h.online hdev, seg, hseg, rfl⟩
  | readTargets =>
    cases hstep
    rintro _ ⟨⟩
    exact { h with passTargets := fun dev ↦ h.online }
  | fault id =>
    cases hstep
    rintro _ ⟨⟩
    exact h.fault id
  | attachVdevLive =>
    obtain ⟨⟨hblank, -⟩, hstep⟩ := ite_none_right_eq_some.1 hstep
    obtain ⟨_, -, rfl⟩ := map_eq_some_iff.1 hstep
    rintro _ ⟨⟩
    exact h.attach (by simp [hblank.1]) (by simp [hblank.1])
  | onlineVdev =>
    obtain ⟨_, honline, rfl⟩ := map_eq_some_iff.1 hstep
    rintro _ ⟨⟩
    exact IdsKnown.onlineVdev (s := s) hm h hjoin honline
  | finishCatchUp =>
    cases hstep
    rintro _ ⟨⟩
    exact { h with }
  | checkpoint =>
    cases hstep
    rintro _ ⟨⟩
    exact { h with }
  | detachVdevLive =>
    obtain ⟨-, ⟨⟩⟩ := ite_none_right_eq_some.1 hstep
    rintro _ ⟨⟩
    refine h.detachLast.of_ids fun dev hdev seg hseg ↦ ?_
    simp only [State.detachVdevLive] at hseg
    split at hseg
    · exact absurd hseg not_mem_nil
    · exact ⟨dev, hdev, seg, hseg, rfl⟩
  | crash =>
    cases hstep
    rintro _ ⟨⟩

end

/-- A mount counts from above every id on the devices it opens. -/
theorem IdsKnown.openSet {allowMissing : Bool} (hopen : s.openSet roots allowMissing = some t) :
    t.IdsKnown := by
  obtain ⟨-, hopen⟩ := ite_none_right_eq_some.1 hopen
  obtain ⟨_, -, rfl⟩ := map_eq_some_iff.1 hopen
  rintro _ ⟨⟩
  refine ⟨?_, by simp, by simp, by simp, ?_, by simp, by simp, by simp⟩
  · rintro v hv
    obtain ⟨⟨_, _⟩, hslot, rfl⟩ := mem_map.1 hv
    exact mem_map.2 ⟨_, hslot, rfl⟩
  · intro _ hdev _ hseg
    obtain ⟨⟨_, _⟩, hslot, rfl⟩ := mem_map.1 hdev
    exact Nat.lt_succ_of_le (Nat.le_trans (le_highestSegmentId hseg)
      (le_foldr_max 0 (mem_map.2 ⟨_, hslot, rfl⟩)))

theorem IdsKnown.create (hcreate : s.create roots = some t) : t.IdsKnown := by
  obtain ⟨⟨-, -, -, hblank⟩, ⟨⟩⟩ := ite_none_right_eq_some.1 hcreate
  rintro _ ⟨⟩
  refine ⟨?_, by simp, by simp, by simp, ?_, by simp, by simp, by simp⟩
  · intro v hv
    obtain ⟨⟨_, _⟩, hroot, rfl⟩ := mem_map.1 hv
    exact (mem_zipIdx' hroot).2 ▸ getElem_mem _
  · intro dev hdev _ hseg
    simp [(hblank dev hdev).1] at hseg

theorem IdsKnown.step (h : s.IdsKnown) (hjoin : s.JoinsBelow a) (hstep : s.step a = some t) :
    t.IdsKnown := by
  cases hm : s.mount with
  | some m => exact IdsKnown.mountedStep hm (h m hm) hjoin (step_of_mounted hm a ▸ hstep)
  | none =>
    cases a <;> simp only [State.step, hm, reduceCtorEq] at hstep
    case create roots => exact IdsKnown.create hstep
    case openSet roots allowMissing => exact IdsKnown.openSet hstep

theorem idsKnown_of_reachable (hs : (members Dev Hash).ReachableUnder JoinsBelow s) : s.IdsKnown :=
  hs.invariant (I := IdsKnown) (fun s hinit m hm ↦ by simp [hinit.1] at hm)
    fun _ _ _ _ h hjoin hstep ↦ h.step hjoin hstep

/-- In a run in which every device that joins holds only ids the counter has passed, a segment
is created under an id that no online device has, and no segment of any device is replaced. -/
theorem created_segment_is_fresh {id : SegmentId} {failed : List Dev} {m : Mount Dev}
    (hs : (members Dev Hash).ReachableUnder JoinsBelow s) (hm : s.mount = some m)
    (hstep : s.step (.createSegment id failed) = some t) :
    (∀ dev ∈ m.online, ∀ seg ∈ s.segments dev, seg.id ≠ id) ∧
      ∀ dev, ∀ seg ∈ s.segments dev, seg ∈ t.segments dev := by
  have h := idsKnown_of_reachable hs m hm
  obtain ⟨c, hc, targets, htargets, rfl, rfl⟩ := createSegment_inv hm hstep
  have hfresh : ∀ dev ∈ m.opened, ∀ seg ∈ s.segments dev, seg.id ≠ c.id :=
    fun dev hdev seg hseg ↦ (h.unused dev hdev seg hseg c hc).symm
  refine ⟨fun dev hdev ↦ hfresh dev (h.online hdev), fun dev _ hseg ↦ ?_⟩
  simp only [createOn]
  split
  next hmem => exact mem_createSegment_of_fresh (hfresh dev (h.targets c hc targets htargets dev hmem.1)) hseg
  · exact hseg

/-! ## Two devices -/

section Runs

def blank : State Nat Nat where
  segments _ := []
  superblock _ := none
  mount := none

theorem blank_init : (members Nat Nat).init blank :=
  ⟨rfl, fun _ ↦ ⟨rfl, rfl⟩⟩

/-- Both devices hold segment 0, and the coalescer repacks it on device 1 into segment 1. -/
def repackRun : List (Action Nat Nat) :=
  [.create [0, 1], .allocate .shard, .readOnline 0, .createSegment 0 [], .append 0 .data 0 7,
    .append 1 .data 0 7, .checkpoint, .readTargets, .allocate (.repack 1), .createSegment 1 [],
    .append 1 .data 1 7, .removeSegment 1 .data 0, .crash]

/-- Both devices are mounted, device 1 faults and comes back, and a shard opens a segment. -/
theorem created_segment_is_fresh_faulted :
    ∃ s t m, (members Nat Nat).ReachableUnder JoinsBelow s ∧ s.mount = some m ∧ 1 ∈ m.online ∧
      s.step (.createSegment 2 []) = some t ∧ ⟨.data, 1, [7]⟩ ∈ s.segments 1 ∧
      ⟨.data, 1, [7]⟩ ∈ t.segments 1 := by
  obtain ⟨s, t, hs, hst, ⟨m, hm, honline⟩, hseg⟩ : ∃ s t, (members Nat Nat).ReachableUnder JoinsBelow s ∧
      s.step (.createSegment 2 []) = some t ∧ (∃ m ∈ s.mount, 1 ∈ m.online) ∧ ⟨.data, 1, [7]⟩ ∈ s.segments 1 :=
    Machine.exists_step_of_run blank_init (repackRun ++
      [.openSet [0, 1] false, .fault 1, .onlineVdev 1, .allocate .shard, .readOnline 2]) (by decide +kernel)
  exact ⟨s, t, m, hs, hm, honline, hst, hseg, (created_segment_is_fresh hs hm hst).2 1 _ hseg⟩

/-- Device 0 is mounted alone and device 1 brought online: the counter hands out id 1 again, and
the segment that holds the repacked record is replaced by an empty one. -/
theorem rejoined_segment_is_replaced :
    ∃ s t m, (members Nat Nat).Reachable s ∧ s.mount = some m ∧ 1 ∈ m.online ∧
      s.step (.createSegment 1 []) = some t ∧ ⟨.data, 1, [7]⟩ ∈ s.segments 1 ∧
      ⟨.data, 1, [7]⟩ ∉ t.segments 1 := by
  obtain ⟨s, t, hs, hst, ⟨m, hm, honline⟩, hseg, hlost⟩ : ∃ s t, (members Nat Nat).Reachable s ∧
      s.step (.createSegment 1 []) = some t ∧ (∃ m ∈ s.mount, 1 ∈ m.online) ∧ ⟨.data, 1, [7]⟩ ∈ s.segments 1 ∧
      ⟨.data, 1, [7]⟩ ∉ t.segments 1 :=
    Machine.exists_step_of_run blank_init
      (repackRun ++ [.openSet [0] true, .onlineVdev 1, .allocate .shard, .readOnline 1]) (by decide +kernel)
  exact ⟨s, t, m, hs, hm, honline, hst, hseg, hlost⟩

end Runs

end State

end Lchfs.Devices
