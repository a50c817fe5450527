import Lchfs.Reclaim.Marking

/-!
# Reclaim and the durable root

A mount selects the root of the newest superblock slot, while a pass marks from the root
in memory, which a checkpoint replaces before it writes the slot. A record the slot's
root reaches stays on every device that held it as long as a pass starts only from the
root of the slot, the slot does not move while a pass deletes, and the copy for which a
pass drops a record is durable.
-/

set_option linter.unusedSectionVars false

namespace Lchfs.Reclaim

open Lchfs.Format (Ino ShardId SegmentId)
open Lchfs.Library

variable {Dev Hash : Type} [DecidableEq Dev] [DecidableEq Hash]

namespace State

variable {setup : Setup Dev} {s t : State Dev Hash} {p : Pass Dev Hash} {hash : Hash} {dev : Dev}
  {I : State Dev Hash → Prop} {a : Action Dev Hash} {slot : SuperblockSlot Hash}

/-- Every record the newest slot's root reaches is durable on every device that held it
when the slot was written. -/
def SlotRetained (s : State Dev Hash) : Prop :=
  ∀ slot, s.slot = some slot → ∀ dev, ∀ hash ∈ slot.root.hashes, s.slotHeld dev hash = true →
    s.holdsDurably dev hash = true

/-- The slot on disk has the generation of the namespace. -/
def slotIsCurrent (s : State Dev Hash) : Bool :=
  s.slot.any fun slot ↦ slot.generation = s.generation

/-- The location is within the durable length of its segment. -/
def isDurable (s : State Dev Hash) (dev : Dev) (loc : Location) : Bool :=
  (s.segments dev loc.segmentId).any fun seg ↦ loc.offset < seg.durable

/-- The index entry for which the scan drops its next record, if it is live, is durable. -/
def dropsDurable (s : State Dev Hash) : Bool :=
  match s.pass with
  | none => true
  | some p =>
    match p.stage with
    | .scan r ((hash, _) :: _) _ =>
      hash ∉ p.live ∨ (s.index hash r.dev).all fun loc ↦
        loc.segmentId = r.oldId ∨ s.isDurable r.dev loc
    | _ => true

/-- The next step of the checkpoint writes the superblock. -/
def writesSlot (s : State Dev Hash) : Bool :=
  s.checkpoint.any fun c ↦ c.phase = .superblock

/-- The pass is between its look at the published generation and the deletion. -/
def passIsDeleting (s : State Dev Hash) : Bool :=
  s.pass.any fun p ↦ p.stage.isPastGate

/-- A pass starts from the root of the slot, no slot is written while a pass deletes, and a
live record is dropped only for a durable copy. -/
def FollowsSlot (s : State Dev Hash) : Action Dev Hash → Prop
  | .beginPass => s.slotIsCurrent = true
  | .checkpointStep => s.writesSlot = true → s.passIsDeleting = false
  | .passStep => s.dropsDurable = true
  | _ => True

instance (s : State Dev Hash) (a : Action Dev Hash) : Decidable (s.FollowsSlot a) := by
  cases a <;> unfold FollowsSlot <;> infer_instance

theorem holdsDurably_iff (hcopies : s.Copies) :
    s.holdsDurably dev hash = true ↔ ∃ loc, s.HasAt true dev loc hash := by
  rw [holdsDurably, List.any_eq_true]
  constructor
  · rintro ⟨id, _, hany⟩
    obtain ⟨seg, hseg, hmem⟩ := Option.any_eq_true _ _ |>.1 hany
    obtain ⟨offset, hoffset⟩ := List.mem_iff_getElem?.1 (of_decide_eq_true hmem)
    rw [List.getElem?_take] at hoffset
    split_ifs at hoffset with hlt
    exact ⟨⟨id, offset⟩, seg, hseg, hoffset, fun _ ↦ hlt⟩
  · rintro ⟨loc, seg, hseg, hrecord, hdur⟩
    refine ⟨loc.segmentId, List.mem_range.2 (hcopies.allocated _ _ _ hseg), ?_⟩
    refine Option.any_eq_true _ _ |>.2 ⟨seg, hseg, decide_eq_true ?_⟩
    exact List.mem_iff_getElem?.2 ⟨loc.offset, by rw [List.getElem?_take, if_pos (hdur rfl), hrecord]⟩

theorem DropsDurable.of_dropsDurable (hcopies : s.Copies) (h : s.dropsDurable = true) : s.DropsDurable := by
  intro p r hash _ _ _ loc hp hstage hlive hindex hne
  simp only [dropsDurable, hp, hstage, decide_eq_true_eq] at h
  have hall := h.resolve_left (not_not.2 hlive)
  rw [hindex, Option.all_some, decide_eq_true_eq] at hall
  obtain ⟨seg, hseg, hrecord, _⟩ := hcopies.index hash r.dev loc hindex
  refine ⟨seg, hseg, hrecord, fun _ ↦ ?_⟩
  simpa [isDurable, hseg] using hall.resolve_left hne

/-- How a running pass relates to the slot. -/
structure PassSlot (s : State Dev Hash) (p : Pass Dev Hash) (slot : SuperblockSlot Hash) : Prop where
  generation : p.generation ≤ slot.generation
  root : slot.generation = p.generation → slot.root = p.root
  gate : p.stage.isPastGate = true → slot.generation = p.generation
  marks : ∀ hash ∈ p.root.hashes, Marks s.snapshotTable p hash

/-- The slot is the published root or an older one, it is retained, and a pass that deletes
has marked it. -/
structure SlotInv (s : State Dev Hash) : Prop where
  copies : s.Copies
  generations : s.Generations
  passInv : PassInv true s
  slot : s.slot.isSome
  published : ∀ slot, s.slot = some slot → slot.generation ≤ s.publishedGeneration ∧
    (slot.generation = s.publishedGeneration → slot.root = s.publishedRoot)
  retained : s.SlotRetained
  pass : ∀ p slot, s.pass = some p → s.slot = some slot → s.PassSlot p slot

theorem Mounted.slotInv (h : s.Mounted) : s.SlotInv where
  copies := h.copies
  generations := h.generations
  passInv p hp := by simp [h.pass] at hp
  slot := by simp [h.slot]
  published slot hslot := by
    cases h.slot.symm.trans hslot
    exact ⟨Nat.le_of_eq h.publishedGeneration.symm, fun _ ↦ h.publishedRoot.symm⟩
  retained slot hslot dev hash _ hheld := by rwa [h.slotHeld] at hheld
  pass p slot hp := by simp [h.pass] at hp

theorem PassSlot.environment (h : s.PassSlot p slot) : t.PassSlot p slot :=
  ⟨h.generation, h.root, h.gate, fun hash hroot ↦ (h.marks hash hroot).root hroot⟩

theorem SlotInv.environment (h : s.SlotInv) (ha : a.isPass = false) (hfollows : s.FollowsSlot a)
    (hst : s.step setup a = some t) : t.SlotInv := by
  obtain ⟨hcopies, hgrows, hgen⟩ := environment_step h.copies h.generations ha hst
  have hpublished := environment_published h.generations ha hst
  have hle : ∀ slot : SuperblockSlot Hash, s.slot = some slot →
      slot.generation ≤ t.publishedGeneration ∧
        (slot.generation = t.publishedGeneration → slot.root = t.publishedRoot) := by
    intro slot hslot
    obtain ⟨hslotle, hroot⟩ := h.published slot hslot
    rcases hpublished with ⟨heq, heqRoot⟩ | ⟨heq, _⟩
    · rw [heq, heqRoot]
      exact ⟨hslotle, hroot⟩
    · rw [heq]
      exact ⟨Nat.le_succ_of_le hslotle, fun hsucc ↦ absurd hsucc (by omega)⟩
  have hpassInv := h.passInv.grows h.copies hgrows
  rcases environment_slot ha hst with ⟨hslot, hheld⟩ | ⟨c, rfl, hc, hphase, rfl⟩
  · refine ⟨hcopies, hgen, hpassInv, hslot ▸ h.slot, fun slot hslot' ↦ hle slot (hslot ▸ hslot'),
      fun slot hslot' dev hash hmem hheld' ↦ ?_, fun p slot hp hslot' ↦ ?_⟩
    · rw [holdsDurably_iff hcopies]
      obtain ⟨loc, hloc⟩ := (holdsDurably_iff h.copies).1
        (h.retained slot (hslot ▸ hslot') dev hash hmem (hheld ▸ hheld'))
      exact ⟨loc, hgrows.hasAt _ _ _ _ hloc⟩
    · exact (h.pass p slot (hgrows.pass ▸ hp) (hslot ▸ hslot')).environment
  · -- the slot moves to the published root
    obtain ⟨hcgen, hcroot⟩ := h.generations.published c hc (.inr hphase)
    refine ⟨hcopies, hgen, hpassInv, rfl, fun slot hslot ↦ ?_, fun slot hslot _ hash _ hheld ↦ hheld,
      fun p _ hp hslot ↦ ?_⟩
    · cases hslot
      exact ⟨Nat.le_of_eq hcgen, fun _ ↦ hcroot⟩
    · cases hslot
      have hp : s.pass = some p := hp
      obtain ⟨old, hold⟩ : ∃ old, s.slot = some old := Option.isSome_iff_exists.1 h.slot
      obtain ⟨holdle, holdroot⟩ := h.published old hold
      have hpass := h.pass p old hp hold
      have hnot : p.stage.isPastGate = false := by
        have hidle := hfollows (by simp [writesSlot, hc, hphase])
        simpa [passIsDeleting, hp] using hidle
      refine ⟨?_, fun heq ↦ ?_, fun hgate ↦ absurd (hnot.symm.trans hgate) Bool.noConfusion, fun hash hroot ↦
        (hpass.marks hash hroot).root hroot⟩
      · exact Nat.le_trans hpass.generation (hcgen ▸ holdle)
      · have holdgen : old.generation = p.generation := by
          have hple := hpass.generation
          have : c.generation = p.generation := heq
          omega
        have : c.generation = p.generation := heq
        rw [← hpass.root holdgen, holdroot (by omega)]
        exact hcroot

/-- The records a pass deletes that the slot's root reaches have another durable copy. -/
theorem SlotInv.spare_of_delete {r : Repack Dev Hash} {offset : Nat} (h : s.SlotInv)
    (hp : s.pass = some p) (hstage : p.stage = .delete r) (hslot : s.slot = some slot)
    (hmem : hash ∈ slot.root.hashes) (hin : s.InOld r hash offset) :
    s.Spare true r.dev r.oldId hash := by
  have hpass := h.pass p slot hp hslot
  have hroot := hpass.root (hpass.gate (by simp [hstage]))
  have hlive : hash ∈ p.live :=
    (hpass.marks hash (hroot ▸ hmem)).mem_live (by simp [hstage, Stage.repack])
  have hinv := h.passInv p hp
  rw [hstage] at hinv
  obtain ⟨hrepointed, _⟩ := hinv
  rcases hrepointed.listed hash offset hin with hkept | hdead
  · exact hrepointed.kept hash hkept
  · exact (hrepointed.live hash hdead hlive).elim id (hrepointed.kept hash)

theorem SlotInv.sweeps (h : s.SlotInv) (hfollows : s.FollowsSlot a) (hst : Sweeps setup s a t) : t.SlotInv := by
  have hframe := hst.frame
  have hdur : a = .passStep → true = true → s.DropsDurable := by
    rintro rfl _
    exact .of_dropsDurable h.copies hfollows
  have hswept := hst.swept h.copies h.passInv hdur
  refine ⟨hswept.copies, hframe.generations h.generations, hswept.passInv, hframe.slot ▸ h.slot,
    fun slot hslot ↦ ?_, fun slot hslot dev hash hmem hheld ↦ ?_, fun p' slot hp' hslot ↦ ?_⟩
  · rw [hframe.publishedGeneration, hframe.publishedRoot]
    exact h.published slot (hframe.slot ▸ hslot)
  · have hslot : s.slot = some slot := hframe.slot ▸ hslot
    rw [holdsDurably_iff hswept.copies]
    obtain ⟨loc, hloc⟩ := (holdsDurably_iff h.copies).1
      (h.retained slot hslot dev hash hmem (hframe.slotHeld ▸ hheld))
    rcases hswept.hasAt _ _ _ _ hloc with hloc | ⟨p, r, hp, hstage, rfl, hid⟩
    · exact ⟨loc, hloc⟩
    · obtain ⟨id, _⟩ := loc
      obtain rfl : id = r.oldId := hid
      obtain ⟨loc', hloc', hne⟩ := h.spare_of_delete hp hstage hslot hmem hloc.any
      rcases hswept.hasAt _ _ _ _ hloc' with hloc' | ⟨_, _, hp', hstage', _, hid'⟩
      · exact ⟨loc', hloc'⟩
      · cases hp.symm.trans hp'
        cases hstage.symm.trans hstage'
        exact absurd hid' hne
  · have hslot : s.slot = some slot := hframe.slot ▸ hslot
    obtain ⟨hslotle, hslotroot⟩ := h.published slot hslot
    rcases hst.continues hp' with ⟨rfl, rfl⟩ | ⟨p, hp, hcont⟩
    · -- a pass starts: the slot has the namespace's generation, so no root is being published
      have hgeneration : slot.generation = s.generation := by
        simpa [FollowsSlot, slotIsCurrent, hslot] using hfollows
      have hquiet := h.generations.quiet fun c hc hphase ↦ by
        have := h.generations.publishGeneration c hc hphase
        omega
      refine ⟨Nat.le_of_eq hgeneration.symm, fun _ ↦ ?_, by simp,
        fun hash hroot ↦ .inr (.inl hroot)⟩
      exact (hslotroot (hgeneration.trans hquiet.1)).trans hquiet.2.symm
    · have hpass := h.pass p slot hp hslot
      refine ⟨hcont.generation ▸ hpass.generation, fun heq ↦ ?_, fun hgate ↦ ?_, fun hash hroot ↦ ?_⟩
      · rw [hcont.root]
        exact hpass.root (hcont.generation ▸ heq)
      · rw [hcont.generation]
        rcases hcont.gate hgate with hgate | hpublished
        · exact hpass.gate hgate
        · have := hpass.generation
          omega
      · rw [hframe.snapshotTable]
        exact hcont.marks hash (hpass.marks hash (hcont.root ▸ hroot))

/-- In every run that follows the slot, every record the newest slot's root reaches is still
durable on every device that held it when the slot was written. -/
theorem slot_root_retained (hs : (protocol setup I).ReachableUnder FollowsSlot s) :
    s.SlotRetained := by
  have hinv : s.SlotInv := by
    refine hs.invariant (fun s (hs : s.Mounted ∧ I s) ↦ hs.1.slotInv) ?_
    intro s a t _ h hfollows hst
    cases ha : a.isPass
    · exact h.environment ha hfollows hst
    · exact h.sweeps hfollows (pass_sweeps ha hst)
  exact hinv.retained

end State

section Runs

/-- Two files in three segments. -/
def twoFiles : State Unit Nat :=
  .recovered oneDevice (fun _ ↦ [[7], [5], [6]]) 3 [(1, [7]), (2, [5, 6])] []

/-- A pass that marks three hashes and reclaims the first segment. -/
def reclaimRun : List (Action Unit Nat) :=
  .beginPass :: List.replicate 6 .passStep ++ [.beginDevice (), .beginRepack 0] ++
    List.replicate 11 .passStep

theorem twoFiles_mounted : twoFiles.Mounted :=
  State.recovered_mounted oneDevice _ 3 _ _ fun _ ↦ le_rfl

namespace State

theorem slot_root_retained_reclaimRun :
    ∃ s, (protocol oneDevice fun _ ↦ True).runUnder FollowsSlot twoFiles
        (rewriteRun 9 ++ publishRun ++ .checkpointStep :: reclaimRun) = some s ∧
      s.segments () 0 = none ∧ s.SlotRetained := by
  obtain ⟨s, hs, hgone⟩ : ∃ s, (protocol oneDevice fun _ ↦ True).runUnder FollowsSlot twoFiles
      (rewriteRun 9 ++ publishRun ++ .checkpointStep :: reclaimRun) = some s ∧ s.segments () 0 = none :=
    Machine.exists_run (by decide +kernel)
  exact ⟨s, hs, hgone, slot_root_retained (.of_run ⟨twoFiles_mounted, trivial⟩ hs)⟩

/-- A pass that starts after a checkpoint has published its root and before it has written the
superblock deletes a record that only the root on disk reaches. -/
theorem reclaim_outruns_slot :
    ∃ s slot, (protocol oneDevice fun _ ↦ True).Reachable s ∧ s.slot = some slot ∧
      7 ∈ slot.root.hashes ∧ s.slotHeld () 7 = true ∧ s.holdsDurably () 7 = false := by
  exact Machine.exists_step_of_run ⟨twoFiles_mounted, trivial⟩ (rewriteRun 9 ++ publishRun ++ reclaimRun)
    (by decide +kernel)

end State

end Runs

end Lchfs.Reclaim
