import Lchfs.Reclaim.PassSteps

/-!
# Repacking a segment

What a pass knows about the segment it repacks, stage by stage, whatever the other
threads do. Every record of the segment ends up kept or dead; a dead record whose hash
the mark found live has another copy on the device; and before the segment goes, no
index entry of the device points into it.
-/

set_option linter.unusedSectionVars false

namespace Lchfs.Reclaim

open Lchfs.Format (Ino ShardId SegmentId)
open Lchfs.Library
open List Option

variable {Dev Hash : Type} [DecidableEq Dev] [DecidableEq Hash]

/-- The repack a pass is in. -/
def Stage.repack : Stage Dev Hash → Option (Repack Dev Hash)
  | .scan r _ _ => some r
  | .recheck r _ => some r
  | .copy r => some r
  | .repointIndex r _ => some r
  | .repointCache r _ => some r
  | .removeCache r _ _ => some r
  | .loadGeneration r _ => some r
  | .checkPins r _ _ => some r
  | .restore r _ => some r
  | .forget r => some r
  | .delete r => some r
  | _ => none

namespace State

variable {setup : Setup Dev} {s t : State Dev Hash} {p : Pass Dev Hash} {r : Repack Dev Hash}
  {dur : Bool} {hash : Hash} {live : List Hash} {todo : List (Hash × Nat)} {dropped : List Hash} {newId : SegmentId}
  {stage : Stage Dev Hash}

/-- The segment is there, sealed, and past the gate. -/
structure Old (s : State Dev Hash) (r : Repack Dev Hash) : Prop where
  sealed : ∃ seg, s.segments r.dev r.oldId = some seg ∧ seg.isSealed = true
  mayReclaim : s.mayReclaim r.oldId = true

/-- The device has the record in the segment that is repacked. -/
def InOld (s : State Dev Hash) (r : Repack Dev Hash) (hash : Hash) (offset : Nat) : Prop :=
  s.HasAt false r.dev ⟨r.oldId, offset⟩ hash

/-- While the scan runs. A live record that was dropped has another copy, or one of its
records in this segment is still to be scanned. -/
structure Scanning (dur : Bool) (s : State Dev Hash) (live : List Hash) (r : Repack Dev Hash)
    (todo : List (Hash × Nat)) (dropped : List Hash) : Prop where
  old : s.Old r
  listed : ∀ hash offset, s.InOld r hash offset →
    (hash, offset) ∈ todo ∨ hash ∈ r.kept ∨ hash ∈ dropped
  dead : r.dead = []
  live : ∀ hash ∈ dropped, hash ∈ live → s.Spare dur r.dev r.oldId hash ∨ hash ∈ r.kept ∨
    ∃ offset, (hash, offset) ∈ todo ∧ ∃ loc, s.index hash r.dev = some loc ∧
      (loc = ⟨r.oldId, offset⟩ ∨ loc.segmentId ≠ r.oldId)

/-- While the pins are rechecked. -/
structure Rechecking (dur : Bool) (s : State Dev Hash) (live : List Hash) (r : Repack Dev Hash)
    (dropped : List Hash) : Prop where
  old : s.Old r
  listed : ∀ hash offset, s.InOld r hash offset → hash ∈ r.kept ∨ hash ∈ r.dead ∨ hash ∈ dropped
  live : ∀ hash, hash ∈ dropped ∨ hash ∈ r.dead → hash ∈ live →
    s.Spare dur r.dev r.oldId hash ∨ hash ∈ r.kept

/-- The records are sorted into kept and dead ones. -/
structure Sorted (dur : Bool) (s : State Dev Hash) (live : List Hash) (r : Repack Dev Hash) :
    Prop where
  old : s.Old r
  listed : ∀ hash offset, s.InOld r hash offset → hash ∈ r.kept ∨ hash ∈ r.dead
  live : ∀ hash ∈ r.dead, hash ∈ live → s.Spare dur r.dev r.oldId hash ∨ hash ∈ r.kept

/-- The kept records are copied. -/
structure Relocated (dur : Bool) (s : State Dev Hash) (live : List Hash) (r : Repack Dev Hash) :
    Prop extends Sorted dur s live r where
  kept : ∀ hash ∈ r.kept, s.Spare dur r.dev r.oldId hash

/-- The index names the copies of the kept records. -/
structure Repointed (dur : Bool) (s : State Dev Hash) (live : List Hash) (r : Repack Dev Hash) :
    Prop extends Relocated dur s live r where
  index : ∀ hash ∈ r.kept, ∀ loc, s.index hash r.dev = some loc → loc.segmentId ≠ r.oldId

/-- The new segment holds the kept records. -/
def NewSegment (s : State Dev Hash) (r : Repack Dev Hash) (newId : SegmentId) : Prop :=
  newId ≠ r.oldId ∧ s.segments r.dev newId = some ⟨r.kept, true, r.kept.length⟩

/-- The index has forgotten the dead records. -/
def Forgotten (s : State Dev Hash) (r : Repack Dev Hash) : Prop :=
  ∀ hash ∈ r.dead, ∀ loc, s.index hash r.dev = some loc → loc.segmentId ≠ r.oldId

/-- What holds of a pass in each of its stages. -/
def RepackInv (dur : Bool) (s : State Dev Hash) (live : List Hash) : Stage Dev Hash → Prop
  | .scan r todo dropped => Scanning dur s live r todo dropped
  | .recheck r dropped => Rechecking dur s live r dropped
  | .copy r => Sorted dur s live r
  | .repointIndex r newId => Relocated dur s live r ∧ s.NewSegment r newId
  | .repointCache r newId => Repointed dur s live r ∧ s.NewSegment r newId
  | .removeCache r _ _ => Repointed dur s live r
  | .loadGeneration r _ => Repointed dur s live r
  | .checkPins r _ _ => Repointed dur s live r
  | .restore r _ => Repointed dur s live r
  | .forget r => Repointed dur s live r
  | .delete r => Repointed dur s live r ∧ s.Forgotten r
  | _ => True

/-- The invariant of the running pass. -/
def PassInv (dur : Bool) (s : State Dev Hash) : Prop :=
  ∀ p, s.pass = some p → RepackInv dur s p.live p.stage

/-- What the steps of other threads, and most steps of the pass, leave of a segment that is
repacked: the segment itself, the other copies, and index entries that point into it only
where they did before. -/
structure Keeps (s t : State Dev Hash) (r : Repack Dev Hash) : Prop where
  old : t.segments r.dev r.oldId = s.segments r.dev r.oldId
  hasAt : ∀ dur loc hash, s.HasAt dur r.dev loc hash → t.HasAt dur r.dev loc hash
  mayReclaim : s.mayReclaim r.oldId = true → t.mayReclaim r.oldId = true
  index : ∀ hash loc, t.index hash r.dev = some loc →
    s.index hash r.dev = some loc ∨ loc.segmentId ≠ r.oldId

/-- No index entry of the device is taken away. -/
def KeepsNames (s t : State Dev Hash) (r : Repack Dev Hash) : Prop :=
  ∀ hash loc, s.index hash r.dev = some loc →
    ∃ loc', t.index hash r.dev = some loc' ∧ (loc' = loc ∨ loc'.segmentId ≠ r.oldId)

theorem Old.not_isOpen (h : s.Old r) (hcopies : s.Copies) : ¬s.IsOpen r.oldId := by
  obtain ⟨⟨_, hseg, hsealed⟩, _⟩ := h
  intro ho
  rw [(hcopies.open_iff _ _ _ hseg).2 ho] at hsealed
  simp at hsealed

theorem Grows.keeps (hst : Grows setup s t) (hcopies : s.Copies) (h : s.Old r) :
    Keeps s t r ∧ KeepsNames s t r := by
  have hclosed := h.not_isOpen hcopies
  obtain ⟨⟨_, hseg, hsealed⟩, _⟩ := h
  refine ⟨⟨?_, fun dur loc hash ↦ hst.hasAt dur r.dev loc hash, fun hmay ↦ ?_, fun hash loc hloc ↦ ?_⟩,
    fun hash loc hloc ↦ ?_⟩
  · rw [hst.kept _ _ _ hseg hsealed, hseg]
  · unfold State.mayReclaim at hmay ⊢
    rw [hst.stamp _ hclosed]
    split
    · rfl
    · next hgen =>
      simp only [hgen, decide_eq_true_eq] at hmay ⊢
      exact Nat.le_trans hmay hst.publishedGeneration
  · rcases hst.index hash r.dev with heq | ⟨_, hloc', ho⟩
    · exact .inl (heq ▸ hloc)
    · cases hloc'.symm.trans hloc
      exact .inr fun heq ↦ hclosed (heq ▸ ho)
  · rcases hst.index hash r.dev with heq | ⟨loc', hloc', ho⟩
    · exact ⟨loc, heq ▸ hloc, .inl rfl⟩
    · exact ⟨loc', hloc', .inr fun heq ↦ hclosed (heq ▸ ho)⟩

section

variable (hst : Keeps s t r)

include hst

theorem Old.keeps (h : s.Old r) : t.Old r :=
  ⟨by rw [hst.old]; exact h.sealed, hst.mayReclaim h.mayReclaim⟩

theorem Keeps.inOld {offset : Nat} : t.InOld r hash offset ↔ s.InOld r hash offset := by
  simp only [InOld, HasAt, hst.old]

theorem Spare.keeps (h : s.Spare dur r.dev r.oldId hash) : t.Spare dur r.dev r.oldId hash := by
  obtain ⟨loc, hloc, hne⟩ := h
  exact ⟨loc, hst.hasAt _ _ _ hloc, hne⟩

theorem Scanning.keeps (hnames : KeepsNames s t r) (h : Scanning dur s live r todo dropped) :
    Scanning dur t live r todo dropped := by
  refine ⟨h.old.keeps hst, fun hash offset hin ↦ h.listed hash offset (hst.inOld.1 hin),
    h.dead, fun hash hd hlive ↦ ?_⟩
  refine (h.live hash hd hlive).imp (·.keeps hst) (Or.imp_right ?_)
  rintro ⟨offset, hmem, loc, hloc, hcase⟩
  obtain ⟨loc', hloc', heq | hne⟩ := hnames hash loc hloc
  · exact ⟨offset, hmem, loc', hloc', heq ▸ hcase⟩
  · exact ⟨offset, hmem, loc', hloc', .inr hne⟩

theorem Rechecking.keeps (h : Rechecking dur s live r dropped) : Rechecking dur t live r dropped :=
  ⟨h.old.keeps hst, fun hash offset hin ↦ h.listed hash offset (hst.inOld.1 hin),
    fun hash hd hlive ↦ (h.live hash hd hlive).imp_left (·.keeps hst)⟩

theorem Sorted.keeps (h : Sorted dur s live r) : Sorted dur t live r :=
  ⟨h.old.keeps hst, fun hash offset hin ↦ h.listed hash offset (hst.inOld.1 hin),
    fun hash hd hlive ↦ (h.live hash hd hlive).imp_left (·.keeps hst)⟩

theorem Relocated.keeps (h : Relocated dur s live r) : Relocated dur t live r :=
  ⟨h.toSorted.keeps hst, fun hash hk ↦ (h.kept hash hk).keeps hst⟩

theorem Repointed.keeps (h : Repointed dur s live r) : Repointed dur t live r :=
  ⟨h.toRelocated.keeps hst, fun hash hk loc hloc ↦ (hst.index hash loc hloc).elim (h.index hash hk loc) id⟩

theorem Forgotten.keeps (h : s.Forgotten r) : t.Forgotten r := fun hash hd loc hloc ↦
  (hst.index hash loc hloc).elim (h hash hd loc) id

end

theorem RepackInv.old (h : RepackInv dur s live stage) (hr : stage.repack = some r) : s.Old r := by
  cases stage <;> simp only [Stage.repack, reduceCtorEq, some.injEq] at hr <;> subst hr
  case scan | recheck | copy | removeCache | loadGeneration | checkPins | restore | forget => exact h.old
  all_goals exact h.1.old

/-- What a pass knows of its segment stays true in every step that keeps the segment. -/
theorem RepackInv.keeps (h : RepackInv dur s live stage)
    (hst : ∀ r, stage.repack = some r → Keeps s t r ∧ KeepsNames s t r)
    (hnew : ∀ dev id seg, s.segments dev id = some seg → seg.isSealed = true →
      t.segments dev id = some seg) : RepackInv dur t live stage := by
  cases stage
  case scan => exact Scanning.keeps (hst _ rfl).1 (hst _ rfl).2 h
  case recheck => exact Rechecking.keeps (hst _ rfl).1 h
  case copy => exact Sorted.keeps (hst _ rfl).1 h
  case repointIndex => exact ⟨h.1.keeps (hst _ rfl).1, h.2.1, hnew _ _ _ h.2.2 rfl⟩
  case repointCache => exact ⟨h.1.keeps (hst _ rfl).1, h.2.1, hnew _ _ _ h.2.2 rfl⟩
  case delete => exact ⟨h.1.keeps (hst _ rfl).1, Forgotten.keeps (hst _ rfl).1 h.2⟩
  case snapshots | marking | markingPins | idle | device => trivial
  all_goals exact Repointed.keeps (hst _ rfl).1 h

theorem PassInv.grows (h : PassInv dur s) (hcopies : s.Copies) (hst : Grows setup s t) :
    PassInv dur t := by
  intro p hp
  have hinv := h p (hst.pass ▸ hp)
  exact hinv.keeps (fun r hr ↦ hst.keeps hcopies (hinv.old hr)) hst.kept

section PassStep

variable {dev : Dev} {loc : Location}

/-- A change of the cache and the stage. -/
theorem RepackInv.setStage {cache : Hash → Option (Location × Dev)} (h : RepackInv dur s p.live stage) :
    PassInv dur { s with cache := cache, pass := some { p with stage := stage } } := by
  intro _ hp'
  cases hp'
  exact h.keeps (fun r _ ↦ ⟨⟨rfl, fun _ _ _ h ↦ h, id, fun _ _ h ↦ .inl h⟩, fun _ loc h ↦ ⟨loc, h, .inl rfl⟩⟩)
    fun _ _ _ h _ ↦ h

/-- A scan starts with every record of the segment to do. -/
theorem beginRepack_scanning {seg : Segment Hash} {bitmap : List Location}
    {id : SegmentId} (hseg : s.segments dev id = some seg) (hsealed : seg.isSealed = true)
    (hmay : s.mayReclaim id = true) : Scanning dur s live ⟨dev, bitmap, id, [], []⟩ seg.records.zipIdx [] := by
  refine ⟨⟨⟨seg, hseg, hsealed⟩, hmay⟩, fun _ _ hin ↦ .inl ?_, rfl, by simp⟩
  obtain ⟨_, hseg', hrecord, _⟩ := hin
  cases hseg.symm.trans hseg'
  exact mem_zipIdx_iff_getElem?.2 hrecord

theorem Scanning.recheck (h : Scanning dur s live r [] dropped) : Rechecking dur s live r dropped := by
  refine ⟨h.old, fun hash offset hin ↦ ?_, fun hash hd hlive ↦ ?_⟩
  · have := h.listed hash offset hin
    simp only [not_mem_nil, false_or] at this
    exact this.imp_right .inr
  · have := h.live hash (hd.resolve_right (by simp [h.dead])) hlive
    simpa using this

section

variable {offset : Nat}

section

variable (h : Scanning dur s live r ((hash, offset) :: todo) dropped)

include h

theorem Scanning.keep : Scanning dur s live { r with kept := r.kept ++ [hash] } todo dropped := by
  refine ⟨⟨h.old.sealed, h.old.mayReclaim⟩, fun hash' offset' hin ↦ ?_, h.dead, fun hash' hd hlive ↦ ?_⟩
  · rcases h.listed hash' offset' hin with hmem | hkept | hdropped
    · rcases mem_cons.1 hmem with heq | hmem
      · obtain ⟨rfl, _⟩ := Prod.mk.inj heq
        exact .inr (.inl (by simp))
      · exact .inl hmem
    · exact .inr (.inl (mem_append_left _ hkept))
    · exact .inr (.inr hdropped)
  · rcases h.live hash' hd hlive with hspare | hkept | ⟨offset', hmem, hloc⟩
    · exact .inl hspare
    · exact .inr (.inl (mem_append_left _ hkept))
    · rcases mem_cons.1 hmem with heq | hmem
      · obtain ⟨rfl, _⟩ := Prod.mk.inj heq
        exact .inr (.inl (by simp))
      · exact .inr (.inr ⟨offset', hmem, hloc⟩)

/-- A dropped record that is live: the index of the device names another copy. It is a spare
one, or it is in this segment and still to be scanned. -/
theorem Scanning.drop_live (hcopies : s.Copies) (hlive : hash ∈ live)
    (hindex : s.index hash r.dev = some loc) (hne : loc ≠ ⟨r.oldId, offset⟩)
    (hdur : dur = true → loc.segmentId ≠ r.oldId → s.HasAt true r.dev loc hash) :
    s.Spare dur r.dev r.oldId hash ∨ hash ∈ r.kept ∨
      ∃ offset, (hash, offset) ∈ todo ∧ ∃ loc, s.index hash r.dev = some loc ∧
        (loc = ⟨r.oldId, offset⟩ ∨ loc.segmentId ≠ r.oldId) := by
  have hat := hcopies.index hash r.dev loc hindex
  by_cases hid : loc.segmentId = r.oldId
  · obtain ⟨id, offset'⟩ := loc
    obtain rfl : id = r.oldId := hid
    have hoffset : offset' ≠ offset := fun heq ↦ hne (by rw [heq])
    have hstill : (hash, offset') ∈ (hash, offset) :: todo → ∃ offset, (hash, offset) ∈ todo ∧
        ∃ loc, s.index hash r.dev = some loc ∧ (loc = ⟨r.oldId, offset⟩ ∨ loc.segmentId ≠ r.oldId) :=
      fun hmem ↦ ⟨offset', (mem_cons.1 hmem).resolve_left (by simp [hoffset]), _, hindex, .inl rfl⟩
    rcases h.listed hash offset' hat with hmem | hkept | hdropped
    · exact .inr (.inr (hstill hmem))
    · exact .inr (.inl hkept)
    · refine (h.live hash hdropped hlive).imp_right (Or.imp_right ?_)
      rintro ⟨offset'', hmem, loc, hloc, hcase⟩
      obtain rfl : (⟨r.oldId, offset'⟩ : Location) = loc := some.inj (hindex.symm.trans hloc)
      obtain rfl : offset' = offset'' := by simpa using hcase
      exact hstill hmem
  · refine .inl ⟨loc, ?_, hid⟩
    cases dur
    · exact hat
    · exact hdur rfl hid

theorem Scanning.drop (hcopies : s.Copies)
    (hother : hash ∈ live → ∃ loc, s.index hash r.dev = some loc ∧ loc ≠ ⟨r.oldId, offset⟩ ∧
      (dur = true → loc.segmentId ≠ r.oldId → s.HasAt true r.dev loc hash)) :
    Scanning dur s live r todo (dropped ++ [hash]) := by
  refine ⟨h.old, fun hash' offset' hin ↦ ?_, h.dead, fun hash' hd hlive ↦ ?_⟩
  · rcases h.listed hash' offset' hin with hmem | hkept | hdropped
    · rcases mem_cons.1 hmem with heq | hmem
      · obtain ⟨rfl, _⟩ := Prod.mk.inj heq
        exact .inr (.inr (by simp))
      · exact .inl hmem
    · exact .inr (.inl hkept)
    · exact .inr (.inr (mem_append_left _ hdropped))
  · by_cases heq : hash' = hash
    · subst heq
      obtain ⟨_, hindex, hne, hdur⟩ := hother hlive
      exact h.drop_live hcopies hlive hindex hne hdur
    · have hdropped : hash' ∈ dropped := by simpa [heq] using hd
      refine (h.live hash' hdropped hlive).imp_right (Or.imp_right ?_)
      rintro ⟨offset', hmem, hloc⟩
      exact ⟨offset', (mem_cons.1 hmem).resolve_left (by simp [heq]), hloc⟩

end

end

/-- The index entry that lets the scan drop a live record is durable. -/
def DropsDurable (s : State Dev Hash) : Prop :=
  ∀ p r hash offset todo dropped loc, s.pass = some p →
    p.stage = .scan r ((hash, offset) :: todo) dropped → hash ∈ p.live →
    s.index hash r.dev = some loc → loc.segmentId ≠ r.oldId → s.HasAt true r.dev loc hash

theorem index_of_otherCopyOn (h : s.otherCopyOn dev hash loc = true) :
    ∃ loc', s.index hash dev = some loc' ∧ loc' ≠ loc := by
  rw [otherCopyOn, Option.any_eq_true] at h
  obtain ⟨loc', hloc', hne⟩ := h
  exact ⟨loc', hloc', (of_decide_eq_true hne).1⟩

theorem Rechecking.pull (h : Rechecking dur s live r (hash :: dropped)) :
    Rechecking dur s live { r with kept := r.kept ++ [hash] } dropped := by
  refine ⟨⟨h.old.sealed, h.old.mayReclaim⟩, fun hash' offset hin ↦ ?_, fun hash' hd hlive ↦ ?_⟩
  · rcases h.listed hash' offset hin with hkept | hdead | hdropped
    · exact .inl (mem_append_left _ hkept)
    · exact .inr (.inl hdead)
    · rcases mem_cons.1 hdropped with rfl | hdropped
      · exact .inl (by simp)
      · exact .inr (.inr hdropped)
  · exact (h.live hash' (hd.imp_left (mem_cons_of_mem _)) hlive).imp_right (mem_append_left _)

theorem Rechecking.bury (h : Rechecking dur s live r (hash :: dropped)) :
    Rechecking dur s live { r with dead := r.dead ++ [hash] } dropped := by
  refine ⟨⟨h.old.sealed, h.old.mayReclaim⟩, fun hash' offset hin ↦ ?_, fun hash' hd hlive ↦ ?_⟩
  · rcases h.listed hash' offset hin with hkept | hdead | hdropped
    · exact .inl hkept
    · exact .inr (.inl (mem_append_left _ hdead))
    · rcases mem_cons.1 hdropped with rfl | hdropped
      · exact .inr (.inl (by simp))
      · exact .inr (.inr hdropped)
  · refine h.live hash' ?_ hlive
    rcases hd with hd | hd
    · exact .inl (mem_cons_of_mem _ hd)
    · rcases mem_append.1 hd with hd | hd
      · exact .inr hd
      · exact .inl (by simp_all)

theorem Rechecking.sorted (h : Rechecking dur s live r []) : Sorted dur s live r :=
  ⟨h.old, fun hash offset hin ↦ by simpa using h.listed hash offset hin,
    fun hash hd hlive ↦ h.live hash (.inr hd) hlive⟩

/-- The stages that follow one another pass on what is known. -/
theorem RepackInv.turns {stage' : Stage Dev Hash} (h : RepackInv dur s p.live stage)
    (hcopies : s.Copies)
    (hdur : dur = true → ∀ r hash offset todo dropped loc, stage = .scan r ((hash, offset) :: todo) dropped →
      hash ∈ p.live → s.index hash r.dev = some loc → loc.segmentId ≠ r.oldId → s.HasAt true r.dev loc hash)
    (hst : s.Turns p stage stage') : RepackInv dur s p.live stage' := by
  cases hst with
  | snapshots | marked | skip | pinsMarked | restored => trivial
  | keep => exact h.keep
  | @drop r hash offset todo dropped hother =>
    refine h.drop hcopies fun hlive ↦ ?_
    obtain ⟨loc, hloc, hne⟩ := index_of_otherCopyOn (hother hlive)
    exact ⟨loc, hloc, hne, fun hd ↦ hdur hd r hash offset todo dropped loc rfl hlive hloc⟩
  | scanned => exact h.recheck
  | pull => exact h.pull
  | bury => exact h.bury
  | copy => exact h.sorted
  | allDead hkept =>
    -- nothing is kept, so nothing has to be copied
    exact ⟨⟨h.sorted, by simp [hkept]⟩, by simp [hkept]⟩
  | outside | removed | stale | current | pinned | unpinned | checked => exact h

/-- The copies of the kept records. -/
theorem copyKept_spec (h : Sorted dur s p.live r) (hcopies : s.Copies) :
    (s.copyKept p r).Copies ∧ PassInv dur (s.copyKept p r) ∧
      (∀ dur dev loc hash, s.HasAt dur dev loc hash → (s.copyKept p r).HasAt dur dev loc hash) ∧
      ∀ id < s.nextSegmentId, (s.copyKept p r).sealGenerations id = s.sealGenerations id := by
  set t := s.copyKept p r with ht
  have hnew : t.segments r.dev s.nextSegmentId = some ⟨r.kept, true, r.kept.length⟩ := by
    simp [ht, copyKept, setStage]
  have hother : ∀ dev id, id ≠ s.nextSegmentId → t.segments dev id = s.segments dev id := by
    intro dev _ hne
    by_cases hdev : dev = r.dev
    · subst hdev
      simp [ht, copyKept, setStage, hne]
    · simp [ht, copyKept, setStage, hdev]
  have hcases : ∀ {dev id seg}, t.segments dev id = some seg →
      id = s.nextSegmentId ∧ seg = ⟨r.kept, true, r.kept.length⟩ ∨ s.segments dev id = some seg := by
    intro dev id _ hseg
    by_cases hid : id = s.nextSegmentId
    · subst hid
      by_cases hdev : dev = r.dev
      · subst hdev
        exact .inl ⟨rfl, some.inj (hseg.symm.trans hnew)⟩
      · right
        simpa [ht, copyKept, setStage, hdev] using hseg
    · exact .inr (hother dev id hid ▸ hseg)
  have hkept : ∀ {dev id seg}, s.segments dev id = some seg → t.segments dev id = some seg :=
    fun {dev id seg} hseg ↦ (hother dev id (Nat.ne_of_lt (hcopies.allocated dev id seg hseg))).trans hseg
  have hasAt : ∀ dur dev loc hash, s.HasAt dur dev loc hash → t.HasAt dur dev loc hash := by
    rintro _ _ _ _ ⟨seg, hseg, hrecord⟩
    exact ⟨seg, hkept hseg, hrecord⟩
  have hopened : ∀ {id}, s.IsOpen id → id < s.nextSegmentId := fun ⟨shard, hw⟩ ↦
    (hcopies.writer shard _ hw).1
  have hstamp : ∀ id, id ≠ s.nextSegmentId → t.sealGenerations id = s.sealGenerations id := by
    intro _ hne
    simp [ht, copyKept, setStage, hne]
  have hold : r.oldId < s.nextSegmentId := by
    obtain ⟨_, hseg, _⟩ := h.old.sealed
    exact hcopies.allocated _ _ _ hseg
  have hkeeps : Keeps s t r := by
    refine ⟨hother _ _ (Nat.ne_of_lt hold), fun dur loc hash ↦ hasAt dur r.dev loc hash, fun hmay ↦ ?_,
      fun hash loc hloc ↦ .inl hloc⟩
    unfold State.mayReclaim at hmay ⊢
    rw [hstamp _ (Nat.ne_of_lt hold)]
    exact hmay
  refine ⟨{ hcopies with
    allocated := fun dev id seg hseg ↦ ?_, open_iff := fun dev id seg hseg ↦ ?_
    durable := fun dev id seg hseg hs ↦ ?_, writer := fun shard id hw ↦ ?_
    mirrored := fun id ho dev dev' ↦ ?_
    pending := fun shard e he ↦ ⟨(hcopies.pending shard e he).1, fun dev ↦
      hasAt _ _ _ _ ((hcopies.pending shard e he).2 dev)⟩
    index := fun hash dev loc hloc ↦ hasAt _ _ _ _ (hcopies.index hash dev loc hloc)
    unstamped := fun id hid ↦ ?_ }, ?_, hasAt, fun id hlt ↦ hstamp id (Nat.ne_of_lt hlt)⟩
  · rcases hcases hseg with ⟨rfl, _⟩ | hseg
    · exact Nat.lt_succ_self _
    · exact Nat.lt_succ_of_lt (hcopies.allocated dev id seg hseg)
  · rcases hcases hseg with ⟨rfl, rfl⟩ | hseg
    · have hclosed : ¬s.IsOpen s.nextSegmentId := fun ho ↦ Nat.lt_irrefl _ (hopened ho)
      exact ⟨fun hs ↦ absurd hs (by simp), fun ho ↦ absurd ho hclosed⟩
    · exact hcopies.open_iff dev id seg hseg
  · rcases hcases hseg with ⟨_, rfl⟩ | hseg
    · rfl
    · exact hcopies.durable dev id seg hseg hs
  · refine ⟨Nat.lt_succ_of_lt (hcopies.writer shard id hw).1, fun dev ↦ ?_⟩
    obtain ⟨seg, hseg, hs⟩ := (hcopies.writer shard id hw).2 dev
    exact ⟨seg, hkept hseg, hs⟩
  · have hne := Nat.ne_of_lt (hopened ho)
    rw [hother dev id hne, hother dev' id hne]
    exact hcopies.mirrored id ho dev dev'
  · have hne : id ≠ s.nextSegmentId := by
      rcases hid with ho | hge
      · exact Nat.ne_of_lt (hopened ho)
      · exact Nat.ne_of_gt hge
    rw [hstamp id hne]
    exact hcopies.unstamped id (hid.imp_right Nat.le_of_succ_le)
  · intro _ hp'
    cases hp'
    refine ⟨⟨h.keeps hkeeps, fun _ hk ↦ ?_⟩, Nat.ne_of_gt hold, hnew⟩
    obtain ⟨i, hi, rfl⟩ := getElem_of_mem hk
    exact ⟨⟨s.nextSegmentId, i⟩, ⟨_, hnew, getElem?_eq_getElem hi, fun _ ↦ hi⟩, Nat.ne_of_gt hold⟩

theorem foldl_repointEntry (entries : List (Hash × Nat)) (index : Hash → Dev → Option Location)
    (dev : Dev) (newId : SegmentId) (hash : Hash) : (∃ entry ∈ entries, entry.1 = hash ∧
      entries.foldl (repointEntry dev newId) index hash dev = some ⟨newId, entry.2⟩) ∨
      (∀ entry ∈ entries, entry.1 ≠ hash) ∧
        entries.foldl (repointEntry dev newId) index hash dev = index hash dev :=
  foldl_read (repointEntry dev newId) (fun index ↦ index hash dev) (·.1 = hash)
    (fun entry ↦ some ⟨newId, entry.2⟩) (fun index entry heq ↦ by simp [repointEntry, heq])
    (fun index _ hne ↦ by simp [repointEntry, Ne.symm hne]) entries index

theorem foldl_repointEntry_ne (entries : List (Hash × Nat)) (index : Hash → Dev → Option Location)
    {dev' : Dev} (newId : SegmentId) (hash : Hash) (hne : dev' ≠ dev) :
    entries.foldl (repointEntry dev newId) index hash dev' = index hash dev' := by
  induction entries generalizing index with
  | nil => rfl
  | cons entry _ ih =>
    rw [foldl_cons, ih]
    by_cases heq : hash = entry.1 <;> simp [repointEntry, heq, hne]

theorem repointIndex_spec (h : Relocated dur s p.live r) (hnew : s.NewSegment r newId)
    (hcopies : s.Copies) :
    (s.repointIndex p r newId).Copies ∧ PassInv dur (s.repointIndex p r newId) := by
  set t := s.repointIndex p r newId
  have hindex : ∀ hash loc, t.index hash r.dev = some loc →
      (∃ offset, loc = ⟨newId, offset⟩ ∧ r.kept[offset]? = some hash) ∨
        hash ∉ r.kept ∧ s.index hash r.dev = some loc := by
    intro hash _ hloc
    rcases foldl_repointEntry r.kept.zipIdx s.index r.dev newId hash with
      ⟨entry, hentry, rfl, heq⟩ | ⟨hnone, heq⟩
    · refine .inl ⟨entry.2, some.inj (hloc.symm.trans heq), ?_⟩
      exact mem_zipIdx_iff_getElem?.1 hentry
    · refine .inr ⟨fun hk ↦ ?_, heq ▸ hloc⟩
      obtain ⟨i, hi, rfl⟩ := getElem_of_mem hk
      exact hnone (r.kept[i], i) (mem_zipIdx_iff_getElem?.2 (by simp [hi])) rfl
  have hkeeps : Keeps s t r := by
    refine ⟨rfl, fun _ _ _ h ↦ h, fun h ↦ h, fun hash loc hloc ↦ ?_⟩
    rcases hindex hash loc hloc with ⟨_, rfl, _⟩ | ⟨_, hloc⟩
    · exact .inr hnew.1
    · exact .inl hloc
  refine ⟨{ hcopies with index := fun hash dev loc hloc ↦ ?_ }, fun _ hp' ↦ ?_⟩
  · by_cases hdev : dev = r.dev
    · subst hdev
      rcases hindex hash loc hloc with ⟨_, rfl, hrecord⟩ | ⟨_, hloc⟩
      · exact ⟨_, hnew.2, hrecord, by simp⟩
      · exact hcopies.index hash r.dev loc hloc
    · refine hcopies.index hash dev loc ?_
      rw [← foldl_repointEntry_ne r.kept.zipIdx s.index newId hash hdev]
      exact hloc
  · cases hp'
    refine ⟨⟨h.keeps hkeeps, fun hash hk loc hloc ↦ ?_⟩, hnew⟩
    rcases hindex hash loc hloc with ⟨_, rfl, _⟩ | ⟨hnot, _⟩
    · exact hnew.1
    · exact absurd hk hnot

theorem forgetSegmentRecords_spec (h : Repointed dur s p.live r) (hcopies : s.Copies) :
    (s.forgetSegmentRecords p r).Copies ∧ PassInv dur (s.forgetSegmentRecords p r) := by
  set t := s.forgetSegmentRecords p r with ht
  have hindex : ∀ {hash dev loc}, t.index hash dev = some loc →
      s.index hash dev = some loc ∧ (hash ∈ r.dead → dev = r.dev → loc.segmentId ≠ r.oldId) := by
    intro _ _ _ hloc
    simp only [ht, forgetSegmentRecords, setStage] at hloc
    split_ifs at hloc with hcase
    · rw [filter_eq_some_iff] at hloc
      exact ⟨hloc.1, fun _ _ ↦ by simpa using hloc.2⟩
    · exact ⟨hloc, fun hd hdev ↦ absurd ⟨hd, hdev⟩ hcase⟩
  have hkeeps : Keeps s t r :=
    ⟨rfl, fun _ _ _ h ↦ h, fun h ↦ h, fun hash loc hloc ↦ .inl (hindex hloc).1⟩
  refine ⟨{ hcopies with index := fun hash dev loc hloc ↦ hcopies.index hash dev loc (hindex hloc).1 },
    fun _ hp' ↦ ?_⟩
  cases hp'
  exact ⟨h.keeps hkeeps, fun _ hd _ hloc ↦ (hindex hloc).2 hd rfl⟩

/-- Deleting the segment takes away the copies in it and no others. -/
theorem removeSegment_spec (h : Repointed dur s p.live r) (hforgotten : s.Forgotten r)
    (hcopies : s.Copies) : (s.removeSegment p r).Copies ∧
      ∀ dur dev loc hash, s.HasAt dur dev loc hash → dev = r.dev ∧ loc.segmentId = r.oldId ∨
        (s.removeSegment p r).HasAt dur dev loc hash := by
  set t := s.removeSegment p r with ht
  have hkept : ∀ {dev id}, ¬(dev = r.dev ∧ id = r.oldId) → t.segments dev id = s.segments dev id := by
    intro dev id hne
    by_cases hdev : dev = r.dev
    · subst hdev
      have hid : id ≠ r.oldId := fun hid ↦ hne ⟨rfl, hid⟩
      simp [ht, removeSegment, setStage, hid]
    · simp [ht, removeSegment, setStage, hdev]
  have hcases : ∀ {dev id seg}, t.segments dev id = some seg → s.segments dev id = some seg := by
    intro dev id _ hseg
    by_cases hcase : dev = r.dev ∧ id = r.oldId
    · obtain ⟨rfl, rfl⟩ := hcase
      simp [ht, removeSegment, setStage] at hseg
    · exact hkept hcase ▸ hseg
  have hclosed := h.old.not_isOpen hcopies
  have hasAt : ∀ {dur dev loc hash}, ¬(dev = r.dev ∧ loc.segmentId = r.oldId) →
      s.HasAt dur dev loc hash → t.HasAt dur dev loc hash := by
    rintro _ _ _ _ hne ⟨seg, hseg, hrecord⟩
    exact ⟨seg, (hkept hne).trans hseg, hrecord⟩
  refine ⟨{ hcopies with
    allocated := fun dev id seg hseg ↦ hcopies.allocated dev id seg (hcases hseg)
    open_iff := fun dev id seg hseg ↦ hcopies.open_iff dev id seg (hcases hseg)
    durable := fun dev id seg hseg hs ↦ hcopies.durable dev id seg (hcases hseg) hs
    writer := fun shard id hw ↦ ⟨(hcopies.writer shard id hw).1, fun dev ↦ ?_⟩
    mirrored := fun id ho dev dev' ↦ ?_, pending := fun shard e he ↦ ?_
    index := fun hash dev loc hloc ↦ ?_ }, fun _ dev loc hash hat ↦ ?_⟩
  · rw [hkept fun hcase ↦ hclosed ⟨shard, hcase.2 ▸ hw⟩]
    exact (hcopies.writer shard id hw).2 dev
  · have hne : ∀ dev, ¬(dev = r.dev ∧ id = r.oldId) := fun _ hcase ↦ hclosed (hcase.2 ▸ ho)
    rw [hkept (hne dev), hkept (hne dev')]
    exact hcopies.mirrored id ho dev dev'
  · have hpending := hcopies.pending shard e he
    exact ⟨hpending.1, fun dev ↦ hasAt (fun hcase ↦ hclosed ⟨shard, hcase.2 ▸ hpending.1⟩)
      (hpending.2 dev)⟩
  · have hat := hcopies.index hash dev loc hloc
    refine hasAt ?_ hat
    -- every record of the segment is kept or dead, and the index has let go of both
    rintro ⟨rfl, hid⟩
    obtain ⟨id, offset⟩ := loc
    obtain rfl : id = r.oldId := hid
    rcases h.listed hash offset hat with hk | hd
    · exact h.index hash hk _ hloc rfl
    · exact hforgotten hash hd _ hloc rfl
  · by_cases hcase : dev = r.dev ∧ loc.segmentId = r.oldId
    · exact .inl hcase
    · exact .inr (hasAt hcase hat)

/-- What one action of the coalescer does to the copies: the books stay in order, the pass
knows what its new stage says, and copies go only with the segment it deletes. -/
structure Swept (dur : Bool) (s t : State Dev Hash) : Prop where
  copies : t.Copies
  passInv : PassInv dur t
  hasAt : ∀ dur dev loc hash, s.HasAt dur dev loc hash → t.HasAt dur dev loc hash ∨
    ∃ p r, s.pass = some p ∧ p.stage = .delete r ∧ dev = r.dev ∧ loc.segmentId = r.oldId
  stamp : ∀ id < s.nextSegmentId, t.sealGenerations id = s.sealGenerations id

theorem Swept.of_hasAt (hcopies : t.Copies) (hinv : PassInv dur t)
    (hasAt : ∀ dur dev loc hash, s.HasAt dur dev loc hash → t.HasAt dur dev loc hash)
    (hstamp : ∀ id < s.nextSegmentId, t.sealGenerations id = s.sealGenerations id) : Swept dur s t :=
  ⟨hcopies, hinv, fun dur dev loc hash h ↦ .inl (hasAt dur dev loc hash h), hstamp⟩

section

variable (hcopies : s.Copies) {cache : Hash → Option (Location × Dev)}

include hcopies

/-- Actions that change the cache and the pass only. -/
theorem Swept.of_cache {pass : Option (Pass Dev Hash)} (hinv : PassInv dur { s with cache := cache, pass := pass }) :
    Swept dur s { s with cache := cache, pass := pass } :=
  .of_hasAt { hcopies with } hinv (fun _ _ _ _ h ↦ h) fun _ _ ↦ rfl

theorem Swept.setStage (hinv : RepackInv dur s p.live stage) :
    Swept dur s { s with cache := cache, pass := some { p with stage := stage } } :=
  .of_cache hcopies hinv.setStage

end

theorem passInv_of_repack_none (h : ∀ p, s.pass = some p → p.stage.repack = none) : PassInv dur s := by
  intro p hp
  cases hstage : p.stage <;> simp_all [Stage.repack, RepackInv]

/-- The actions of the coalescer sweep. -/
theorem Sweeps.swept {a : Action Dev Hash} (hst : Sweeps setup s a t) (hcopies : s.Copies)
    (hinv : PassInv dur s) (hdur : a = .passStep → dur = true → s.DropsDurable) : Swept dur s t := by
  have hrepack : ∀ {p stage}, s.pass = some p → p.stage = stage → RepackInv dur s p.live stage :=
    fun hp hstage ↦ hstage ▸ hinv _ hp
  cases hst with
  | begin | mark | markPin =>
    refine .of_cache hcopies (passInv_of_repack_none fun p' hp' ↦ ?_)
    cases hp'
    rfl
  | stop => exact .of_cache hcopies (by simp [PassInv])
  | beginDevice => exact .setStage hcopies trivial
  | beginRepack _ _ hseg hsealed hmay => exact .setStage hcopies (beginRepack_scanning hseg hsealed hmay)
  | turn hp hstage hturns =>
    refine .setStage hcopies ((hrepack hp hstage).turns hcopies (fun hd r hash offset todo dropped loc h ↦ ?_) hturns)
    exact hdur rfl hd _ r hash offset todo dropped loc hp (hstage.trans h)
  | copy hp hstage =>
    obtain ⟨hcopies', hinv', hasAt, hstamp⟩ := copyKept_spec (hrepack hp hstage) hcopies
    exact .of_hasAt hcopies' hinv' hasAt hstamp
  | repointIndex hp hstage =>
    obtain ⟨hrelocated, hnew⟩ := hrepack hp hstage
    obtain ⟨hcopies', hinv'⟩ := repointIndex_spec hrelocated hnew hcopies
    exact .of_hasAt hcopies' hinv' (fun _ _ _ _ h ↦ h) fun _ _ ↦ rfl
  | repointCache hp hstage => exact .setStage hcopies (hrepack hp hstage).1
  | remove hp hstage | restore hp hstage =>
    have h : Repointed dur s _ _ := hrepack hp hstage
    exact .setStage hcopies h
  | forget hp hstage =>
    obtain ⟨hcopies', hinv'⟩ := forgetSegmentRecords_spec (hrepack hp hstage) hcopies
    exact .of_hasAt hcopies' hinv' (fun _ _ _ _ h ↦ h) fun _ _ ↦ rfl
  | delete hp hstage =>
    obtain ⟨hrepointed, hforgotten⟩ := hrepack hp hstage
    obtain ⟨hcopies', hasAt⟩ := removeSegment_spec hrepointed hforgotten hcopies
    refine ⟨hcopies', passInv_of_repack_none fun _ hp' ↦ ?_, fun dur dev loc hash hat ↦ ?_,
      fun _ _ ↦ rfl⟩
    · cases hp'
      rfl
    · exact (hasAt dur dev loc hash hat).symm.imp_right fun hcase ↦ ⟨_, _, hp, hstage, hcase⟩

end PassStep

end State

end Lchfs.Reclaim
