import Lchfs.Reclaim.References

/-!
# Inode numbers, operations and captures

The bookkeeping around the inodes' locks: a capture holds the lock of the inode the
checkpoint is at, inode numbers are not used again, and in a run in which files are
unlinked only when nothing of them is open, an inode outside the namespace has nothing
in memory.
-/

set_option linter.unusedSectionVars false

namespace Lchfs.Reclaim

open Lchfs.Format (Ino ShardId SegmentId)
open Lchfs.Library
open List Option Function

variable {Dev Hash : Type} [DecidableEq Dev] [DecidableEq Hash]

namespace State

variable {setup : Setup Dev} {s t : State Dev Hash} {ino : Ino} {op : Op Hash} {ino' : Ino}
  {a : Action Dev Hash}

/-- Nothing of the inode is open: no session, no working state, no operation. -/
def isClosed (s : State Dev Hash) (ino : Ino) : Bool :=
  (s.sessions ino).isNone && (s.fileState ino).isNone && (s.ops ino).isNone

/-- The operations on an inode outside the namespace have nothing to commit or to list. -/
def IdleCapture (op : Op Hash) : Prop :=
  op.goal = .capture ∧ op.todo = [] ∧ op.refs = []

structure Tidy (s : State Dev Hash) : Prop where
  capture : ∀ ino op, s.ops ino = some op → op.goal = .capture →
    ∃ c, s.checkpoint = some c ∧ c.phase = .capture ∧ c.capturing = some ino
  work : ∀ c, s.checkpoint = some c → c.phase = .capture → ∀ ino ∈ c.work,
    ino ∈ c.dirty ∧ ino < s.nextIno
  orphaned : ∀ c, s.checkpoint = some c → c.phase = .takeOrphans → ∀ ino ∈ c.orphaned,
    ¬s.Linked ino ∧ ino < s.nextIno
  linked : ∀ ino, s.Linked ino → ino < s.nextIno
  ops : ∀ ino op, s.ops ino = some op → ino < s.nextIno
  pins : ∀ ino hash, (.file ino, hash) ∈ s.pins ∨ (.captured ino, hash) ∈ s.pins → ino < s.nextIno
  closed : ∀ ino, ¬s.Linked ino → s.sessions ino = none ∧ s.fileState ino = none ∧
    ∀ op, s.ops ino = some op → IdleCapture op

theorem Mounted.tidy (h : s.Mounted) : s.Tidy where
  capture ino op hop := by simp [h.ops] at hop
  work c hc := by simp [h.checkpoint] at hc
  orphaned c hc := by simp [h.checkpoint] at hc
  linked ino hlinked := by
    obtain ⟨chunks, hchunks⟩ := isSome_iff_exists.1 hlinked
    exact (h.content ino chunks hchunks).1
  ops ino op hop := by simp [h.ops] at hop
  pins ino hash hpin := by simp [h.pins] at hpin
  closed ino hlinked := by
    refine ⟨h.sessions ino, ?_, fun _ hop ↦ by simp [h.ops] at hop⟩
    cases hfile : s.fileState ino with
    | none => rfl
    | some chunks => exact absurd (by simp [Linked, h.fileState ino chunks hfile]) hlinked

/-- Operations with something to do are on inodes of the namespace. -/
theorem Tidy.linked_of_op (h : s.Tidy) (hop : s.ops ino = some op)
    (hbusy : op.goal ≠ .capture ∨ op.todo ≠ []) : s.Linked ino := by
  by_contra hlinked
  obtain ⟨hgoal, htodo, _⟩ := (h.closed ino hlinked).2.2 op hop
  exact hbusy.elim (fun hne ↦ hne hgoal) fun hne ↦ hne htodo

section Writers

theorem linked_create : s.create.Linked ino ↔ s.Linked ino ∨ ino = s.nextIno := by
  by_cases heq : ino = s.nextIno
  · subst heq
    simp [Linked, create]
  · simp [Linked, create, AList.lookup_insert_ne heq, heq]

theorem Tidy.create (h : s.Tidy) : s.create.Tidy where
  capture := h.capture
  work c hc hphase ino hino := ⟨(h.work c hc hphase ino hino).1, Nat.lt_succ_of_lt (h.work c hc hphase ino hino).2⟩
  orphaned c hc hphase ino hino := by
    obtain ⟨hlinked, hlt⟩ := h.orphaned c hc hphase ino hino
    exact ⟨fun hl ↦ (linked_create.1 hl).elim hlinked (Nat.ne_of_lt hlt), Nat.lt_succ_of_lt hlt⟩
  linked ino hlinked := by
    rcases linked_create.1 hlinked with hl | rfl
    · exact Nat.lt_succ_of_lt (h.linked ino hl)
    · exact Nat.lt_succ_self _
  ops ino op hop := Nat.lt_succ_of_lt (h.ops ino op hop)
  pins ino hash hpin := Nat.lt_succ_of_lt (h.pins ino hash hpin)
  closed ino hlinked := h.closed ino fun hl ↦ hlinked (linked_create.2 (.inl hl))

theorem linked_unlink :
    Linked { s with inodes := s.inodes.erase ino, dirtyInodes := s.dirtyInodes.erase ino } ino' ↔
      s.Linked ino' ∧ ino' ≠ ino := by
  rw [Linked, Table.lookup_erase_eq]
  split <;> simp_all [Linked]

theorem Tidy.unlink (h : s.Tidy) (hclosed : s.isClosed ino = true) :
    Tidy { s with inodes := s.inodes.erase ino, dirtyInodes := s.dirtyInodes.erase ino } := by
  refine ⟨h.capture, h.work, fun c hc hphase ino' hino' ↦ ?_, fun ino' hl ↦ h.linked ino' (linked_unlink.1 hl).1,
    h.ops, h.pins, fun ino' hl ↦ ?_⟩
  · obtain ⟨hlinked, hlt⟩ := h.orphaned c hc hphase ino' hino'
    exact ⟨fun hl ↦ hlinked (linked_unlink.1 hl).1, hlt⟩
  · by_cases heq : ino' = ino
    · subst heq
      simp only [isClosed, Bool.and_eq_true, isNone_iff_eq_none] at hclosed
      exact ⟨hclosed.1.1, hclosed.1.2, fun _ hop ↦ by simp [hclosed.2] at hop⟩
    · exact h.closed ino' fun hl' ↦ hl (linked_unlink.2 ⟨hl', heq⟩)

variable {chunks : List Hash}

theorem Tidy.hydrate (h : s.Tidy) (hlookup : s.inodes.lookup ino = some chunks) :
    Tidy { s with fileState := update s.fileState ino (some chunks) } := by
  refine { h with closed := fun ino' (hlinked : ¬s.Linked ino') ↦ ?_ }
  have hne : ino' ≠ ino := fun heq ↦ hlinked (by rw [Linked, heq, hlookup]; rfl)
  obtain ⟨h1, h2, h3⟩ := h.closed ino' hlinked
  exact ⟨h1, by simpa [hne] using h2, h3⟩

/-- The operation of an inode of the namespace goes on. -/
theorem Tidy.setOp (h : s.Tidy) (hlinked : s.Linked ino) (hlt : ino < s.nextIno)
    (hgoal : op.goal = .capture → ∃ op', s.ops ino = some op' ∧ op'.goal = .capture) :
    (s.setOp ino (some op)).Tidy := by
  refine ⟨fun ino' o ho hcapture ↦ ?_, h.work, h.orphaned, h.linked, fun ino' o ho ↦ ?_, h.pins,
    fun ino' hl ↦ ?_⟩
  · rcases of_update ho with ⟨rfl, ⟨⟩⟩ | ⟨-, ho⟩
    · obtain ⟨op', hop, hgoal'⟩ := hgoal hcapture
      exact h.capture ino' op' hop hgoal'
    · exact h.capture ino' o ho hcapture
  · rcases of_update ho with ⟨rfl, -⟩ | ⟨-, ho⟩
    · exact hlt
    · exact h.ops ino' o ho
  · have hne : ino' ≠ ino := fun heq ↦ hl (heq ▸ hlinked)
    obtain ⟨h1, h2, h3⟩ := h.closed ino' hl
    exact ⟨h1, h2, fun o ho ↦ h3 o (by simpa [State.setOp, hne] using ho)⟩

/-- An operation with a chunk to do goes on. -/
theorem Tidy.proceed {op' : Op Hash} (h : s.Tidy) (hop : s.ops ino = some op) (htodo : op.todo ≠ [])
    (hgoal : op'.goal = op.goal) : (s.setOp ino (some op')).Tidy :=
  h.setOp (h.linked_of_op hop (.inr htodo)) (h.ops ino op hop) fun hcapture ↦ ⟨op, hop, hgoal ▸ hcapture⟩

/-- Pins of hits come and go with inodes that are known. -/
theorem Tidy.setPins {pins : List (PinOwner × Hash)} (h : s.Tidy)
    (hpins : ∀ ino hash, (.file ino, hash) ∈ pins ∨ (.captured ino, hash) ∈ pins →
      ino < s.nextIno) : Tidy { s with pins := pins } :=
  { h with pins := hpins }

theorem linked_setContent : (s.setContent ino chunks).Linked ino' ↔ s.Linked ino' := by
  rw [Linked, lookup_setContent]
  split <;> simp [Linked]

/-- An operation ends, and what is outside the namespace stays closed. -/
theorem Tidy.endOp {inodes : Table Ino (List Hash)} {sessions fileState : Ino → Option (List Hash)} (h : s.Tidy)
    (hlinked : ∀ ino', (inodes.lookup ino').isSome ↔ s.Linked ino')
    (hclosed : ∀ ino', ¬s.Linked ino' → s.sessions ino' = none → s.fileState ino' = none →
      sessions ino' = none ∧ fileState ino' = none) :
    Tidy { s with
      inodes := inodes, sessions := sessions, fileState := fileState, ops := update s.ops ino none } := by
  have hop : ∀ {ino' op}, update s.ops ino none ino' = some op → s.ops ino' = some op := by
    intro _ _ hop
    rcases of_update hop with ⟨-, ⟨⟩⟩ | ⟨-, hop⟩
    exact hop
  refine ⟨fun ino' op ho ↦ h.capture ino' op (hop ho), h.work, fun c hc hphase ino' hino' ↦ ?_,
    fun ino' hl ↦ h.linked ino' ((hlinked ino').1 hl), fun ino' op ho ↦ h.ops ino' op (hop ho), h.pins,
    fun ino' hl ↦ ?_⟩
  · obtain ⟨hnot, hlt⟩ := h.orphaned c hc hphase ino' hino'
    exact ⟨fun hl ↦ hnot ((hlinked ino').1 hl), hlt⟩
  · have hl : ¬s.Linked ino' := fun hl' ↦ hl ((hlinked ino').2 hl')
    obtain ⟨h1, h2, h3⟩ := h.closed ino' hl
    obtain ⟨hsession, hfile⟩ := hclosed ino' hl h1 h2
    exact ⟨hsession, hfile, fun op ho ↦ h3 op (hop ho)⟩

end Writers

section Checkpoints

variable {c c' : Checkpoint Hash} {refs : List Hash}

/-- A checkpoint step that moves no inode in or out of memory. -/
theorem Tidy.setCheckpoint (h : s.Tidy) (hc : s.checkpoint = some c)
    (hcapture : c.phase = .capture → ∀ ino op, s.ops ino = some op → c.capturing = some ino →
      c'.phase = .capture ∧ c'.capturing = some ino)
    (hwork : c'.phase = .capture → ∀ ino ∈ c'.work, ino ∈ c'.dirty ∧ ino < s.nextIno)
    (horphaned : c'.phase = .takeOrphans → ∀ ino ∈ c'.orphaned, ¬s.Linked ino ∧ ino < s.nextIno) :
    (s.setCheckpoint (some c')).Tidy := by
  refine { h with
    capture := fun ino op hop hgoal ↦ ?_
    work := fun c'' hc'' ↦ by cases hc''; exact hwork
    orphaned := fun c'' hc'' ↦ by cases hc''; exact horphaned }
  obtain ⟨_, hc'', hphase, hcapturing⟩ := h.capture ino op hop hgoal
  cases hc.symm.trans hc''
  exact ⟨c', rfl, hcapture hphase ino op hop hcapturing⟩

/-- A checkpoint that holds no lock may end. -/
theorem Tidy.endCheckpoint (h : s.Tidy) (hc : s.checkpoint = some c)
    (hidle : c.phase = .capture → c.capturing = none) : Tidy { s with checkpoint := none } := by
  refine { h with
    capture := fun ino op hop hgoal ↦ ?_
    work := fun c hc ↦ by simp at hc
    orphaned := fun c hc ↦ by simp at hc }
  obtain ⟨_, hc'', hphase, hcapturing⟩ := h.capture ino op hop hgoal
  cases hc.symm.trans hc''
  simp [hidle hphase] at hcapturing

theorem Tidy.capturePins (h : s.Tidy) (ino : Ino) : (s.capturePins ino).Tidy := by
  refine h.setPins fun ino' hash hpin ↦ ?_
  obtain ⟨ino'', hpin'⟩ : ∃ ino'', ((.file ino'', hash) ∈ s.pins ∨ (.captured ino'', hash) ∈ s.pins) ∧
      ino'' = ino' := by
    simp only [List.mem_map, Prod.exists] at hpin
    rcases hpin with ⟨owner, hash', hmem, heq⟩ | ⟨owner, hash', hmem, heq⟩ <;>
      split_ifs at heq with hcase
    · simp at heq
    · cases heq
      exact ⟨ino', .inl hmem, rfl⟩
    · obtain ⟨howner, rfl⟩ := Prod.mk.inj heq
      obtain rfl : owner = .file ino := hcase
      exact ⟨ino, .inl hmem, PinOwner.captured.inj howner⟩
    · cases heq
      exact ⟨ino', .inr hmem, rfl⟩
  exact hpin'.2 ▸ h.pins ino'' hash hpin'.1

theorem Tidy.advances (h : s.Tidy) (hc : s.checkpoint = some c) (hst : s.Advances c t) : t.Tidy := by
  cases hst with
  | drain hphase =>
    have hdrained : Tidy { s with dirtyInodes := [] } := { h with }
    exact hdrained.setCheckpoint hc (by simp [hphase]) (by simp) (by simp)
  | work hphase =>
    refine h.setCheckpoint hc (by simp [hphase]) (fun _ ino hino ↦ ?_) (by simp)
    obtain ⟨hmem, hlinked⟩ := mem_filter.1 hino
    exact ⟨hmem, h.linked ino hlinked⟩
  | captured _ _ hidle =>
    exact h.setCheckpoint hc (by simp [hidle]) (by simp) (by simp)
  | orphans hphase =>
    refine h.setCheckpoint hc (by simp [hphase]) (by simp) fun _ ino hino ↦ ?_
    obtain ⟨⟨owner, hash⟩, hpin, hsome⟩ := mem_filterMap.1 hino
    cases owner <;> simp only [reduceCtorEq] at hsome
    split_ifs at hsome with hlinked
    cases hsome
    exact ⟨hlinked, h.pins _ hash (.inl hpin)⟩
  | orphan hphase horphaned =>
    refine (h.capturePins _).setCheckpoint hc (by simp [hphase]) (by simp [hphase]) fun _ ino' hino' ↦ ?_
    exact h.orphaned c hc hphase ino' (by simp [horphaned, hino'])
  | publish hphase =>
    have hpublished : Tidy { s with generation := c.generation, root := c.inoSnapshot } := { h with }
    exact hpublished.setCheckpoint hc (by simp [hphase]) (by simp) (by simp)
  | publishGeneration hphase =>
    have hpublished : Tidy { s with publishedGeneration := c.generation, publishedRoot := c.inoSnapshot } :=
      { h with }
    exact hpublished.setCheckpoint hc (by simp [hphase]) (by simp) (by simp)
  | release =>
    exact h.setPins fun ino hash hpin ↦ h.pins ino hash (hpin.imp mem_of_mem_erase mem_of_mem_erase)
  | superblock hphase => exact { h.endCheckpoint hc (by simp [hphase]) with }
  | orphansTaken hphase | snapshot hphase | root hphase | released hphase =>
    exact h.setCheckpoint hc (by simp [hphase]) (by simp) (by simp)

theorem Tidy.beginCheckpoint (h : s.Tidy) (hnone : s.checkpoint = none) :
    (s.setCheckpoint (some ⟨.drain, [], [], none, [], [], 0⟩)).Tidy := by
  refine { h with
    capture := fun ino op hop hgoal ↦ ?_
    work := fun c hc hphase ↦ ?_
    orphaned := fun c hc hphase ↦ ?_ }
  · obtain ⟨c, hc, _⟩ := h.capture ino op hop hgoal
    simp [hnone] at hc
  all_goals
    cases hc
    simp at hphase

theorem Tidy.beginCapture {tail : List Hash} (h : s.Tidy) (hc : s.checkpoint = some c)
    (hphase : c.phase = .capture) (hcapturing : c.capturing = none) (hwork : ino ∈ c.work)
    (htail : s.sessions ino = none → tail = []) :
    ((s.setOp ino (some ⟨.capture, tail, .idle, []⟩)).setCheckpoint
      (some { c with work := c.work.filter (· ≠ ino), capturing := some ino })).Tidy := by
  refine ⟨fun ino' op hop' hgoal ↦ ?_, fun c' hc' _ ino' hino' ↦ ?_, fun c' hc' hphase' ↦ ?_, h.linked,
    fun ino' op hop' ↦ ?_, h.pins, fun ino' hl ↦ ?_⟩
  · refine ⟨_, rfl, hphase, ?_⟩
    rcases of_update hop' with ⟨rfl, -⟩ | ⟨-, hop'⟩
    · rfl
    · -- no other inode is captured at the same time
      obtain ⟨_, hc', _, hcapturing'⟩ := h.capture ino' op hop' hgoal
      cases hc.symm.trans hc'
      simp [hcapturing] at hcapturing'
  · cases hc'
    exact h.work c hc hphase ino' (mem_filter.1 hino').1
  · cases hc'
    simp [hphase] at hphase'
  · rcases of_update hop' with ⟨rfl, -⟩ | ⟨-, hop'⟩
    · exact (h.work c hc hphase ino' hwork).2
    · exact h.ops ino' op hop'
  · obtain ⟨h1, h2, h3⟩ := h.closed ino' hl
    refine ⟨h1, h2, fun op hop' ↦ ?_⟩
    rcases of_update hop' with ⟨rfl, ⟨⟩⟩ | ⟨-, hop'⟩
    · exact ⟨rfl, htail h1, rfl⟩
    · exact h3 op hop'

theorem linked_captureFile : (s.captureFile ino refs).Linked ino' ↔ s.Linked ino' := by
  unfold captureFile
  split
  · exact linked_setContent (s := s)
  · exact linked_setContent
  · rfl

/-- A capture opens no file. -/
theorem captureFile_closed (hsession : s.sessions ino' = none) (hfile : s.fileState ino' = none) :
    (s.captureFile ino refs).sessions ino' = none ∧ (s.captureFile ino refs).fileState ino' = none := by
  unfold captureFile
  split
  · by_cases heq : ino' = ino
    · simp [heq]
    · simp [heq, hsession, hfile]
  · exact ⟨hsession, hfile⟩
  · exact ⟨hsession, hfile⟩

theorem Tidy.finishCapture (h : s.Tidy) (hc : s.checkpoint = some c)
    (hop : s.ops ino = some ⟨.capture, [], .idle, refs⟩) :
    ((((s.capturePins ino).captureFile ino refs).setOp ino none).setCheckpoint
      (some { c with capturing := none })).Tidy := by
  obtain ⟨_, hc', hphase, hcapturing⟩ := h.capture ino _ hop rfl
  cases hc.symm.trans hc'
  rw [captureFile_eq]
  refine Tidy.setCheckpoint ((h.capturePins ino).endOp (fun _ ↦ linked_captureFile) fun _ _ ↦ captureFile_closed) hc
    (fun _ _ _ ho hcap ↦ ?_) (fun _ ↦ h.work c hc hphase) (by simp [hphase])
  -- the one operation of a checkpoint has ended
  rcases of_update ho with ⟨-, ⟨⟩⟩ | ⟨hne, -⟩
  exact absurd (some.inj (hcap.symm.trans hcapturing)) hne

theorem Tidy.failCheckpoint (h : s.Tidy) (hc : s.checkpoint = some c) (hcapturing : c.capturing = none) :
    (s.restoreOnFailure c).Tidy := by
  have hended := h.endCheckpoint hc fun _ ↦ hcapturing
  refine { hended with pins := fun _ _ hpin ↦ ?_ }
  simp only [restoreOnFailure, List.mem_map, Prod.exists] at hpin
  rcases hpin with ⟨owner, hash', hmem, heq⟩ | ⟨owner, hash', hmem, heq⟩ <;>
    cases owner <;> simp only [Prod.mk.injEq, PinOwner.file.injEq, reduceCtorEq, false_and] at heq <;> obtain ⟨rfl, rfl⟩ := heq
  · exact h.pins _ _ (.inl hmem)
  · exact h.pins _ _ (.inr hmem)

end Checkpoints

theorem Tidy.environment (h : s.Tidy) (ha : a.isPass = false)
    (hclosed : ∀ ino, a = .unlink ino → s.isClosed ino = true) (hst : s.step setup a = some t) :
    t.Tidy := by
  have hne : ∀ {ino op ino'}, s.ops ino = some op → op.goal ≠ .capture → ¬s.Linked ino' → ino' ≠ ino :=
    fun hop hgoal hl heq ↦ hl (heq ▸ h.linked_of_op hop (.inl hgoal))
  cases environment_effect ha hst with
  | create => exact h.create
  | unlink => exact h.unlink (hclosed _ rfl)
  | hydrate hlookup => exact h.hydrate hlookup
  | @begin ino _ _ hlinked hgoal =>
    have hdirty : (s.markDirty ino).Tidy := { h with }
    exact hdirty.setOp hlinked (h.linked ino hlinked) fun hcapture ↦ absurd hcapture hgoal
  | pin hop =>
    refine (h.setPins fun ino' hash' hpin ↦ ?_).proceed hop (by simp) rfl
    exact h.pins ino' hash' (by simpa using hpin)
  | hit hop =>
    refine (h.setPins fun ino' hash' hpin ↦ ?_).proceed hop (by simp) rfl
    rcases hpin with hpin | hpin
    · rcases mem_cons.1 hpin with heq | hpin
      · exact PinOwner.file.inj (Prod.mk.inj heq).1 ▸ h.ops _ _ hop
      · exact h.pins ino' hash' (.inl (mem_of_mem_erase hpin))
    · exact h.pins ino' hash' (.inr (by simpa using hpin))
  | miss hop => exact h.proceed hop (by simp) rfl
  | unpin hop =>
    refine (h.setPins fun ino' hash' hpin ↦ ?_).proceed hop (by simp) rfl
    exact h.pins ino' hash' (hpin.imp mem_of_mem_erase mem_of_mem_erase)
  | commit hop =>
    rw [append_eq]
    refine Tidy.proceed ?_ hop (by simp) rfl
    exact { h with }
  | append hop | rewrite hop =>
    exact h.endOp (fun _ ↦ .rfl) fun ino' hl hsession hfile ↦ by simp [hne hop (by simp) hl, hsession, hfile]
  | fsync hop =>
    refine h.endOp (fun _ ↦ linked_setContent) fun _ hl hsession hfile ↦ ?_
    simp [finishFsync, hne hop (by simp) hl, hsession, hfile]
  | setSnapshotTable => exact { h with }
  | records heq =>
    subst heq
    exact { h with }
  | beginCheckpoint hnone => exact h.beginCheckpoint hnone
  | checkpointStep hc hadvances => exact h.advances hc hadvances
  | beginCapture hc hphase hcapturing hwork htail => exact h.beginCapture hc hphase hcapturing hwork htail
  | finishCapture hc hop => exact h.finishCapture hc hop
  | failCheckpoint hc hcapturing => exact h.failCheckpoint hc hcapturing

theorem Tidy.sweeps (h : s.Tidy) (hst : Sweeps setup s a t) : t.Tidy := by
  have hframe := hst.frame
  obtain ⟨h1, h2, h3, h4, h5, h6, h7⟩ := h
  constructor <;> simp only [Linked, hframe.ops, hframe.checkpoint, hframe.inodes, hframe.nextIno,
    hframe.pins, hframe.sessions, hframe.fileState] <;> assumption

end State

end Lchfs.Reclaim
