import Lchfs.Reclaim.Copies

/-!
# The environment of a pass

What writers and checkpoints do to the copies while a pass runs, and how the published
generation, the namespace's and the checkpoint's relate.
-/

set_option linter.unusedSectionVars false

namespace Lchfs.Reclaim

open Lchfs.Format (Ino ShardId SegmentId)
open Lchfs.Library
open Option Function

variable {Dev Hash : Type} [DecidableEq Dev] [DecidableEq Hash]

/-- The actions of the coalescer. -/
def Action.isPass : Action Dev Hash → Bool
  | .beginPass => true
  | .beginDevice _ => true
  | .beginRepack _ => true
  | .passStep => true
  | .endPass => true
  | _ => false

/-- The snapshot table an action stores. -/
def Action.table : Action Dev Hash → Option (List (InoMap Hash))
  | .setSnapshotTable table => some table
  | _ => none

namespace State

variable {setup : Setup Dev} {s t : State Dev Hash} {a : Action Dev Hash}

/-- The generation passes read is the published one, but for the moment between the two
stores of a checkpoint. -/
structure Generations (s : State Dev Hash) : Prop where
  quiet : (∀ c, s.checkpoint = some c → c.phase ≠ .publishGeneration) →
    s.generation = s.publishedGeneration ∧ s.root = s.publishedRoot
  publish : ∀ c, s.checkpoint = some c → c.phase = .publish → c.generation = s.generation + 1
  publishGeneration : ∀ c, s.checkpoint = some c → c.phase = .publishGeneration →
    s.generation = s.publishedGeneration + 1 ∧ c.generation = s.generation ∧ s.root = c.inoSnapshot
  published : ∀ c, s.checkpoint = some c → c.phase = .release ∨ c.phase = .superblock →
    c.generation = s.publishedGeneration ∧ c.inoSnapshot = s.publishedRoot

/-- A step that publishes nothing. -/
structure SameRoots (s t : State Dev Hash) : Prop where
  generation : t.generation = s.generation
  publishedGeneration : t.publishedGeneration = s.publishedGeneration
  root : t.root = s.root
  publishedRoot : t.publishedRoot = s.publishedRoot

/-- A checkpoint step that publishes nothing. -/
theorem Generations.setCheckpoint {c c' : Checkpoint Hash} (h : s.Generations)
    (hc : s.checkpoint = some c) (hphase : c.phase ≠ .publishGeneration)
    (hc' : t.checkpoint = some c') (hpublish : c'.phase = .publish → c'.generation = s.generation + 1)
    (hphase' : c'.phase ≠ .publishGeneration)
    (hlate : c'.phase = .release ∨ c'.phase = .superblock →
      c'.generation = s.publishedGeneration ∧ c'.inoSnapshot = s.publishedRoot)
    (hroots : s.SameRoots t := by constructor <;> rfl) : t.Generations := by
  have hquiet := h.quiet fun c'' hc'' ↦ by
    cases hc.symm.trans hc''
    exact hphase
  constructor
  · intro _
    rw [hroots.generation, hroots.publishedGeneration, hroots.root, hroots.publishedRoot]
    exact hquiet
  all_goals
    intro c'' hc'' hp
    cases hc'.symm.trans hc''
  · rw [hroots.generation]
    exact hpublish hp
  · exact absurd hp hphase'
  · rw [hroots.publishedGeneration, hroots.publishedRoot]
    exact hlate hp

/-- A checkpoint step that stays in its phase. -/
theorem Generations.stay {c c' : Checkpoint Hash} (h : s.Generations)
    (hc : s.checkpoint = some c) (hc' : t.checkpoint = some c') (hphase : c'.phase = c.phase)
    (hgen : c'.generation = c.generation) (hsnapshot : c'.inoSnapshot = c.inoSnapshot)
    (hroots : s.SameRoots t) : t.Generations := by
  constructor
  · intro hne
    rw [hroots.generation, hroots.publishedGeneration, hroots.root, hroots.publishedRoot]
    refine h.quiet fun c'' hc'' ↦ ?_
    cases hc.symm.trans hc''
    exact hphase ▸ hne c' hc'
  all_goals
    intro c'' hc'' hp
    cases hc'.symm.trans hc''
    rw [hphase] at hp
  · rw [hgen, hroots.generation]
    exact h.publish c hc hp
  · rw [hgen, hroots.generation, hroots.publishedGeneration, hroots.root, hsnapshot]
    exact h.publishGeneration c hc hp
  · rw [hgen, hroots.publishedGeneration, hsnapshot, hroots.publishedRoot]
    exact h.published c hc hp

theorem Generations.none (h : s.Generations)
    (hphase : ∀ c, s.checkpoint = some c → c.phase ≠ .publishGeneration) (hc : t.checkpoint = none)
    (hroots : s.SameRoots t := by constructor <;> rfl) : t.Generations := by
  refine ⟨fun _ ↦ ?_, fun c' hc' ↦ by simp [hc] at hc', fun c' hc' ↦ by simp [hc] at hc',
    fun _ hc' ↦ by simp [hc] at hc'⟩
  rw [hroots.generation, hroots.publishedGeneration, hroots.root, hroots.publishedRoot]
  exact h.quiet hphase

theorem Mounted.generations (h : s.Mounted) : s.Generations where
  quiet _ := ⟨h.publishedGeneration.symm, h.publishedRoot.symm⟩
  publish c hc := by simp [h.checkpoint] at hc
  publishGeneration c hc := by simp [h.checkpoint] at hc
  published c hc := by simp [h.checkpoint] at hc

/-- A step that leaves the copies and the generations alone. -/
structure Untouched (s t : State Dev Hash) : Prop where
  segments : t.segments = s.segments
  nextSegmentId : t.nextSegmentId = s.nextSegmentId
  writers : t.writers = s.writers
  pendingIndex : t.pendingIndex = s.pendingIndex
  cache : t.cache = s.cache
  index : t.index = s.index
  sealGenerations : t.sealGenerations = s.sealGenerations
  publishedGeneration : t.publishedGeneration = s.publishedGeneration
  publishedRoot : t.publishedRoot = s.publishedRoot
  pass : t.pass = s.pass

theorem Untouched.copies (h : s.Untouched t) (hs : s.Copies) : t.Copies :=
  hs.of_eq h.segments h.nextSegmentId h.writers h.pendingIndex h.index h.sealGenerations

theorem Untouched.grows (h : s.Untouched t) : Grows setup s t :=
  .of_eq h.segments h.writers h.index h.cache h.sealGenerations (Nat.le_of_eq h.publishedGeneration.symm) h.pass

theorem append_eq (setup : Setup Dev) (s : State Dev Hash) (shard : ShardId) (hash : Hash) :
    s.append setup shard hash = { s with
      segments := (s.append setup shard hash).segments
      nextSegmentId := (s.append setup shard hash).nextSegmentId
      writers := (s.append setup shard hash).writers
      pendingIndex := (s.append setup shard hash).pendingIndex
      cache := (s.append setup shard hash).cache } := by
  unfold append openSegment
  cases s.writers shard <;> rfl

theorem fsyncData_eq (s : State Dev Hash) (shard : ShardId) : s.fsyncData shard = { s with
      segments := (s.fsyncData shard).segments
      pendingIndex := (s.fsyncData shard).pendingIndex
      index := (s.fsyncData shard).index } := by
  unfold fsyncData
  cases s.writers shard <;> rfl

theorem closeSegment_eq (s : State Dev Hash) (shard : ShardId) : s.closeSegment shard = { s with
      segments := (s.closeSegment shard).segments
      writers := (s.closeSegment shard).writers
      pendingIndex := (s.closeSegment shard).pendingIndex
      index := (s.closeSegment shard).index
      sealGenerations := (s.closeSegment shard).sealGenerations } := by
  unfold closeSegment
  cases s.writers shard <;> rfl

variable (s) (c : Checkpoint Hash) in
/-- What the next step of a checkpoint does, captures apart. -/
inductive Advances : State Dev Hash → Prop
  | drain : c.phase = .drain → Advances (s.drain c)
  | work : c.phase = .work → Advances (s.computeWork c)
  | captured : c.phase = .capture → c.work = [] → c.capturing = none →
    Advances (s.setCheckpoint (some { c with phase := .orphans }))
  | orphans : c.phase = .orphans → Advances (s.findOrphans c)
  | orphan {ino orphaned} : c.phase = .takeOrphans → c.orphaned = ino :: orphaned →
    Advances ((s.capturePins ino).setCheckpoint (some { c with orphaned := orphaned }))
  | orphansTaken : c.phase = .takeOrphans → Advances (s.setCheckpoint (some { c with phase := .snapshot }))
  | snapshot : c.phase = .snapshot → Advances (s.snapshot c)
  | root : c.phase = .root → Advances (s.encodeRoot c)
  | publish : c.phase = .publish → Advances (s.publish c)
  | publishGeneration : c.phase = .publishGeneration → Advances (s.publishGeneration c)
  | release {pin} : c.phase = .release → s.pins.find? isCaptured = some pin →
    Advances { s with pins := s.pins.erase pin }
  | released : c.phase = .release → Advances (s.setCheckpoint (some { c with phase := .superblock }))
  | superblock : c.phase = .superblock → Advances (s.writeSuperblock c)

variable (setup s) in
/-- What the steps of writers, committers and checkpoints do. Those of a shard leave all but
records and index alone. -/
inductive Effect : Action Dev Hash → State Dev Hash → Prop
  | create : Effect .create s.create
  | unlink {ino} : Effect (.unlink ino)
    { s with inodes := s.inodes.erase ino, dirtyInodes := s.dirtyInodes.erase ino }
  | hydrate {ino chunks} : s.inodes.lookup ino = some chunks →
    Effect (.hydrate ino) { s with fileState := update s.fileState ino (some chunks) }
  | begin {ino goal todo} : (s.inodes.lookup ino).isSome → goal ≠ .capture →
    Effect (.begin ino goal todo) ((s.markDirty ino).setOp ino (some ⟨goal, todo, .idle, []⟩))
  | pin {ino goal hash todo refs} : s.ops ino = some ⟨goal, hash :: todo, .idle, refs⟩ →
    Effect (.pin ino) ({ s with pins := (.prepare ino, hash) :: s.pins }.setOp ino
      (some ⟨goal, hash :: todo, .pinned, refs⟩))
  | hit {ino goal hash todo refs} : s.ops ino = some ⟨goal, hash :: todo, .pinned, refs⟩ →
    (s.cache hash).isSome →
    Effect (.lookup ino) ({ s with pins := (.file ino, hash) :: s.pins.erase (.prepare ino, hash) }.setOp ino
      (some ⟨goal, todo, .idle, refs ++ [hash]⟩))
  | miss {ino goal hash todo refs} : s.ops ino = some ⟨goal, hash :: todo, .pinned, refs⟩ →
    Effect (.lookup ino) (s.setOp ino (some ⟨goal, hash :: todo, .missed, refs⟩))
  | unpin {ino goal hash todo refs} : s.ops ino = some ⟨goal, hash :: todo, .missed, refs⟩ →
    Effect (.unpin ino) ({ s with pins := s.pins.erase (.prepare ino, hash) }.setOp ino
      (some ⟨goal, hash :: todo, .toAppend, refs⟩))
  | commit {ino goal hash todo refs} : s.ops ino = some ⟨goal, hash :: todo, .toAppend, refs⟩ →
    Effect (.commit ino) ((s.append setup (setup.shardOf ino) hash).setOp ino
      (some ⟨goal, todo, .idle, refs ++ [hash]⟩))
  | append {ino refs} : s.ops ino = some ⟨.append, [], .idle, refs⟩ →
    Effect (.finish ino) ({ s with
      sessions := update s.sessions ino (some (s.currentChunks ino ++ refs)) }.setOp ino none)
  | rewrite {ino refs} : s.ops ino = some ⟨.rewrite, [], .idle, refs⟩ →
    Effect (.finish ino) ({ s with
      sessions := update s.sessions ino none
      fileState := update s.fileState ino (some refs) }.setOp ino none)
  | fsync {ino refs} : s.ops ino = some ⟨.fsync, [], .idle, refs⟩ →
    Effect (.finish ino) ((s.finishFsync ino refs).setOp ino none)
  | setSnapshotTable {table} : Effect (.setSnapshotTable table) (s.setSnapshotTable table)
  | records {b u segments writers pendingIndex index sealGenerations} :
    u = { s with segments, writers, pendingIndex, index, sealGenerations } →
    (s.Copies → u.Copies ∧ Grows setup s u) → b.table = none → Effect b u
  | beginCheckpoint : s.checkpoint = none →
    Effect .beginCheckpoint (s.setCheckpoint (some ⟨.drain, [], [], none, [], [], 0⟩))
  | checkpointStep {c u} : s.checkpoint = some c → s.Advances c u → Effect .checkpointStep u
  | beginCapture {c ino tail} : s.checkpoint = some c → c.phase = .capture → c.capturing = none →
    ino ∈ c.work → (s.sessions ino = none → tail = []) →
    Effect (.beginCapture ino tail) ((s.setOp ino (some ⟨.capture, tail, .idle, []⟩)).setCheckpoint
      (some { c with work := c.work.filter (· ≠ ino), capturing := some ino }))
  | finishCapture {c ino refs} : s.checkpoint = some c → s.ops ino = some ⟨.capture, [], .idle, refs⟩ →
    Effect (.finishCapture ino) ((((s.capturePins ino).captureFile ino refs).setOp ino none).setCheckpoint
      (some { c with capturing := none }))
  | failCheckpoint {c} : s.checkpoint = some c → c.capturing = none → c.phase ≠ .publishGeneration →
    Effect .failCheckpoint (s.restoreOnFailure c)

theorem checkpointStep_advances (h : s.checkpointStep = some t) :
    ∃ c, s.checkpoint = some c ∧ s.Advances c t := by
  obtain ⟨c, hc, h⟩ := bind_eq_some_iff.1 h
  refine ⟨c, hc, ?_⟩
  cases hphase : c.phase <;> simp only [hphase] at h
  case capture =>
    split_ifs at h with hdone
    cases h
    exact .captured hphase (by simpa using hdone.1) (by simpa using hdone.2)
  all_goals cases h
  case drain => exact .drain hphase
  case work => exact .work hphase
  case orphans => exact .orphans hphase
  case takeOrphans =>
    unfold takeOrphan
    split
    · next horphaned => exact .orphan hphase horphaned
    · exact .orphansTaken hphase
  case snapshot => exact .snapshot hphase
  case root => exact .root hphase
  case publish => exact .publish hphase
  case publishGeneration => exact .publishGeneration hphase
  case release =>
    unfold release
    split
    · next hpin => exact .release hphase hpin
    · exact .released hphase
  case superblock => exact .superblock hphase

theorem environment_effect (ha : a.isPass = false) (hst : s.step setup a = some t) : Effect setup s a t := by
  cases a with
  | beginPass | beginDevice | beginRepack | passStep | endPass => simp [Action.isPass] at ha
  | create =>
    cases hst
    exact .create
  | unlink =>
    simp only [step, unlink] at hst
    split_ifs at hst
    cases hst
    exact .unlink
  | hydrate =>
    simp only [step, hydrate] at hst
    split at hst <;> cases hst
    next hlookup => exact .hydrate hlookup
  | begin =>
    simp only [step, begin] at hst
    split_ifs at hst with hcond
    cases hst
    exact .begin hcond.1 hcond.2.2.1
  | pin =>
    simp only [step, pin] at hst
    split at hst <;> cases hst
    next hop => exact .pin hop
  | lookup =>
    simp only [step, lookup] at hst
    split at hst
    · next hop =>
      split_ifs at hst with hhit <;> cases hst
      · exact .hit hop hhit
      · exact .miss hop
    · cases hst
  | unpin =>
    simp only [step, unpin] at hst
    split at hst <;> cases hst
    next hop => exact .unpin hop
  | commit =>
    simp only [step, commit] at hst
    split at hst <;> cases hst
    next hop => exact .commit hop
  | finish =>
    simp only [step, finish] at hst
    split at hst <;> cases hst
    · next hop => exact .append hop
    · next hop => exact .rewrite hop
    · next hop => exact .fsync hop
  | setSnapshotTable =>
    cases hst
    exact .setSnapshotTable
  | flushIndex =>
    cases hst
    exact .records rfl (fun h ↦ ⟨h.flushIndex, .flushIndex setup h⟩) rfl
  | fsyncData shard =>
    cases hst
    exact .records (fsyncData_eq s shard) (·.fsyncData setup shard) rfl
  | closeSegment shard =>
    cases hst
    exact .records (closeSegment_eq s shard) (·.closeSegment setup shard) rfl
  | beginCheckpoint =>
    simp only [step, beginCheckpoint] at hst
    split at hst <;> cases hst
    next hnone => exact .beginCheckpoint hnone
  | checkpointStep =>
    obtain ⟨c, hc, hadvances⟩ := checkpointStep_advances hst
    exact .checkpointStep hc hadvances
  | beginCapture =>
    obtain ⟨c, hc, hst⟩ := bind_eq_some_iff.1 hst
    split_ifs at hst with hcond
    cases hst
    exact .beginCapture hc hcond.1 (by simpa using hcond.2.1) hcond.2.2.1 (by simpa using hcond.2.2.2.2)
  | finishCapture =>
    obtain ⟨c, hc, hst⟩ := bind_eq_some_iff.1 hst
    split at hst <;> cases hst
    next hop => exact .finishCapture hc hop
  | failCheckpoint =>
    obtain ⟨c, hc, hst⟩ := bind_eq_some_iff.1 hst
    split_ifs at hst with hcond
    cases hst
    exact .failCheckpoint hc (by simpa using hcond.1) hcond.2.2.1

theorem Generations.advances {c : Checkpoint Hash} (h : s.Generations) (hc : s.checkpoint = some c)
    (hst : s.Advances c t) : t.Generations ∧ s.publishedGeneration ≤ t.publishedGeneration := by
  cases hst with
  | drain hphase | work hphase | captured hphase | orphans hphase | orphansTaken hphase | snapshot hphase =>
    exact ⟨h.setCheckpoint hc (by simp [hphase]) rfl (by simp) (by simp) (by simp), le_rfl⟩
  | root hphase =>
    exact ⟨h.setCheckpoint hc (by simp [hphase]) rfl (fun _ ↦ rfl) (by simp) (by simp), le_rfl⟩
  | orphan hphase =>
    exact ⟨h.setCheckpoint hc (by simp [hphase]) rfl (by simp [hphase]) (by simp [hphase])
      (by simp [hphase]), le_rfl⟩
  | publish hphase =>
    obtain ⟨hquiet, _⟩ := h.quiet fun c' hc' ↦ by
      cases hc.symm.trans hc'
      simp [hphase]
    have hnext := h.publish c hc hphase
    refine ⟨⟨fun hne ↦ absurd rfl (hne _ rfl), ?_, ?_, ?_⟩, le_rfl⟩ <;> intro c' hc' hp <;>
      cases hc'
    · simp at hp
    · exact ⟨by simp [State.publish, State.setCheckpoint, hnext, hquiet], rfl, rfl⟩
    · simp at hp
  | publishGeneration hphase =>
    obtain ⟨hgen, hcgen, hroot⟩ := h.publishGeneration c hc hphase
    refine ⟨⟨fun _ ↦ ⟨hcgen.symm, hroot⟩, ?_, ?_, fun c' hc' _ ↦ ?_⟩, ?_⟩
    · intro _ hc' hp
      cases hc'
      simp at hp
    · intro _ hc' hp
      cases hc'
      simp at hp
    · cases hc'
      exact ⟨rfl, rfl⟩
    · simp only [State.publishGeneration, State.setCheckpoint]
      omega
  | release => exact ⟨{ h with }, le_rfl⟩
  | released hphase =>
    have hlate := h.published c hc (.inl hphase)
    exact ⟨h.setCheckpoint hc (by simp [hphase]) rfl (by simp) (by simp) fun _ ↦ hlate, le_rfl⟩
  | superblock hphase =>
    refine ⟨h.none (fun _ hc' ↦ ?_) rfl, le_rfl⟩
    cases hc.symm.trans hc'
    simp [hphase]

/-- What the steps of a checkpoint, captures apart, leave alone. -/
structure CheckpointFrame (s t : State Dev Hash) : Prop where
  segments : t.segments = s.segments
  nextSegmentId : t.nextSegmentId = s.nextSegmentId
  writers : t.writers = s.writers
  pendingIndex : t.pendingIndex = s.pendingIndex
  cache : t.cache = s.cache
  index : t.index = s.index
  sealGenerations : t.sealGenerations = s.sealGenerations
  inodes : t.inodes = s.inodes
  nextIno : t.nextIno = s.nextIno
  snapshotTable : t.snapshotTable = s.snapshotTable
  sessions : t.sessions = s.sessions
  fileState : t.fileState = s.fileState
  ops : t.ops = s.ops
  pass : t.pass = s.pass
  mountGeneration : t.mountGeneration = s.mountGeneration

theorem Advances.frame {c : Checkpoint Hash} (h : s.Advances c t) : s.CheckpointFrame t := by
  cases h <;> constructor <;> rfl

theorem captureFile_eq (s : State Dev Hash) (ino : Ino) (refs : List Hash) : s.captureFile ino refs = { s with
    inodes := (s.captureFile ino refs).inodes
    sessions := (s.captureFile ino refs).sessions
    fileState := (s.captureFile ino refs).fileState } := by
  unfold captureFile
  split <;> rfl

theorem captureFile_untouched (s : State Dev Hash) (ino : Ino) (refs : List Hash) :
    s.Untouched (s.captureFile ino refs) := by
  rw [captureFile_eq]
  constructor <;> rfl

/-- Every step that is not the coalescer's keeps the books and only adds copies. -/
theorem environment_step (hcopies : s.Copies) (hgen : s.Generations) (ha : a.isPass = false)
    (hst : s.step setup a = some t) : t.Copies ∧ Grows setup s t ∧ t.Generations := by
  have huntouched : ∀ {u : State Dev Hash}, s.Untouched u → u.Generations →
      u.Copies ∧ Grows setup s u ∧ u.Generations := fun h hgen' ↦ ⟨h.copies hcopies, h.grows, hgen'⟩
  cases environment_effect ha hst with
  | commit =>
    obtain ⟨hcopies', hgrows, _⟩ := hcopies.append setup _ _
    refine ⟨{ hcopies' with }, { hgrows with }, ?_⟩
    rw [append_eq]
    exact { hgen with }
  | records heq hrecords =>
    obtain ⟨hcopies', hgrows⟩ := hrecords hcopies
    subst heq
    exact ⟨hcopies', hgrows, { hgen with }⟩
  | beginCheckpoint hnone =>
    have hquiet := hgen.quiet fun c hc ↦ by simp [hnone] at hc
    refine huntouched (by constructor <;> rfl) ⟨fun _ ↦ hquiet, ?_, ?_, ?_⟩ <;>
      intro c hc hp <;> cases hc <;> simp at hp
  | checkpointStep hc hadvances =>
    have hframe := hadvances.frame
    obtain ⟨hgen', hle⟩ := hgen.advances hc hadvances
    exact ⟨hcopies.of_eq hframe.segments hframe.nextSegmentId hframe.writers hframe.pendingIndex
      hframe.index hframe.sealGenerations, .of_eq hframe.segments hframe.writers hframe.index hframe.cache
      hframe.sealGenerations hle hframe.pass, hgen'⟩
  | beginCapture hc hphase =>
    exact huntouched (by constructor <;> rfl) (hgen.setCheckpoint hc (by simp [hphase]) rfl
      (by simp [hphase]) (by simp [hphase]) (by simp [hphase]))
  | finishCapture hc =>
    rw [captureFile_eq]
    exact huntouched (by constructor <;> rfl) (hgen.stay hc rfl rfl rfl rfl (by constructor <;> rfl))
  | failCheckpoint hc _ hphase =>
    refine huntouched (by constructor <;> rfl) (hgen.none (fun c' hc' ↦ ?_) rfl)
    cases hc.symm.trans hc'
    exact hphase
  | _ => exact huntouched (by constructor <;> rfl) { hgen with }

/-- What only the steps of a checkpoint change. -/
structure SlotFrame (s : State Dev Hash) (a : Action Dev Hash) (t : State Dev Hash) : Prop where
  generation : t.generation = s.generation
  root : t.root = s.root
  publishedGeneration : t.publishedGeneration = s.publishedGeneration
  publishedRoot : t.publishedRoot = s.publishedRoot
  slot : t.slot = s.slot
  slotHeld : t.slotHeld = s.slotHeld
  mountGeneration : t.mountGeneration = s.mountGeneration
  snapshotTable : t.snapshotTable = a.table.getD s.snapshotTable

/-- Three steps of a checkpoint publish. -/
theorem environment_publishes (ha : a.isPass = false) (hst : s.step setup a = some t) :
    s.SlotFrame a t ∨ ∃ c, a = .checkpointStep ∧ s.checkpoint = some c ∧
      (c.phase = .publish ∧ t = s.publish c ∨ c.phase = .publishGeneration ∧ t = s.publishGeneration c ∨
        c.phase = .superblock ∧ t = s.writeSuperblock c) := by
  cases environment_effect ha hst with
  | checkpointStep hc hadvances =>
    cases hadvances with
    | publish hphase => exact .inr ⟨_, rfl, hc, .inl ⟨hphase, rfl⟩⟩
    | publishGeneration hphase => exact .inr ⟨_, rfl, hc, .inr (.inl ⟨hphase, rfl⟩)⟩
    | superblock hphase => exact .inr ⟨_, rfl, hc, .inr (.inr ⟨hphase, rfl⟩)⟩
    | _ => exact .inl (by constructor <;> rfl)
  | commit =>
    rw [append_eq]
    exact .inl (by constructor <;> rfl)
  | records heq _ htable =>
    subst heq
    exact .inl ⟨rfl, rfl, rfl, rfl, rfl, rfl, rfl, by rw [htable]; rfl⟩
  | finishCapture =>
    unfold captureFile
    split <;> exact .inl (by constructor <;> rfl)
  | _ => exact .inl (by constructor <;> rfl)

/-- The published root moves only with the published generation. -/
theorem environment_published (hgen : s.Generations) (ha : a.isPass = false)
    (hst : s.step setup a = some t) :
    t.publishedGeneration = s.publishedGeneration ∧ t.publishedRoot = s.publishedRoot ∨
      t.publishedGeneration = s.publishedGeneration + 1 ∧
        ∃ c, s.checkpoint = some c ∧ c.phase = .publishGeneration ∧ t = s.publishGeneration c := by
  rcases environment_publishes ha hst with hframe | ⟨c, -, hc, ⟨-, rfl⟩ | ⟨hphase, rfl⟩ | ⟨-, rfl⟩⟩
  · exact .inl ⟨hframe.publishedGeneration, hframe.publishedRoot⟩
  · exact .inl ⟨rfl, rfl⟩
  · obtain ⟨h1, h2, _⟩ := hgen.publishGeneration c hc hphase
    exact .inr ⟨h2.trans h1, c, hc, hphase, rfl⟩
  · exact .inl ⟨rfl, rfl⟩

/-- Only the last step of a checkpoint moves the slot. -/
theorem environment_slot (ha : a.isPass = false) (hst : s.step setup a = some t) :
    t.slot = s.slot ∧ t.slotHeld = s.slotHeld ∨
      ∃ c, a = .checkpointStep ∧ s.checkpoint = some c ∧ c.phase = .superblock ∧
        t = s.writeSuperblock c := by
  rcases environment_publishes ha hst with hframe | ⟨c, ha, hc, ⟨-, rfl⟩ | ⟨-, rfl⟩ | hslot⟩
  · exact .inl ⟨hframe.slot, hframe.slotHeld⟩
  · exact .inl ⟨rfl, rfl⟩
  · exact .inl ⟨rfl, rfl⟩
  · exact .inr ⟨c, ha, hc, hslot⟩

end State

end Lchfs.Reclaim
