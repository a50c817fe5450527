import Lchfs.Reclaim.CacheTags

/-!
# References

Which chunks are referenced: those that append sessions, working states and operations
list, those of the inodes' contents, of the inodes a checkpoint has captured, of the
published root and of the retained snapshots. A step of a writer or of a checkpoint only
moves references between these places; it adds one by a dedup hit or by an append.
-/

set_option linter.unusedSectionVars false

namespace Lchfs.Reclaim

open Lchfs.Format (Ino ShardId SegmentId)
open Lchfs.Library
open List Option Function Phase

variable {Dev Hash : Type} [DecidableEq Dev] [DecidableEq Hash]

/-- The inodes are copied and the generation is not published yet. -/
def Phase.isLate : Phase → Bool
  | .root => true
  | .publish => true
  | .publishGeneration => true
  | _ => false

namespace State

variable {setup : Setup Dev} {s t : State Dev Hash} {ino : Ino} {hash : Hash} {k : Nat}
variable {ino' : Ino} {chunks : List Hash} {op : Op Hash}

def Linked (s : State Dev Hash) (ino : Ino) : Prop :=
  (s.inodes.lookup ino).isSome

/-- The hash is in the chunk list of the inode's content. -/
def Content (s : State Dev Hash) (ino : Ino) (hash : Hash) : Prop :=
  ∃ chunks, s.inodes.lookup ino = some chunks ∧ hash ∈ chunks

/-- The hash is listed in memory: in the append session, the working state or a running
operation. -/
def Lists (s : State Dev Hash) (ino : Ino) (hash : Hash) : Prop :=
  (∃ chunks, s.sessions ino = some chunks ∧ hash ∈ chunks) ∨
    (∃ chunks, s.fileState ino = some chunks ∧ hash ∈ chunks) ∨
    ∃ op, s.ops ino = some op ∧ hash ∈ op.refs

/-- The hash is in an inode that the running checkpoint has captured and is about to publish. -/
def Captured (s : State Dev Hash) (hash : Hash) : Prop :=
  ∃ c, s.checkpoint = some c ∧ c.phase.isLate = true ∧ hash ∈ c.inoSnapshot.hashes

/-- Some file references the hash, or some root that is kept. -/
def Referenced (s : State Dev Hash) (hash : Hash) : Prop :=
  (∃ ino, s.Lists ino hash) ∨ (∃ ino, s.Content ino hash) ∨ s.Captured hash ∨
    hash ∈ s.publishedRoot.hashes ∨ hash ∈ s.snapshotTable.flatMap InoMap.hashes

/-- The pin of a dedup hit: an inode or a checkpoint holds it. -/
def PinnedHit (s : State Dev Hash) (hash : Hash) : Prop :=
  ∃ ino, (.file ino, hash) ∈ s.pins ∨ (.captured ino, hash) ∈ s.pins

/-- A segment that is open, or was sealed at most `k` generations ago. -/
def Young (s : State Dev Hash) (k : Nat) (id : SegmentId) : Prop :=
  s.IsOpen id ∨ ∃ stamp, s.sealGenerations id = some stamp ∧ s.publishedGeneration ≤ stamp + k

/-- Every device has a copy in a young segment. -/
def Fresh (s : State Dev Hash) (k : Nat) (hash : Hash) : Prop :=
  ∃ loc, (∀ dev, s.HasAt false dev loc hash) ∧ s.Young k loc.segmentId

theorem Content.linked (h : s.Content ino hash) : s.Linked ino := by
  obtain ⟨_, hchunks, _⟩ := h
  simp [Linked, hchunks]

theorem InoMap.mem_hashes {inoMap : InoMap Hash} :
    hash ∈ inoMap.hashes ↔ ∃ ino chunks, (ino, chunks) ∈ inoMap ∧ hash ∈ chunks := by
  simp [InoMap.hashes]

/-- How references move in one step that is not the coalescer's. -/
structure Moves (s t : State Dev Hash) : Prop where
  content : ∀ ino hash, t.Content ino hash → s.Content ino hash ∨ s.Lists ino hash
  lists : ∀ ino hash, t.Lists ino hash → s.Lists ino hash ∨ s.Content ino hash ∨
    (.file ino, hash) ∈ t.pins ∧ (s.cache hash).isSome ∨ t.Fresh 0 hash ∧ (s.ops ino).isSome
  captured : ∀ hash, t.Captured hash → s.Captured hash ∨ ∃ ino, s.Content ino hash
  published : ∀ hash ∈ t.publishedRoot.hashes, hash ∈ s.publishedRoot.hashes ∨ s.Captured hash

/-- Steps of the writers: they leave the checkpoint and the published root alone. -/
theorem Moves.writer (hcheckpoint : t.checkpoint = s.checkpoint)
    (hpublished : t.publishedRoot = s.publishedRoot)
    (hcontent : ∀ ino hash, t.Content ino hash → s.Content ino hash ∨ s.Lists ino hash)
    (hlists : ∀ ino hash, t.Lists ino hash → s.Lists ino hash ∨ s.Content ino hash ∨
      (.file ino, hash) ∈ t.pins ∧ (s.cache hash).isSome ∨ t.Fresh 0 hash ∧ (s.ops ino).isSome) :
    Moves s t := by
  refine ⟨hcontent, hlists, fun hash h ↦ .inl ?_, fun _ h ↦ .inl ?_⟩
  · rwa [Captured, ← hcheckpoint]
  · rwa [← hpublished]

/-- Steps that leave every reference where it is. -/
theorem Moves.of_eq (hinodes : t.inodes = s.inodes) (hsessions : t.sessions = s.sessions)
    (hfileState : t.fileState = s.fileState) (hops : t.ops = s.ops)
    (hcheckpoint : t.checkpoint = s.checkpoint) (hpublished : t.publishedRoot = s.publishedRoot) :
    Moves s t := by
  refine .writer hcheckpoint hpublished (fun ino hash h ↦ .inl ?_) fun _ _ h ↦ .inl ?_
  · rwa [Content, ← hinodes]
  · rwa [Lists, ← hsessions, ← hfileState, ← hops]

/-- An operation changes, and what it lists was listed before. -/
theorem Lists.of_setOp (s : State Dev Hash) (ino : Ino) (op : Option (Op Hash))
    (hrefs : ∀ o, op = some o → ∀ hash ∈ o.refs, s.Lists ino hash)
    (h : (s.setOp ino op).Lists ino' hash) : s.Lists ino' hash := by
  rcases h with hsession | hfile | ⟨o, ho, hmem⟩
  · exact .inl hsession
  · exact .inr (.inl hfile)
  · rcases of_update ho with ⟨rfl, hop⟩ | ⟨-, ho⟩
    · exact hrefs o hop hash hmem
    · exact .inr (.inr ⟨o, ho, hmem⟩)

theorem currentChunks_referenced (hmem : hash ∈ s.currentChunks ino) :
    s.Lists ino hash ∨ s.Content ino hash := by
  unfold currentChunks at hmem
  cases hsession : s.sessions ino with
  | some chunks => exact .inl (.inl ⟨chunks, hsession, by simpa [hsession] using hmem⟩)
  | none =>
    cases hfile : s.fileState ino with
    | some chunks => exact .inl (.inr (.inl ⟨chunks, hfile, by simpa [hsession, hfile] using hmem⟩))
    | none =>
      cases hlookup : s.inodes.lookup ino with
      | some chunks => exact .inr ⟨chunks, hlookup, by simpa [hsession, hfile, hlookup] using hmem⟩
      | none => simp [hsession, hfile, hlookup] at hmem

theorem lookup_setContent : (s.setContent ino chunks).inodes.lookup ino' =
      if ino' = ino then (s.inodes.lookup ino').map fun _ ↦ chunks else s.inodes.lookup ino' :=
  Table.lookup_modify ino ino' (fun _ ↦ chunks) s.inodes

theorem Content.of_setContent (h : (s.setContent ino chunks).Content ino' hash) :
    s.Content ino' hash ∨ ino' = ino ∧ hash ∈ chunks := by
  obtain ⟨chunks', hlookup, hmem⟩ := h
  rw [lookup_setContent] at hlookup
  split_ifs at hlookup with heq
  · obtain ⟨_, _, rfl⟩ := map_eq_some_iff.1 hlookup
    exact .inr ⟨heq, hmem⟩
  · exact .inl ⟨chunks', hlookup, hmem⟩

/-- A rewrite and an fsync leave all that the file lists in its state. -/
theorem Lists.of_finish {inodes : Table Ino (List Hash)} (h : Lists { s with
      inodes := inodes
      sessions := update s.sessions ino none
      fileState := update s.fileState ino (some chunks)
      ops := update s.ops ino none } ino' hash) :
    ino' ≠ ino ∧ s.Lists ino' hash ∨ ino' = ino ∧ hash ∈ chunks := by
  by_cases heq : ino' = ino
  · exact .inr ⟨heq, by simpa [Lists, heq] using h⟩
  · exact .inl ⟨heq, by simpa [Lists, heq] using h⟩

section Writers

/-- The refs of the operation under way are listed. -/
theorem lists_refs (h : s.ops ino = some op) (hmem : hash ∈ op.refs) : s.Lists ino hash :=
  .inr (.inr ⟨op, h, hmem⟩)

/-- An operation goes on: what it lists it listed before, has found by a dedup hit or appended. -/
theorem Moves.of_op (hrefs : ∀ hash ∈ op.refs, s.Lists ino hash ∨
      (.file ino, hash) ∈ t.pins ∧ (s.cache hash).isSome ∨
        (t.setOp ino (some op)).Fresh 0 hash ∧ (s.ops ino).isSome)
    (hframe : t = { s with
      pins := t.pins, dirtyInodes := t.dirtyInodes, segments := t.segments, nextSegmentId := t.nextSegmentId
      writers := t.writers, pendingIndex := t.pendingIndex, cache := t.cache } := by rfl) :
    Moves s (t.setOp ino (some op)) := by
  rw [hframe] at hrefs ⊢
  refine .writer rfl rfl (fun ino' hash h ↦ .inl h) fun _ hash h ↦ ?_
  rcases h with hsession | hfile | ⟨o, ho, hmem⟩
  · exact .inl (.inl hsession)
  · exact .inl (.inr (.inl hfile))
  · rcases of_update ho with ⟨rfl, ⟨⟩⟩ | ⟨-, ho⟩
    · exact (hrefs hash hmem).imp_right .inr
    · exact .inl (lists_refs ho hmem)

theorem create_moves : Moves s s.create := by
  refine .writer rfl rfl (fun ino hash h ↦ .inl ?_) fun _ _ h ↦ .inl h
  obtain ⟨chunks, hlookup, hmem⟩ := h
  rcases Table.of_lookup_insert hlookup with ⟨-, rfl⟩ | ⟨-, hlookup⟩
  · simp at hmem
  · exact ⟨chunks, hlookup, hmem⟩

theorem unlink_moves (ino : Ino) :
    Moves s { s with inodes := s.inodes.erase ino, dirtyInodes := s.dirtyInodes.erase ino } := by
  refine .writer rfl rfl (fun _ hash h ↦ .inl ?_) fun _ _ h ↦ .inl h
  obtain ⟨chunks, hlookup, hmem⟩ := h
  exact ⟨chunks, (Table.of_lookup_erase hlookup).2, hmem⟩

theorem hydrate_moves (hlookup : s.inodes.lookup ino = some chunks) :
    Moves s { s with fileState := update s.fileState ino (some chunks) } := by
  refine .writer rfl rfl (fun _ hash h ↦ .inl h) fun _ _ h ↦ ?_
  rcases h with hsession | ⟨chunks', hfile, hmem⟩ | hop
  · exact .inl (.inl hsession)
  · rcases of_update hfile with ⟨rfl, ⟨⟩⟩ | ⟨-, hfile⟩
    · exact .inr (.inl ⟨chunks, hlookup, hmem⟩)
    · exact .inl (.inr (.inl ⟨chunks', hfile, hmem⟩))
  · exact .inl (.inr (.inr hop))

variable {goal : Goal} {todo refs : List Hash}
  (hop : s.ops ino = some ⟨goal, todo, .idle, refs⟩)

include hop

/-- What a finished operation lists: the chunks from before and its own. -/
theorem finished_referenced (hmem : hash ∈ s.currentChunks ino ++ refs) :
    s.Lists ino hash ∨ s.Content ino hash := by
  rcases mem_append.1 hmem with hmem | hmem
  · exact currentChunks_referenced hmem
  · exact .inl (lists_refs hop hmem)

theorem append_moves : Moves s ({ s with
    sessions := update s.sessions ino (some (s.currentChunks ino ++ refs)) }.setOp ino none) := by
  refine .writer rfl rfl (fun _ hash h ↦ .inl h) fun _ _ h ↦ ?_
  rcases h with ⟨chunks, hsession, hmem⟩ | hfile | ⟨o, ho, hmem⟩
  · rcases of_update hsession with ⟨rfl, ⟨⟩⟩ | ⟨-, hsession⟩
    · exact (finished_referenced hop hmem).imp_right .inl
    · exact .inl (.inl ⟨chunks, hsession, hmem⟩)
  · exact .inl (.inr (.inl hfile))
  · rcases of_update ho with ⟨-, ⟨⟩⟩ | ⟨-, ho⟩
    exact .inl (.inr (.inr ⟨o, ho, hmem⟩))

theorem rewrite_moves : Moves s ({ s with
    sessions := update s.sessions ino none
    fileState := update s.fileState ino (some refs) }.setOp ino none) := by
  refine .writer rfl rfl (fun _ hash h ↦ .inl h) fun _ _ h ↦ .inl ?_
  rcases h.of_finish with ⟨-, h⟩ | ⟨rfl, hmem⟩
  · exact h
  · exact lists_refs hop hmem

theorem fsync_moves : Moves s ((s.finishFsync ino refs).setOp ino none) := by
  refine .writer rfl rfl (fun ino' hash h ↦ ?_) fun ino' hash h ↦ ?_
  · have h : (s.setContent ino (s.currentChunks ino ++ refs)).Content ino' hash := h
    rcases h.of_setContent with h | ⟨rfl, hmem⟩
    · exact .inl h
    · exact (finished_referenced hop hmem).symm
  · rcases h.of_finish with ⟨-, h⟩ | ⟨rfl, hmem⟩
    · exact .inl h
    · exact (finished_referenced hop hmem).imp_right .inl

end Writers

section Checkpoints

variable {refs : List Hash}

theorem captureFile_lists (h : (s.captureFile ino refs).Lists ino' hash) : s.Lists ino' hash := by
  unfold captureFile at h
  split at h
  · by_cases heq : ino' = ino
    · subst heq
      simp only [Lists, update_self, reduceCtorEq, false_and, exists_false, false_or] at h
      exact .inr (.inr h)
    · simpa [Lists, setContent, heq] using h
  · exact h
  · exact h

theorem captureFile_content (hrefs : ∀ hash ∈ refs, s.Lists ino hash)
    (h : (s.captureFile ino refs).Content ino' hash) : s.Content ino' hash ∨ s.Lists ino' hash := by
  unfold captureFile at h
  split at h
  · next chunks hsession =>
    have h : (s.setContent ino (chunks ++ refs)).Content ino' hash := h
    rcases h.of_setContent with h | ⟨rfl, hmem⟩
    · exact .inl h
    · rcases mem_append.1 hmem with hmem | hmem
      · exact .inr (.inl ⟨chunks, hsession, hmem⟩)
      · exact .inr (hrefs hash hmem)
  · next chunks _ hfile =>
    rcases h.of_setContent with h | ⟨rfl, hmem⟩
    · exact .inl h
    · exact .inr (.inr (.inl ⟨chunks, hfile, hmem⟩))
  · exact .inl h

variable {c : Checkpoint Hash}

theorem finishCapture_moves (hc : s.checkpoint = some c)
    (hop : s.ops ino = some ⟨.capture, [], .idle, refs⟩) :
    Moves s ((((s.capturePins ino).captureFile ino refs).setOp ino none).setCheckpoint
      (some { c with capturing := none })) := by
  have hframe := captureFile_untouched (s.capturePins ino) ino refs
  have hrefs : ∀ hash ∈ refs, (s.capturePins ino).Lists ino hash := fun hash ↦ lists_refs (s := s) hop
  refine ⟨fun ino' hash h ↦ ?_, fun ino' hash h ↦ .inl ?_, fun hash h ↦ ?_,
    fun hash h ↦ .inl (hframe.publishedRoot ▸ h)⟩
  · have h : ((s.capturePins ino).captureFile ino refs).Content ino' hash := h
    exact captureFile_content (s := s.capturePins ino) hrefs h
  · have h := Lists.of_setOp ((s.capturePins ino).captureFile ino refs) ino none (by simp) h
    exact captureFile_lists (s := s.capturePins ino) h
  · obtain ⟨_, hc', hlate, hmem⟩ := h
    cases hc'
    exact .inl ⟨c, hc, hlate, hmem⟩

theorem Advances.moves (hst : s.Advances c t) (hc : s.checkpoint = some c) : Moves s t := by
  -- contents and lists stay; what is left to show is about the captured inodes
  have hframe := hst.frame
  refine ⟨fun ino hash h ↦ .inl ?_, fun ino hash h ↦ .inl ?_, ?_, ?_⟩
  · rwa [Content, ← hframe.inodes]
  · rwa [Lists, ← hframe.sessions, ← hframe.fileState, ← hframe.ops]
  · rintro _ ⟨c', hc', hlate, hmem⟩
    cases hst with
    | snapshot =>
      cases hc'
      obtain ⟨ino, chunks, hentry, hmem⟩ := InoMap.mem_hashes.1 hmem
      exact .inr ⟨ino, chunks, Table.mem_toList.1 hentry, hmem⟩
    | root hphase | publish hphase =>
      cases hc'
      exact .inl ⟨c, hc, by simp [hphase, isLate], hmem⟩
    | release => exact .inl ⟨c', hc', hlate, hmem⟩
    | superblock => simp [writeSuperblock, setCheckpoint] at hc'
    | orphan hphase =>
      cases hc'
      simp [hphase, isLate] at hlate
    | _ =>
      cases hc'
      simp [isLate] at hlate
  · intro _ hmem
    cases hst with
    | publishGeneration hphase => exact .inr ⟨c, hc, by simp [hphase, isLate], hmem⟩
    | _ => exact .inl hmem

end Checkpoints

/-- Every step that is not the coalescer's only moves references, or adds one by a dedup hit or
an append. -/
theorem environment_moves {a : Action Dev Hash} (hcopies : s.Copies) (ha : a.isPass = false)
    (hst : s.step setup a = some t) : Moves s t := by
  cases environment_effect ha hst with
  | create => exact create_moves
  | unlink => exact unlink_moves _
  | hydrate hlookup => exact hydrate_moves hlookup
  | begin => exact .of_op (t := s.markDirty _) (by simp)
  | pin hop | miss hop | unpin hop => exact .of_op fun hash hmem ↦ .inl (lists_refs hop hmem)
  | hit hop hhit =>
    refine .of_op fun hash hmem ↦ ?_
    rcases mem_append.1 hmem with hmem | hmem
    · exact .inl (lists_refs hop hmem)
    · obtain rfl := mem_singleton.1 hmem
      exact .inr (.inl ⟨mem_cons_self, hhit⟩)
  | @commit ino _ hash _ _ hop =>
    obtain ⟨_, _, loc, hat, ho⟩ := hcopies.append setup (setup.shardOf ino) hash
    refine .of_op (fun _ hmem ↦ ?_) (by rw [append_eq])
    rcases mem_append.1 hmem with hmem | hmem
    · exact .inl (lists_refs hop hmem)
    · obtain rfl := mem_singleton.1 hmem
      exact .inr (.inr ⟨⟨loc, hat, .inl ho⟩, by simp [hop]⟩)
  | append hop => exact append_moves hop
  | rewrite hop => exact rewrite_moves hop
  | fsync hop => exact fsync_moves hop
  | setSnapshotTable => exact .of_eq rfl rfl rfl rfl rfl rfl
  | records heq =>
    subst heq
    exact .of_eq rfl rfl rfl rfl rfl rfl
  | beginCheckpoint =>
    refine ⟨fun ino hash h ↦ .inl h, fun ino hash h ↦ .inl h, fun hash h ↦ ?_, fun hash h ↦ .inl h⟩
    obtain ⟨c, hc, hlate, _⟩ := h
    cases hc
    simp [isLate] at hlate
  | checkpointStep hc hadvances => exact hadvances.moves hc
  | @beginCapture c ino tail hc =>
    refine ⟨fun ino hash h ↦ .inl h, fun ino' hash h ↦ .inl ?_, fun hash h ↦ ?_, fun hash h ↦ .inl h⟩
    · exact Lists.of_setOp s ino (some ⟨.capture, tail, .idle, []⟩) (by simp) h
    · obtain ⟨_, hc', hlate, hmem⟩ := h
      cases hc'
      exact .inl ⟨c, hc, hlate, hmem⟩
  | finishCapture hc hop => exact finishCapture_moves hc hop
  | failCheckpoint =>
    refine ⟨fun _ hash h ↦ .inl h, fun _ hash h ↦ .inl h, fun hash h ↦ ?_, fun _ h ↦ .inl h⟩
    obtain ⟨_, hc', _⟩ := h
    simp [restoreOnFailure] at hc'

end State

end Lchfs.Reclaim
