import Lchfs.Reclaim.Bookkeeping

/-!
# What keeps a reference alive

Every chunk a file of the namespace references is in the published root, is pinned, or has
a copy in a segment that is too young to be reclaimed. A segment sealed at a published
generation stays young until two more are published, and a checkpoint that publishes one
has by then captured what the files relied on. Files replayed at the mount are the
exception until the first checkpoint: `settled` says that there are none.
-/

set_option linter.unusedSectionVars false

namespace Lchfs.Reclaim

open Lchfs.Format (Ino ShardId SegmentId)
open Lchfs.Library
open List Option

variable {Dev Hash : Type} [DecidableEq Dev] [DecidableEq Hash]

/-- The dirty set is taken and the generation is not published yet. -/
def Phase.isDrained : Phase → Bool
  | .drain => false
  | .release => false
  | .superblock => false
  | _ => true

namespace State

variable {setup : Setup Dev} {s t : State Dev Hash} {ino : Ino} {hash : Hash} {settled : Prop}
  {k : Nat} {inoMap : InoMap Hash} {refs : List Hash} {k' : Nat} {dur : Bool}

def isDrained (s : State Dev Hash) : Bool :=
  s.checkpoint.any (·.phase.isDrained)

/-- The inodes the running checkpoint is about to publish. -/
def lateSnapshot (s : State Dev Hash) : Option (InoMap Hash) :=
  s.checkpoint.bind fun c ↦ if c.phase.isLate then some c.inoSnapshot else none

/-- The running checkpoint has yet to capture the inode. -/
def Remaining (s : State Dev Hash) (ino : Ino) : Prop :=
  ∃ c, s.checkpoint = some c ∧ (c.phase = .work ∧ ino ∈ c.dirty ∨
    c.phase = .capture ∧ (ino ∈ c.work ∨ c.capturing = some ino))

/-- For how many generations a copy must be young that only the next checkpoint captures. -/
def margin (s : State Dev Hash) : Nat :=
  if s.isDrained then 0 else 1

/-- What keeps a hash alive that a file lists. -/
def Kept (s : State Dev Hash) (ino : Ino) (hash : Hash) : Prop :=
  s.Content ino hash ∨ (.file ino, hash) ∈ s.pins ∨ s.Remaining ino ∧ s.Fresh 1 hash ∨
    ino ∈ s.dirtyInodes ∧ s.Fresh s.margin hash

/-- What keeps a hash alive that is in an inode's content. -/
def Backed (settled : Prop) (s : State Dev Hash) (ino : Ino) (hash : Hash) : Prop :=
  hash ∈ s.publishedRoot.hashes ∨ (.file ino, hash) ∈ s.pins ∨
    (.captured ino, hash) ∈ s.pins ∧ s.isDrained = true ∨ s.Fresh 1 hash ∨
    ¬settled ∧ s.publishedGeneration = s.mountGeneration

structure Covered (settled : Prop) (s : State Dev Hash) : Prop where
  listed : ∀ ino hash, s.Linked ino → s.Lists ino hash → s.Kept ino hash
  content : ∀ ino hash, s.Content ino hash → s.Backed settled ino hash
  snapshot : ∀ inoMap, s.lateSnapshot = some inoMap → ∀ ino chunks hash, (ino, chunks) ∈ inoMap →
    hash ∈ chunks → s.Backed settled ino hash
  later : ∀ inoMap, s.lateSnapshot = some inoMap → ∀ ino hash, s.Content ino hash →
    hash ∈ inoMap.hashes ∨ (.file ino, hash) ∈ s.pins ∨ s.Fresh 0 hash
  op : ∀ ino op, s.Linked ino → s.ops ino = some op → ino ∈ s.dirtyInodes ∨ s.Remaining ino

theorem Fresh.mono (h : s.Fresh k hash) (hle : k ≤ k') : s.Fresh k' hash := by
  obtain ⟨loc, hat, hyoung⟩ := h
  refine ⟨loc, hat, hyoung.imp_right ?_⟩
  rintro ⟨stamp, hstamp, hpublished⟩
  exact ⟨stamp, hstamp, Nat.le_trans hpublished (Nat.add_le_add_left hle stamp)⟩

theorem margin_le_one : s.margin ≤ 1 := by
  unfold margin
  split <;> simp

/-- Copies age by one generation at most. -/
theorem Fresh.grows (h : s.Fresh k hash) (hst : Grows setup s t)
    (hpublished : t.publishedGeneration + k ≤ s.publishedGeneration + k') : t.Fresh k' hash := by
  obtain ⟨loc, hat, hyoung⟩ := h
  refine ⟨loc, fun dev ↦ hst.hasAt _ _ _ _ (hat dev), ?_⟩
  by_cases ho : s.IsOpen loc.segmentId
  · refine (hst.opened _ ho).imp_right fun hstamp ↦ ⟨_, hstamp, ?_⟩
    omega
  · obtain ⟨stamp, hstamp, hyoung⟩ := hyoung.resolve_left ho
    refine .inr ⟨stamp, (hst.stamp _ ho).trans hstamp, ?_⟩
    omega

theorem not_remaining_of_late (h : s.lateSnapshot = some inoMap) : ¬s.Remaining ino := by
  rintro ⟨c, hc, hcase⟩
  simp only [lateSnapshot, hc, bind_some] at h
  rcases hcase with ⟨hphase, _⟩ | ⟨hphase, _⟩ <;> simp [hphase, Phase.isLate] at h

theorem margin_of_late (h : s.lateSnapshot = some inoMap) : s.margin = 0 := by
  obtain ⟨c, hc, hif⟩ := bind_eq_some_iff.1 h
  split_ifs at hif with hlate
  have hdrained : c.phase.isDrained = true := by
    cases hphase : c.phase <;> simp [hphase, Phase.isLate, Phase.isDrained] at hlate ⊢
  simp [margin, isDrained, hc, hdrained]

/-- What a step keeps of the pins, the copies and the checkpoint that files rely on. -/
structure Stable (s t : State Dev Hash) : Prop where
  fresh : ∀ k hash, k ≤ 1 → s.Fresh k hash → t.Fresh k hash
  filePins : ∀ ino hash, t.Linked ino ∨ t.lateSnapshot.isSome → (.file ino, hash) ∈ s.pins →
    (.file ino, hash) ∈ t.pins
  capturedPins : s.isDrained = true → ∀ ino hash, (.captured ino, hash) ∈ s.pins →
    (.captured ino, hash) ∈ t.pins
  dirty : ∀ ino ∈ s.dirtyInodes, t.Linked ino → ino ∈ t.dirtyInodes
  remaining : ∀ ino, t.Linked ino → s.Remaining ino → t.Remaining ino
  drained : t.isDrained = s.isDrained
  late : t.lateSnapshot = s.lateSnapshot
  publishedRoot : t.publishedRoot = s.publishedRoot
  publishedGeneration : t.publishedGeneration = s.publishedGeneration
  mountGeneration : t.mountGeneration = s.mountGeneration

/-- What backs a hash goes on doing so if every pin does and no copy gets too old. -/
theorem Backed.imp (h : s.Backed settled ino hash)
    (hfile : (.file ino, hash) ∈ s.pins → t.Backed settled ino hash)
    (hcaptured : (.captured ino, hash) ∈ s.pins → s.isDrained = true → t.Backed settled ino hash)
    (hfresh : s.Fresh 1 hash → t.Fresh 1 hash) (hroot : t.publishedRoot = s.publishedRoot := by rfl)
    (hpublished : t.publishedGeneration = s.publishedGeneration := by rfl)
    (hmount : t.mountGeneration = s.mountGeneration := by rfl) : t.Backed settled ino hash := by
  rcases h with h | h | ⟨h, hdrained⟩ | h | h
  · exact .inl (hroot ▸ h)
  · exact hfile h
  · exact hcaptured h hdrained
  · exact .inr (.inr (.inr (.inl (hfresh h))))
  · exact .inr (.inr (.inr (.inr ⟨h.1, by rw [hpublished, hmount]; exact h.2⟩)))

theorem Backed.stable (hst : Stable s t) (h : s.Backed settled ino hash)
    (hino : t.Linked ino ∨ t.lateSnapshot.isSome) : t.Backed settled ino hash := by
  refine h.imp (fun hpin ↦ .inr (.inl (hst.filePins ino hash hino hpin))) (fun hpin hdrained ↦ ?_)
    (hst.fresh 1 hash le_rfl) hst.publishedRoot hst.publishedGeneration hst.mountGeneration
  exact .inr (.inr (.inl ⟨hst.capturedPins hdrained ino hash hpin, hst.drained ▸ hdrained⟩))

/-- What a file lists, taken into its content. -/
theorem Kept.backed (h : s.Kept ino hash) (hcovered : Covered settled s) :
    s.Backed settled ino hash := by
  rcases h with h | h | ⟨_, h⟩ | ⟨_, h⟩
  · exact hcovered.content ino hash h
  · exact .inr (.inl h)
  · exact .inr (.inr (.inr (.inl h)))
  · exact .inr (.inr (.inr (.inl (h.mono margin_le_one))))

/-- Steps that only move references keep every file covered. -/
theorem Covered.stable (h : Covered settled s) (hst : Stable s t) (hmoves : Moves s t)
    (hlinked : ∀ ino, t.Linked ino → s.Linked ino ∨ s.ops ino = none ∧ ∀ hash, ¬s.Lists ino hash)
    (hstays : ∀ ino hash, t.Linked ino → t.Lists ino hash → s.Content ino hash → t.Content ino hash)
    (hops : ∀ ino op, t.Linked ino → t.ops ino = some op →
      s.Linked ino ∧ (s.ops ino).isSome ∨ ino ∈ t.dirtyInodes ∨ t.Remaining ino) :
    Covered settled t := by
  have hmargin : t.margin = s.margin := by rw [margin, margin, hst.drained]
  have hkept : ∀ ino hash, t.Linked ino → s.Lists ino hash → s.Kept ino hash := by
    intro ino hash hl hlists
    rcases hlinked ino hl with hl' | ⟨_, hnone⟩
    · exact h.listed ino hash hl' hlists
    · exact absurd hlists (hnone hash)
  have hop : ∀ ino, t.Linked ino → s.Linked ino ∧ (s.ops ino).isSome →
      ino ∈ t.dirtyInodes ∨ t.Remaining ino := by
    rintro ino hl ⟨hl', hsome⟩
    obtain ⟨op, hop⟩ := isSome_iff_exists.1 hsome
    exact (h.op ino op hl' hop).imp (fun hd ↦ hst.dirty ino hd hl) (hst.remaining ino hl)
  refine ⟨fun ino hash hl hlists ↦ ?_, fun ino hash hcontent ↦ ?_, fun m hm ino chunks hash hmem hhash ↦ ?_,
    fun m hm ino hash hcontent ↦ ?_, fun ino op hl ho ↦ (hops ino op hl ho).elim (hop ino hl) id⟩
  · rcases hmoves.lists ino hash hlists with hlists' | hcontent | ⟨hpin, _⟩ | ⟨hfresh, hsome⟩
    · rcases hkept ino hash hl hlists' with h1 | h2 | ⟨h3, hf⟩ | ⟨h4, hf⟩
      · exact .inl (hstays ino hash hl hlists h1)
      · exact .inr (.inl (hst.filePins ino hash (.inl hl) h2))
      · exact .inr (.inr (.inl ⟨hst.remaining ino hl h3, hst.fresh 1 hash le_rfl hf⟩))
      · exact .inr (.inr (.inr ⟨hst.dirty ino h4 hl, hmargin ▸ hst.fresh _ hash margin_le_one hf⟩))
    · exact .inl (hstays ino hash hl hlists hcontent)
    · exact .inr (.inl hpin)
    · -- the operation that appended it has marked the inode dirty
      have hl' : s.Linked ino := (hlinked ino hl).resolve_right fun hnone ↦ by simp [hnone.1] at hsome
      rcases hop ino hl ⟨hl', hsome⟩ with hd | hr
      · exact .inr (.inr (.inr ⟨hd, hfresh.mono (Nat.zero_le _)⟩))
      · exact .inr (.inr (.inl ⟨hr, hfresh.mono (Nat.zero_le _)⟩))
  · have hl := hcontent.linked
    refine Backed.stable hst ?_ (.inl hl)
    rcases hmoves.content ino hash hcontent with hcontent | hlists
    · exact h.content ino hash hcontent
    · exact (hkept ino hash hl hlists).backed h
  · exact Backed.stable hst (h.snapshot m (hst.late ▸ hm) ino chunks hash hmem hhash) (.inr (by simp [hm]))
  · have hm' : s.lateSnapshot = some m := hst.late ▸ hm
    have hl := hcontent.linked
    have hold : hash ∈ m.hashes ∨ (.file ino, hash) ∈ s.pins ∨ s.Fresh 0 hash := by
      rcases hmoves.content ino hash hcontent with hcontent | hlists
      · exact h.later m hm' ino hash hcontent
      · rcases hkept ino hash hl hlists with h1 | h2 | ⟨h3, _⟩ | ⟨_, hf⟩
        · exact h.later m hm' ino hash h1
        · exact .inr (.inl h2)
        · exact absurd h3 (not_remaining_of_late hm')
        · exact .inr (.inr (margin_of_late hm' ▸ hf))
    exact hold.imp_right (Or.imp (hst.filePins ino hash (.inl hl)) (hst.fresh 0 hash (Nat.zero_le 1)))

/-- A segment past the gate is not young. -/
theorem Old.not_young {r : Repack Dev Hash} (h : s.Old r) (hcopies : s.Copies) (hle : k ≤ 1) :
    ¬s.Young k r.oldId := by
  rintro (ho | ⟨stamp, hstamp, hyoung⟩)
  · exact h.not_isOpen hcopies ho
  · have hmay := h.mayReclaim
    rw [State.mayReclaim, hstamp] at hmay
    have hold : stamp + 2 ≤ s.publishedGeneration := of_decide_eq_true hmay
    omega

section Writers

/-- The steps of writers and committers leave the checkpoint alone. -/
theorem Stable.writer (hgrows : Grows setup s t)
    (hfile : ∀ ino hash, (.file ino, hash) ∈ s.pins → (.file ino, hash) ∈ t.pins := by exact fun _ _ ↦ id)
    (hcaptured : ∀ ino hash, (.captured ino, hash) ∈ s.pins → (.captured ino, hash) ∈ t.pins := by
      exact fun _ _ ↦ id)
    (hdirty : ∀ ino ∈ s.dirtyInodes, t.Linked ino → ino ∈ t.dirtyInodes := by exact fun _ hd _ ↦ hd)
    (hcheckpoint : t.checkpoint = s.checkpoint := by rfl)
    (hroot : t.publishedRoot = s.publishedRoot := by rfl)
    (hpublished : t.publishedGeneration = s.publishedGeneration := by rfl)
    (hmount : t.mountGeneration = s.mountGeneration := by rfl) : Stable s t where
  fresh k hash _ h := h.grows hgrows (by rw [hpublished])
  filePins ino hash _ := hfile ino hash
  capturedPins _ := hcaptured
  dirty := hdirty
  remaining ino _ h := by rwa [Remaining, hcheckpoint]
  drained := by rw [isDrained, isDrained, hcheckpoint]
  late := by rw [lateSnapshot, lateSnapshot, hcheckpoint]
  publishedRoot := hroot
  publishedGeneration := hpublished
  mountGeneration := hmount

section

variable (h : Covered settled s) (hst : Stable s t) (hmoves : Moves s t)

include h hst hmoves

/-- Steps that do not change the inodes. -/
theorem Covered.of_inodes (hinodes : t.inodes = s.inodes)
    (hops : ∀ ino op, t.ops ino = some op → (s.ops ino).isSome ∨ ino ∈ t.dirtyInodes ∨ t.Remaining ino) :
    Covered settled t := by
  have hlinked : ∀ ino, t.Linked ino → s.Linked ino := fun ino hl ↦ by rwa [Linked, ← hinodes]
  refine h.stable hst hmoves (fun ino hl ↦ .inl (hlinked ino hl)) (fun ino _ _ _ _ ↦ ?_)
    fun ino op hl hop ↦ (hops ino op hop).imp_left fun hsome ↦ ⟨hlinked ino hl, hsome⟩
  rwa [Content, hinodes]

theorem Covered.of_ops (hinodes : t.inodes = s.inodes := by rfl) (hops : t.ops = s.ops := by rfl) :
    Covered settled t :=
  h.of_inodes hst hmoves hinodes fun _ _ ho ↦ .inl (by simp [← hops, ho])

/-- An operation goes on or ends. -/
theorem Covered.of_op {op : Op Hash} {o : Option (Op Hash)} (hop : s.ops ino = some op)
    (hops : t.ops = Function.update s.ops ino o := by rfl) (hinodes : t.inodes = s.inodes := by rfl) :
    Covered settled t := by
  refine h.of_inodes hst hmoves hinodes fun _ _ ho ↦ .inl ?_
  rw [hops] at ho
  rcases of_update ho with ⟨rfl, -⟩ | ⟨-, ho⟩
  · simp [hop]
  · simp [ho]

end

theorem Tidy.not_lists (h : s.Tidy) (hlinked : ¬s.Linked ino) : ¬s.Lists ino hash := by
  obtain ⟨hsession, hfile, hop⟩ := h.closed ino hlinked
  rintro (⟨chunks, hchunks, _⟩ | ⟨chunks, hchunks, _⟩ | ⟨op, ho, hmem⟩)
  · simp [hsession] at hchunks
  · simp [hfile] at hchunks
  · simp [(hop op ho).2.2] at hmem

theorem Covered.create (h : Covered settled s) (htidy : s.Tidy)
    (hst : Stable s s.create) : Covered settled s.create := by
  have hnew : ¬s.Linked s.nextIno := fun hl ↦ Nat.lt_irrefl _ (htidy.linked _ hl)
  refine h.stable hst create_moves (fun ino hl ↦ ?_) (fun ino hash _ _ hcontent ↦ ?_)
    fun ino op hl hop ↦ .inl ⟨?_, by simp [show s.ops ino = some op from hop]⟩
  · rcases linked_create.1 hl with hl | rfl
    · exact .inl hl
    · refine .inr ⟨?_, fun _ ↦ htidy.not_lists hnew⟩
      cases hop : s.ops s.nextIno with
      | none => rfl
      | some op => exact absurd (htidy.ops _ op hop) (Nat.lt_irrefl _)
  · have hne : ino ≠ s.nextIno := fun heq ↦ hnew (heq ▸ hcontent.linked)
    obtain ⟨chunks, _, hmem⟩ := hcontent
    exact ⟨chunks, by rwa [State.create, AList.lookup_insert_ne hne], hmem⟩
  · exact (linked_create.1 hl).resolve_right (Nat.ne_of_lt (htidy.ops ino op hop))

theorem Covered.unlink (h : Covered settled s)
    (hst : Stable s { s with inodes := s.inodes.erase ino, dirtyInodes := s.dirtyInodes.erase ino }) :
    Covered settled { s with inodes := s.inodes.erase ino, dirtyInodes := s.dirtyInodes.erase ino } := by
  refine h.stable hst (unlink_moves ino) (fun ino' hl ↦ .inl (linked_unlink.1 hl).1)
    (fun ino' _ hl _ hcontent ↦ ?_)
    fun ino' op hl hop ↦ .inl ⟨(linked_unlink.1 hl).1, by simp [show s.ops ino' = some op from hop]⟩
  obtain ⟨chunks, hlookup, hmem⟩ := hcontent
  exact ⟨chunks, by simpa [AList.lookup_erase_ne (linked_unlink.1 hl).2] using hlookup, hmem⟩

theorem Covered.fsync (h : Covered settled s)
    (hst : Stable s ((s.finishFsync ino refs).setOp ino none))
    (hmoves : Moves s ((s.finishFsync ino refs).setOp ino none)) :
    Covered settled ((s.finishFsync ino refs).setOp ino none) := by
  have hlinked : ∀ ino', ((s.finishFsync ino refs).setOp ino none).Linked ino' ↔ s.Linked ino' :=
    fun _ ↦ linked_setContent
  refine h.stable hst hmoves (fun ino' hl ↦ .inl ((hlinked ino').1 hl))
    (fun ino' _ hl hlists hcontent ↦ ?_) fun ino' _ hl ho ↦ .inl ⟨(hlinked ino').1 hl, ?_⟩
  · rcases hlists.of_finish with ⟨hne, -⟩ | ⟨rfl, hmem⟩
    · obtain ⟨chunks, hlookup, hmem⟩ := hcontent
      exact ⟨chunks, (lookup_setContent (s := s)).trans (by simpa [hne] using hlookup), hmem⟩
    · -- all the file lists now is its content
      obtain ⟨_, hold⟩ := isSome_iff_exists.1 ((hlinked ino').1 hl)
      exact ⟨_, (lookup_setContent (s := s)).trans (by simp [hold]), hmem⟩
  · rcases of_update ho with ⟨-, ⟨⟩⟩ | ⟨-, ho⟩
    exact isSome_of_mem ho

end Writers

section Checkpoints

variable {c : Checkpoint Hash} {ino' : Ino}

theorem Fresh.of_eq (h : s.Fresh k hash) (hsegments : t.segments = s.segments)
    (hwriters : t.writers = s.writers) (hstamp : t.sealGenerations = s.sealGenerations)
    (hpublished : t.publishedGeneration = s.publishedGeneration) : t.Fresh k hash := by
  simpa only [Fresh, HasAt, Young, IsOpen, hsegments, hwriters, hstamp, hpublished] using h

/-- A step of the checkpoint that publishes nothing, takes nothing and copies nothing. -/
theorem Stable.advances {phase : Phase} (hc : s.checkpoint = some c) (hst : s.Advances c t)
    (hphase : c.phase = phase) (hremaining : ∀ ino, t.Linked ino → phase = .work ∧ ino ∈ c.dirty ∨
      phase = .capture ∧ (ino ∈ c.work ∨ c.capturing = some ino) → t.Remaining ino := by simp)
    (hdrained : t.isDrained = phase.isDrained := by rfl)
    (hlate : t.lateSnapshot = if phase.isLate then some c.inoSnapshot else none := by rfl)
    (hfile : ∀ ino hash, t.Linked ino ∨ t.lateSnapshot.isSome → (.file ino, hash) ∈ s.pins →
      (.file ino, hash) ∈ t.pins := by exact fun _ _ _ ↦ id)
    (hcaptured : phase.isDrained = true → ∀ ino hash, (.captured ino, hash) ∈ s.pins →
      (.captured ino, hash) ∈ t.pins := by exact fun _ _ _ ↦ id)
    (hdirty : t.dirtyInodes = s.dirtyInodes := by rfl) (hroot : t.publishedRoot = s.publishedRoot := by rfl)
    (hpublished : t.publishedGeneration = s.publishedGeneration := by rfl) : Stable s t where
  fresh k hash _ h := h.of_eq hst.frame.segments hst.frame.writers hst.frame.sealGenerations hpublished
  filePins := hfile
  capturedPins hd := hcaptured (by simpa [isDrained, hc, hphase] using hd)
  dirty ino hd _ := hdirty ▸ hd
  remaining ino hl h := by
    obtain ⟨_, hc'', hcase⟩ := h
    cases hc.symm.trans hc''
    exact hremaining ino hl (hphase ▸ hcase)
  drained := hdrained.trans (by simp [isDrained, hc, hphase])
  late := hlate.trans (by simp [lateSnapshot, hc, hphase])
  publishedRoot := hroot
  publishedGeneration := hpublished
  mountGeneration := hst.frame.mountGeneration

section

variable (h : Covered settled s) (hc : s.checkpoint = some c)

include h hc

/-- The dirty set passes to the checkpoint. -/
theorem Covered.drain (hphase : c.phase = .drain) : Covered settled (s.drain c) := by
  have hnot : s.isDrained = false := by simp [isDrained, hc, hphase, Phase.isDrained]
  have hlate : ∀ m, (s.drain c).lateSnapshot ≠ some m := by
    intro m
    simp [lateSnapshot, State.drain, State.setCheckpoint, Phase.isLate]
  have hremaining : ∀ {ino}, ¬s.Remaining ino := by
    rintro _ ⟨_, hc', hcase⟩
    cases hc.symm.trans hc'
    simp [hphase] at hcase
  have hdirty : ∀ {ino}, ino ∈ s.dirtyInodes → (s.drain c).Remaining ino := fun hd ↦
    ⟨_, rfl, .inl ⟨rfl, hd⟩⟩
  have hfresh : ∀ {k hash}, s.Fresh k hash → (s.drain c).Fresh k hash := id
  refine ⟨fun ino hash hl hlists ↦ ?_, fun ino hash hcontent ↦ ?_, fun m hm ↦ absurd hm (hlate m),
    fun m hm ↦ absurd hm (hlate m), fun ino op hl hop ↦ .inr ?_⟩
  · rcases h.listed ino hash hl hlists with h1 | h2 | ⟨h3, _⟩ | ⟨h4, hf⟩
    · exact .inl h1
    · exact .inr (.inl h2)
    · exact absurd h3 hremaining
    · exact .inr (.inr (.inl ⟨hdirty h4, hfresh (hf.mono margin_le_one)⟩))
  · exact (h.content ino hash hcontent).imp (fun h2 ↦ .inr (.inl h2)) (by simp [hnot]) hfresh
  · exact (h.op ino op hl hop).elim hdirty fun hr ↦ absurd hr hremaining

/-- The inodes are copied. -/
theorem Covered.snapshotStep (hphase : c.phase = .snapshot) : Covered settled (s.snapshot c) := by
  have hdrained : (s.snapshot c).isDrained = s.isDrained := by
    simp [isDrained, State.snapshot, State.setCheckpoint, hc, hphase, Phase.isDrained]
  have hmargin : (s.snapshot c).margin = s.margin := by rw [margin, margin, hdrained]
  have hremaining : ∀ {ino}, ¬s.Remaining ino := by
    rintro _ ⟨_, hc', hcase⟩
    cases hc.symm.trans hc'
    simp [hphase] at hcase
  have hfresh : ∀ {k hash}, s.Fresh k hash → (s.snapshot c).Fresh k hash := id
  have hbacked : ∀ ino hash, s.Content ino hash → (s.snapshot c).Backed settled ino hash := by
    intro ino hash hcontent
    refine (h.content ino hash hcontent).imp (fun h2 ↦ .inr (.inl h2)) (fun h3 hd ↦ ?_) hfresh
    exact .inr (.inr (.inl ⟨h3, hdrained ▸ hd⟩))
  have hlate : (s.snapshot c).lateSnapshot = some s.inodes.toList := rfl
  refine ⟨fun ino hash hl hlists ↦ ?_, hbacked, fun m hm ino chunks hash hmem hhash ↦ ?_,
    fun m hm ino hash hcontent ↦ .inl ?_, fun ino op hl hop ↦ ?_⟩
  · rcases h.listed ino hash hl hlists with h1 | h2 | ⟨h3, _⟩ | ⟨h4, hf⟩
    · exact .inl h1
    · exact .inr (.inl h2)
    · exact absurd h3 hremaining
    · exact .inr (.inr (.inr ⟨h4, hmargin ▸ hfresh hf⟩))
  · cases hlate.symm.trans hm
    exact hbacked ino hash ⟨chunks, Table.mem_toList.1 hmem, hhash⟩
  · cases hlate.symm.trans hm
    obtain ⟨chunks, hlookup, hmem⟩ := hcontent
    exact InoMap.mem_hashes.2 ⟨ino, chunks, Table.mem_toList.2 hlookup, hmem⟩
  · exact .inl ((h.op ino op hl hop).resolve_right hremaining)

/-- The generation is published: what is in the new root needs nothing else, and every other
copy that is relied on was young by the old generation. -/
theorem Covered.publishGeneration
    (hphase : c.phase = .publishGeneration) (hgeneration : c.generation = s.publishedGeneration + 1) :
    Covered settled (s.publishGeneration c) := by
  have hlate : s.lateSnapshot = some c.inoSnapshot := by
    simp [lateSnapshot, hc, hphase, Phase.isLate]
  have hnolate : ∀ m, (s.publishGeneration c).lateSnapshot ≠ some m := by
    intro m
    simp [lateSnapshot, State.publishGeneration, State.setCheckpoint, Phase.isLate]
  have hfresh : ∀ {hash}, s.Fresh 0 hash → (s.publishGeneration c).Fresh 1 hash := by
    rintro hash ⟨loc, hat, hyoung⟩
    refine ⟨loc, hat, hyoung.imp_right ?_⟩
    rintro ⟨stamp, hstamp, hle⟩
    refine ⟨stamp, hstamp, ?_⟩
    have : (s.publishGeneration c).publishedGeneration = c.generation := rfl
    omega
  have hmargin : (s.publishGeneration c).margin = 1 := rfl
  refine ⟨fun ino hash hl hlists ↦ ?_, fun ino hash hcontent ↦ ?_, fun m hm ↦ absurd hm (hnolate m),
    fun m hm ↦ absurd hm (hnolate m), fun ino op hl hop ↦ .inl ?_⟩
  · rcases h.listed ino hash hl hlists with h1 | h2 | ⟨h3, _⟩ | ⟨h4, hf⟩
    · exact .inl h1
    · exact .inr (.inl h2)
    · exact absurd h3 (not_remaining_of_late hlate)
    · rw [margin_of_late hlate] at hf
      exact .inr (.inr (.inr ⟨h4, hmargin ▸ hfresh hf⟩))
  · rcases h.later _ hlate ino hash hcontent with h1 | h2 | h3
    · exact .inl h1
    · exact .inr (.inl h2)
    · exact .inr (.inr (.inr (.inl (hfresh h3))))
  · exact (h.op ino op hl hop).resolve_right (not_remaining_of_late hlate)

end

theorem mem_capturePins {owner : PinOwner} :
    (owner, hash) ∈ s.pins → owner ≠ .file ino' → (owner, hash) ∈ (s.capturePins ino').pins := by
  intro hmem hne
  exact mem_map.2 ⟨(owner, hash), hmem, by simp [hne]⟩

theorem captured_mem_capturePins (hmem : (.file ino, hash) ∈ s.pins) :
    (.captured ino, hash) ∈ (s.capturePins ino).pins :=
  mem_map.2 ⟨(.file ino, hash), hmem, by simp⟩

theorem Covered.advances (h : Covered settled s) (htidy : s.Tidy) (hgen : s.Generations)
    (hc : s.checkpoint = some c) (hst : s.Advances c t) : Covered settled t := by
  have hof : Stable s t → Covered settled t := fun hstable ↦
    h.of_ops hstable (hst.moves hc) hst.frame.inodes hst.frame.ops
  have hadvances := hst
  cases hst with
  | drain hphase => exact h.drain hc hphase
  | work hphase =>
    refine hof (.advances hc hadvances hphase fun ino hl hcase ↦ ?_)
    exact ⟨_, rfl, .inr ⟨rfl, .inl (mem_filter.2 ⟨(hcase.resolve_right (by simp)).2, hl⟩)⟩⟩
  | captured hphase hwork hidle =>
    refine hof (.advances hc hadvances hphase fun ino _ hcase ↦ ?_)
    simp [hwork, hidle] at hcase
  | orphan hphase horphaned =>
    obtain ⟨hunlinked, _⟩ := htidy.orphaned c hc hphase _ (by rw [horphaned]; exact mem_cons_self)
    refine hof (.advances hc hadvances hphase (by simp) (by simp [isDrained, setCheckpoint, hphase])
      (by simp [lateSnapshot, setCheckpoint, hphase]) (fun ino' hash hino' hpin ↦ ?_)
      fun _ _ hash hpin ↦ mem_capturePins hpin (by simp))
    refine mem_capturePins hpin fun heq ↦ ?_
    obtain rfl := PinOwner.file.inj heq
    rcases hino' with hl | hlate
    · exact hunlinked hl
    · simp [lateSnapshot, setCheckpoint, hphase, Phase.isLate] at hlate
  | snapshot hphase => exact h.snapshotStep hc hphase
  | publishGeneration hphase =>
    obtain ⟨h1, h2, _⟩ := hgen.publishGeneration c hc hphase
    exact h.publishGeneration hc hphase (h2.trans h1)
  | release hphase hfind =>
    refine hof (.advances hc hadvances hphase (by simp) (by simp [isDrained, hc, hphase])
      (by simp [lateSnapshot, hc, hphase]) (fun _ _ _ hpin ↦ ?_) (by simp [Phase.isDrained]))
    refine (mem_erase_of_ne ?_).2 hpin
    rintro rfl
    simpa [isCaptured] using find?_some hfind
  | orphans hphase | orphansTaken hphase | root hphase | publish hphase | released hphase | superblock hphase =>
    exact hof (.advances hc hadvances hphase)

theorem Covered.beginCapture {tail : List Hash} (h : Covered settled s) (hc : s.checkpoint = some c)
    (hphase : c.phase = .capture) (hcapturing : c.capturing = none)
    (ht : t = (s.setOp ino (some ⟨.capture, tail, .idle, []⟩)).setCheckpoint
      (some { c with work := c.work.filter (· ≠ ino), capturing := some ino })) (hmoves : Moves s t) :
    Covered settled t := by
  subst ht
  refine h.of_inodes ⟨fun k _ _ hf ↦ hf, fun _ _ _ ↦ id, fun _ _ _ ↦ id,
    fun _ hd _ ↦ hd, fun ino' _ hr ↦ ?_, ?_, ?_, rfl, rfl, rfl⟩ hmoves rfl fun ino' _ ho ↦ ?_
  · obtain ⟨_, hc', hcase⟩ := hr
    cases hc.symm.trans hc'
    refine ⟨_, rfl, .inr ⟨hphase, ?_⟩⟩
    rcases hcase with ⟨hphase', _⟩ | ⟨_, hmem | hcap⟩
    · simp [hphase] at hphase'
    · by_cases heq : ino' = ino
      · exact .inr (by rw [heq])
      · exact .inl (mem_filter.2 ⟨hmem, by simp [heq]⟩)
    · simp [hcapturing] at hcap
  · simp [isDrained, setCheckpoint, hc]
  · simp [lateSnapshot, setCheckpoint, hc, hphase, Phase.isLate]
  · rcases of_update ho with ⟨rfl, -⟩ | ⟨-, ho⟩
    · exact .inr (.inr ⟨_, rfl, .inr ⟨hphase, .inr rfl⟩⟩)
    · exact .inl (isSome_of_mem ho)

/-- After a capture, all the file lists is its content. -/
theorem captureFile_lists_content (hlinked : s.Linked ino)
    (h : (∃ chunks, (s.captureFile ino refs).sessions ino = some chunks ∧ hash ∈ chunks) ∨
      ∃ chunks, (s.captureFile ino refs).fileState ino = some chunks ∧ hash ∈ chunks) :
    (s.captureFile ino refs).Content ino hash := by
  obtain ⟨_, hold⟩ := isSome_iff_exists.1 hlinked
  cases hsession : s.sessions ino with
  | some => simp [captureFile, hsession] at h
  | none =>
    cases hfile : s.fileState ino with
    | some chunks =>
      simp only [captureFile, hsession, hfile] at h ⊢
      rcases h with ⟨chunks', hsession', _⟩ | ⟨chunks', hfile', hmem⟩
      · simp [show s.sessions ino = some chunks' from hsession'] at hsession
      · cases hfile.symm.trans hfile'
        exact ⟨chunks, lookup_setContent.trans (by simp [hold]), hmem⟩
    | none => simp [captureFile, hsession, hfile] at h

theorem content_captureFile_of_ne (hne : ino' ≠ ino) :
    (s.captureFile ino refs).Content ino' hash ↔ s.Content ino' hash := by
  have hset : ∀ {chunks : List Hash}, (s.setContent ino chunks).Content ino' hash ↔ s.Content ino' hash := by
    intro _
    simp [Content, lookup_setContent, hne]
  unfold captureFile
  split
  · exact hset
  · exact hset
  · rfl

theorem Covered.finishCapture (h : Covered settled s) (htidy : s.Tidy) (hc : s.checkpoint = some c)
    (hop : s.ops ino = some ⟨.capture, [], .idle, refs⟩) :
    Covered settled ((((s.capturePins ino).captureFile ino refs).setOp ino none).setCheckpoint
      (some { c with capturing := none })) := by
  have hmoves := finishCapture_moves hc hop
  obtain ⟨c', hc', hphase, hcapturing⟩ := htidy.capture ino _ hop rfl
  cases hc.symm.trans hc'
  have huntouched := captureFile_untouched (s.capturePins ino) ino refs
  have heq := captureFile_eq (s.capturePins ino) ino refs
  set u := (s.capturePins ino).captureFile ino refs with hu
  set t : State Dev Hash := (u.setOp ino none).setCheckpoint (some { c with capturing := none }) with ht
  have hmount : t.mountGeneration = s.mountGeneration := (congrArg mountGeneration heq :)
  have hpins : t.pins = (s.capturePins ino).pins := (congrArg pins heq :)
  have hdirty : t.dirtyInodes = s.dirtyInodes := (congrArg dirtyInodes heq :)
  have hlinked : ∀ ino', t.Linked ino' ↔ s.Linked ino' := fun ino' ↦
    linked_captureFile (s := s.capturePins ino)
  have hfresh : ∀ {k hash}, s.Fresh k hash → t.Fresh k hash := fun hf ↦
    hf.of_eq huntouched.segments huntouched.writers huntouched.sealGenerations
      huntouched.publishedGeneration
  have hdrained : s.isDrained = true := by simp [isDrained, hc, hphase, Phase.isDrained]
  have hdrained' : t.isDrained = true := by
    simp [isDrained, ht, setCheckpoint, hphase, Phase.isDrained]
  have hmargin : t.margin = s.margin := by rw [margin, margin, hdrained, hdrained']
  have hlate : ∀ m, t.lateSnapshot ≠ some m := by
    intro m
    simp [lateSnapshot, ht, setCheckpoint, hphase, Phase.isLate]
  have hother : ∀ {owner hash}, (owner, hash) ∈ s.pins → owner ≠ .file ino → (owner, hash) ∈ t.pins :=
    fun hmem hne ↦ hpins ▸ mem_capturePins hmem hne
  have hremaining : ∀ ino', ino' ≠ ino → s.Remaining ino' → t.Remaining ino' := by
    rintro _ hne ⟨_, hc', hcase⟩
    cases hc.symm.trans hc'
    refine ⟨_, rfl, .inr ⟨hphase, .inl ?_⟩⟩
    rcases hcase with ⟨hphase', _⟩ | ⟨_, hmem | hcap⟩
    · simp [hphase] at hphase'
    · exact hmem
    · exact absurd (some.inj (hcap.symm.trans hcapturing)) hne
  have hbacked : ∀ ino' hash, s.Backed settled ino' hash → t.Backed settled ino' hash := by
    -- the pins of the captured file keep its content until the generation is published
    refine fun ino' hash hb ↦ hb.imp (fun hmem ↦ ?_)
      (fun hmem _ ↦ .inr (.inr (.inl ⟨hother hmem (by simp), hdrained'⟩))) hfresh
      huntouched.publishedRoot huntouched.publishedGeneration hmount
    by_cases heq : ino' = ino
    · subst heq
      exact .inr (.inr (.inl ⟨hpins ▸ captured_mem_capturePins hmem, hdrained'⟩))
    · exact .inr (.inl (hother hmem (by simpa using heq)))
  refine ⟨fun ino' hash hl hlists ↦ ?_, fun ino' hash hcontent ↦ ?_, fun m hm ↦ absurd hm (hlate m),
    fun m hm ↦ absurd hm (hlate m), fun ino' op hl ho ↦ ?_⟩
  · by_cases heq : ino' = ino
    · subst heq
      rcases hlists with hsession | hfile | ⟨_, ho, _⟩
      · exact .inl (captureFile_lists_content (s := s.capturePins ino') ((hlinked ino').1 hl) (.inl hsession))
      · exact .inl (captureFile_lists_content (s := s.capturePins ino') ((hlinked ino').1 hl) (.inr hfile))
      · simp [ht, setCheckpoint, setOp] at ho
    · have hlists' : s.Lists ino' hash :=
        captureFile_lists (s := s.capturePins ino) (Lists.of_setOp u ino none (by simp) hlists)
      rcases h.listed ino' hash ((hlinked ino').1 hl) hlists' with h1 | h2 | ⟨h3, hf⟩ | ⟨h4, hf⟩
      · exact .inl ((content_captureFile_of_ne (s := s.capturePins ino) heq).2 h1)
      · exact .inr (.inl (hother h2 (by simpa using heq)))
      · exact .inr (.inr (.inl ⟨hremaining ino' heq h3, hfresh hf⟩))
      · exact .inr (.inr (.inr ⟨hdirty ▸ h4, hmargin ▸ hfresh hf⟩))
  · refine hbacked ino' hash ?_
    rcases hmoves.content ino' hash hcontent with hcontent' | hlists
    · exact h.content ino' hash hcontent'
    · exact (h.listed ino' hash ((hlinked ino').1 hcontent.linked) hlists).backed h
  · rcases of_update ho with ⟨-, ⟨⟩⟩ | ⟨hne, ho⟩
    rw [congrArg ops heq] at ho
    exact (h.op ino' op ((hlinked ino').1 hl) ho).imp (fun hd ↦ hdirty ▸ hd) (hremaining ino' hne)

/-- A failed checkpoint gives back the dirty set and the pins. -/
theorem Covered.failCheckpoint (h : Covered settled s) (htidy : s.Tidy) (hc : s.checkpoint = some c)
    (hcapturing : c.capturing = none) : Covered settled (s.restoreOnFailure c) := by
  have hfresh : ∀ {k hash}, s.Fresh k hash → (s.restoreOnFailure c).Fresh k hash :=
    fun hf ↦ hf
  have hdirty : ∀ {ino}, ino ∈ s.dirtyInodes ∨ s.Remaining ino → ino ∈ (s.restoreOnFailure c).dirtyInodes := by
    rintro ino (hd | ⟨c', hc', hcase⟩)
    · exact mem_union_iff.2 (.inl hd)
    · cases hc.symm.trans hc'
      refine mem_union_iff.2 (.inr ?_)
      rcases hcase with ⟨_, hmem⟩ | ⟨hphase, hmem | hcap⟩
      · exact hmem
      · exact (htidy.work c hc hphase ino hmem).1
      · simp [hcapturing] at hcap
  have hfile : ∀ {ino hash}, (.file ino, hash) ∈ s.pins ∨ (.captured ino, hash) ∈ s.pins →
      (.file ino, hash) ∈ (s.restoreOnFailure c).pins := by
    rintro _ _ (hmem | hmem)
    · exact mem_map.2 ⟨_, hmem, rfl⟩
    · exact mem_map.2 ⟨_, hmem, rfl⟩
  refine ⟨fun ino hash hl hlists ↦ ?_, fun ino hash hcontent ↦ ?_, fun m hm ↦ ?_, fun m hm ↦ ?_,
    fun ino op hl ho ↦ .inl (hdirty (h.op ino op hl ho))⟩
  · rcases h.listed ino hash hl hlists with h1 | h2 | ⟨h3, hf⟩ | ⟨h4, hf⟩
    · exact .inl h1
    · exact .inr (.inl (hfile (.inl h2)))
    · exact .inr (.inr (.inr ⟨hdirty (.inr h3), hfresh hf⟩))
    · exact .inr (.inr (.inr ⟨hdirty (.inl h4), hfresh (hf.mono margin_le_one)⟩))
  · exact (h.content ino hash hcontent).imp (fun h2 ↦ .inr (.inl (hfile (.inl h2))))
      (fun h3 _ ↦ .inr (.inl (hfile (.inr h3)))) hfresh
  all_goals simp [lateSnapshot, restoreOnFailure] at hm

end Checkpoints

/-- Every step that is not the coalescer's keeps the files covered. -/
theorem Covered.environment {a : Action Dev Hash} (h : Covered settled s) (hcopies : s.Copies)
    (hgen : s.Generations) (htidy : s.Tidy) (ha : a.isPass = false) (hst : s.step setup a = some t) :
    Covered settled t := by
  have hmoves := environment_moves hcopies ha hst
  obtain ⟨_, hgrows, _⟩ := environment_step hcopies hgen ha hst
  cases environment_effect ha hst with
  | create => exact h.create htidy (.writer hgrows (fun _ _ ↦ id) (fun _ _ ↦ id) fun ino hd _ ↦ mem_insert_iff.2 (.inr hd))
  | unlink =>
    exact h.unlink (.writer hgrows (fun _ _ ↦ id) (fun _ _ ↦ id)
      fun ino' hd hl ↦ (mem_erase_of_ne (linked_unlink.1 hl).2).2 hd)
  | hydrate | setSnapshotTable => exact h.of_ops (.writer hgrows) hmoves
  | records heq =>
    subst heq
    exact h.of_ops (.writer hgrows) hmoves
  | @begin =>
    refine h.of_inodes (.writer hgrows (fun _ _ ↦ id) (fun _ _ ↦ id) fun _ hd _ ↦ mem_insert_iff.2 (.inr hd))
      hmoves rfl fun ino' _ ho ↦ ?_
    rcases of_update ho with ⟨heq, -⟩ | ⟨-, ho⟩
    · exact .inr (.inl (mem_insert_iff.2 (.inl heq)))
    · exact .inl (isSome_of_mem ho)
  | pin hop =>
    exact h.of_op (.writer hgrows (fun _ _ ↦ mem_cons_of_mem _) fun _ _ ↦ mem_cons_of_mem _) hmoves hop
  | hit hop =>
    refine h.of_op (.writer hgrows (fun ino' hash' hmem ↦ ?_) fun ino' hash' hmem ↦ ?_) hmoves hop
    · exact mem_cons_of_mem _ ((mem_erase_of_ne (by simp)).2 hmem)
    · exact mem_cons_of_mem _ ((mem_erase_of_ne (by simp)).2 hmem)
  | unpin hop =>
    refine h.of_op (.writer hgrows (fun ino' hash' hmem ↦ ?_) fun _ _ hmem ↦ ?_) hmoves hop
    · exact (mem_erase_of_ne (by simp)).2 hmem
    · exact (mem_erase_of_ne (by simp)).2 hmem
  | commit hop =>
    rw [append_eq] at hmoves hgrows ⊢
    exact h.of_op (.writer hgrows) hmoves hop
  | miss hop | append hop | rewrite hop => exact h.of_op (.writer hgrows) hmoves hop
  | fsync => exact h.fsync (.writer hgrows) hmoves
  | beginCheckpoint hnone =>
    refine h.of_ops ⟨fun k _ _ hf ↦ hf, fun _ _ _ ↦ id, fun _ _ _ ↦ id,
      fun _ hd _ ↦ hd, fun _ _ hr ↦ ?_, ?_, ?_, rfl, rfl, rfl⟩ hmoves
    · obtain ⟨c, hc, _⟩ := hr
      simp [hnone] at hc
    · simp [isDrained, setCheckpoint, hnone, Phase.isDrained]
    · simp [lateSnapshot, setCheckpoint, hnone, Phase.isLate]
  | checkpointStep hc hadvances => exact h.advances htidy hgen hc hadvances
  | beginCapture hc hphase hcapturing => exact h.beginCapture hc hphase hcapturing rfl hmoves
  | finishCapture hc hop => exact h.finishCapture htidy hc hop
  | failCheckpoint hc hcapturing => exact h.failCheckpoint htidy hc hcapturing

/-- A pass takes no copy in a young segment. -/
theorem Fresh.swept (h : s.Fresh k hash) (hle : k ≤ 1) (hcopies : s.Copies) (hinv : PassInv dur s)
    (hframe : s.PassFrame t) (hst : Swept dur s t) : t.Fresh k hash := by
  obtain ⟨loc, hat, hyoung⟩ := h
  have hlt : loc.segmentId < s.nextSegmentId := by
    rcases hyoung with ⟨shard, hwriter⟩ | ⟨_, hstamp, _⟩
    · exact (hcopies.writer shard _ hwriter).1
    · refine Nat.lt_of_not_le fun hle ↦ ?_
      simp [hcopies.unstamped _ (.inr hle)] at hstamp
  have hyoung' : t.Young k loc.segmentId := by
    simp only [Young, IsOpen, hframe.writers, hframe.publishedGeneration, hst.stamp _ hlt] at hyoung ⊢
    exact hyoung
  refine ⟨loc, fun dev ↦ (hst.hasAt _ _ _ _ (hat dev)).resolve_right ?_, hyoung'⟩
  rintro ⟨p, r, hp, hstage, _, hid⟩
  have hrepack := hinv p hp
  rw [hstage] at hrepack
  exact hrepack.1.old.not_young hcopies hle (hid ▸ hyoung)

theorem Covered.pass (h : Covered settled s) (hcopies : s.Copies) (hinv : PassInv dur s)
    (hframe : s.PassFrame t) (hst : Swept dur s t) : Covered settled t := by
  exact h.of_ops ⟨fun k _ hle hf ↦ hf.swept hle hcopies hinv hframe hst,
    fun _ _ _ ↦ by rw [hframe.pins]; exact id,
    fun _ _ _ ↦ by rw [hframe.pins]; exact id, fun _ hd _ ↦ hframe.dirtyInodes ▸ hd,
    fun _ _ _ ↦ by rwa [Remaining, hframe.checkpoint], by rw [isDrained, isDrained, hframe.checkpoint],
    by rw [lateSnapshot, lateSnapshot, hframe.checkpoint], hframe.publishedRoot,
    hframe.publishedGeneration, hframe.mountGeneration⟩
    (.of_eq hframe.inodes hframe.sessions hframe.fileState hframe.ops hframe.checkpoint
      hframe.publishedRoot) hframe.inodes hframe.ops

/-- A mount without files to replay has its files in the root; with such files, they are not
settled. -/
theorem Mounted.covered (h : s.Mounted)
    (hsettled : settled → ∀ ino chunks, s.inodes.lookup ino = some chunks → (ino, chunks) ∈ s.root) :
    Covered settled s where
  listed ino hash _ hlists := by
    rcases hlists with ⟨chunks, hsession, _⟩ | ⟨chunks, hfile, hmem⟩ | ⟨_, hop, _⟩
    · simp [h.sessions] at hsession
    · exact .inl ⟨chunks, h.fileState ino chunks hfile, hmem⟩
    · simp [h.ops] at hop
  content ino hash hcontent := by
    obtain ⟨chunks, hlookup, hmem⟩ := hcontent
    by_cases hs : settled
    · refine .inl ?_
      rw [h.publishedRoot]
      exact InoMap.mem_hashes.2 ⟨ino, chunks, hsettled hs ino chunks hlookup, hmem⟩
    · exact .inr (.inr (.inr (.inr ⟨hs, h.publishedGeneration.trans h.mountGeneration.symm⟩)))
  snapshot m hm := by simp [lateSnapshot, h.checkpoint] at hm
  later m hm := by simp [lateSnapshot, h.checkpoint] at hm
  op ino op _ hop := by simp [h.ops] at hop

end State

end Lchfs.Reclaim
