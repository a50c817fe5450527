import Lchfs.Index.Locations

/-!
# What a checkpoint's index holds

An acknowledged record is in the index or in a shard's batch, unless it was reclaimed. A
checkpoint flushes every batch before it commits the index, so what was acknowledged when it
began is in the file when the superblocks claim its generation. This rests on no batch being
dropped: `flush_index` clears a batch also when the index does not take it.
-/

set_option linter.unusedSectionVars false

namespace Lchfs.Index

open Lchfs.Format (ShardId SegmentId)
open Lchfs.Library
open List Option State Segment Entries

variable {Hash : Type} [DecidableEq Hash] {keys : List (Hash × Tag)}

namespace Entries

variable {t : Entries Hash} {hash : Hash} {entries : List ((Hash × Tag) × Location)}

theorem has_putAll_of_has (h : t.has hash = true) : (putAll t entries).has hash = true := by
  obtain ⟨tag, _, hlookup⟩ := has_iff.1 h
  obtain ⟨loc', hloc'⟩ := isSome_iff_exists.1
    (isSome_lookup_putAll.2 (.inr (isSome_of_eq_some hlookup)) : ((putAll t entries).lookup (hash, tag)).isSome)
  exact has_iff.2 ⟨tag, loc', hloc'⟩

theorem has_putAll_of_mem {e : (Hash × Tag) × Location} (h : e ∈ entries) :
    (putAll t entries).has e.1.1 = true := by
  obtain ⟨loc', hloc'⟩ := isSome_iff_exists.1
    (isSome_lookup_putAll.2 (.inl ⟨e, h, rfl⟩) : ((putAll t entries).lookup e.1).isSome)
  exact has_iff.2 ⟨e.1.2, loc', hloc'⟩

/-- Erasing entries of other hashes keeps the entries of a hash. -/
theorem has_eraseIn {id : SegmentId} (hkeys : ∀ key ∈ keys, key.1 ≠ hash) (h : t.has hash = true) :
    (eraseIn id t keys).has hash = true := by
  obtain ⟨tag, loc, hlookup⟩ := has_iff.1 h
  refine has_iff.2 ⟨tag, loc, ?_⟩
  rw [lookup_eraseIn_of_notMem fun hmem ↦ hkeys _ hmem rfl, hlookup]

theorem has_of_preferred (h : (t.preferred hash).isSome) : t.has hash = true := by
  obtain ⟨⟨loc, tag⟩, hget⟩ := isSome_iff_exists.1 h
  exact has_iff.2 ⟨tag, loc, lookup_of_preferred hget⟩

end Entries

namespace State

variable {s t u : State Hash} {params : Params}
variable {hash : Hash} {shard : ShardId} {id : SegmentId} {stream : Stream} {failed : List VdevId}
  {r : Rewrite Hash} {order : VdevId → List SegmentId} {unreadable : List SegmentId}
  {shards : List ShardId} {phase : Phase} {entries : List ((Hash × Tag) × Location)}
  {e : IndexEntry Hash} {puts : Nat} {v : VdevId} {vdevs : List VdevId}

/-! ## Known records -/

def fileIndexed (s : State Hash) (hash : Hash) : Bool :=
  (s.indexFiles s.indexHome).any (·.entries.has hash)

/-- In the index or in the batch of one of these shards. -/
def Known (shards : List ShardId) (s : State Hash) (hash : Hash) : Prop :=
  s.indexed hash = true ∨ s.pending shards hash = true

/-- What a rewrite and a conversion will put into the cache is in the index. -/
def TaskKnown (params : Params) (s : State Hash) : Task Hash → Prop
  | .repointIndex r | .removeCache r | .forget r => r.kept ≠ [] → r.written ≠ []
  | .repointCache r => (r.kept ≠ [] → r.written ≠ []) ∧ ∀ hash ∈ r.hashes, s.indexed hash = true
  | .gate r removed => (r.kept ≠ [] → r.written ≠ []) ∧ ∀ x ∈ removed, s.Known params.shards x.1
  | .stripeCache _ records _ => ∀ hash ∈ records, s.indexed hash = true
  | .delete _ | .stripeIndex _ _ _ | .stripeDelete _ _ => True

/-- After its commit, what a checkpoint publishes is in the file. -/
def Phase.IsCommitted : Phase → Prop
  | .publish | .superblock _ => True
  | _ => False

def PhaseKnown (params : Params) (s : State Hash) (phase : Phase) (hash : Hash) : Prop :=
  s.Known (phase.unflushed params.shards) hash ∧ (Phase.IsCommitted phase → s.fileIndexed hash = true)

structure Complete (params : Params) (s : State Hash) : Prop where
  acked : ∀ hash ∈ s.acked, s.Known params.shards hash
  cache : ∀ hash, (s.cache hash).isSome → s.Known params.shards hash
  shards : ∀ shard, s.pendingIndex (.shard shard) ≠ [] → shard ∈ params.shards
  vdevs : ∀ stream, ∀ e ∈ s.pendingIndex stream, e.vdevs ≠ []
  writers : ∀ shard, (s.writers (.shard shard)).isSome → shard ∈ params.shards
  task : ∀ task ∈ s.task, s.TaskKnown params task
  started : ∀ c ∈ s.checkpoint, ∀ hash ∈ c.started, hash ∈ s.acked ∧ s.PhaseKnown params c.phase hash

theorem known_iff :
    s.Known shards hash ↔ s.indexed hash = true ∨ ∃ shard ∈ shards, s.pendingIn shard hash = true := by
  simp [Known, pending]

/-- Nothing is left to flush after the commit. -/
theorem indexed_of_isCommitted (hcommitted : Phase.IsCommitted phase)
    (h : s.Known (phase.unflushed params.shards) hash) : s.indexed hash = true := by
  cases phase <;> first | exact hcommitted.elim | simpa [Known, Phase.unflushed, pending] using h

theorem pendingIn_iff : s.pendingIn shard hash = true ↔ ∃ e ∈ s.pendingIndex (.shard shard), e.hash = hash := by
  simp [pendingIn]

/-- Only the shards of the pool have batches. -/
theorem Complete.pending (h : s.Complete params) (hash : Hash)
    (hpending : s.pending shards hash = true) : s.pending params.shards hash = true := by
  obtain ⟨shard, -, hpending⟩ := any_eq_true.1 hpending
  obtain ⟨e, he, -⟩ := pendingIn_iff.1 hpending
  exact any_eq_true.2 ⟨shard, h.shards shard (ne_nil_of_mem he), hpending⟩

/-- What a step that drops no batch keeps. -/
structure KeepsKnown (s t : State Hash) : Prop where
  indexed : ∀ hash, s.indexed hash = true → t.indexed hash = true
  pending : ∀ shard hash, s.pendingIn shard hash = true → t.pendingIn shard hash = true ∨ t.indexed hash = true
  file : ∀ hash, s.indexed hash = true → s.fileIndexed hash = true → t.fileIndexed hash = true

namespace KeepsKnown

theorem refl (s : State Hash) : KeepsKnown s s :=
  ⟨fun _ h ↦ h, fun _ _ h ↦ .inl h, fun _ _ h ↦ h⟩

theorem known (h : KeepsKnown s t) (hknown : s.Known shards hash) : t.Known shards hash := by
  rcases known_iff.1 hknown with hindexed | ⟨shard, hshard, hpending⟩
  · exact .inl (h.indexed hash hindexed)
  · rcases h.pending shard hash hpending with hpending | hindexed
    · exact known_iff.2 (.inr ⟨shard, hshard, hpending⟩)
    · exact .inl hindexed

theorem taskKnown (h : KeepsKnown s t) {task : Task Hash} (hknown : s.TaskKnown params task) :
    t.TaskKnown params task := by
  cases task with
  | repointIndex | removeCache | forget => exact hknown
  | repointCache => exact ⟨hknown.1, fun hash hmem ↦ h.indexed hash (hknown.2 hash hmem)⟩
  | gate => exact ⟨hknown.1, fun x hx ↦ h.known (hknown.2 x hx)⟩
  | stripeCache => exact fun hash hmem ↦ h.indexed hash (hknown hash hmem)
  | delete | stripeIndex | stripeDelete => trivial

theorem phaseKnown (h : KeepsKnown s t) (hknown : s.PhaseKnown params phase hash) :
    t.PhaseKnown params phase hash := by
  refine ⟨h.known hknown.1, fun hcommitted ↦ ?_⟩
  exact h.file hash (indexed_of_isCommitted hcommitted hknown.1) (hknown.2 hcommitted)

end KeepsKnown

/-! ## Single changes -/

section

variable (h : s.Complete params)

include h

theorem Complete.of_keeps (hkeeps : KeepsKnown s t)
    (hshards : ∀ shard, t.pendingIndex (.shard shard) ≠ [] → shard ∈ params.shards)
    (hvdevs : ∀ stream, ∀ e ∈ t.pendingIndex stream, e.vdevs ≠ [])
    (ht : t = { s with index := t.index, indexFiles := t.indexFiles, pendingIndex := t.pendingIndex } := by rfl) :
    t.Complete params := by
  rw [ht] at hkeeps ⊢
  refine ⟨fun hash hmem ↦ hkeeps.known (h.acked hash hmem), fun hash hget ↦ hkeeps.known (h.cache hash hget), hshards,
    hvdevs, h.writers, fun task heq ↦ hkeeps.taskKnown (h.task task heq), fun c hc hash hmem ↦ ?_⟩
  obtain ⟨hmem, hphase⟩ := h.started c hc hash hmem
  exact ⟨hmem, hkeeps.phaseKnown hphase⟩

theorem Complete.acknowledge (hknown : s.Known params.shards hash) :
    (s.acknowledge hash).Complete params :=
  { h with
    acked := fun hash' hmem ↦ by
      rcases mem_cons.1 hmem with rfl | hmem
      · exact hknown
      · exact h.acked hash' hmem
    started := fun c hc hash' hmem ↦
      ⟨mem_cons_of_mem _ (h.started c hc hash' hmem).1, (h.started c hc hash' hmem).2⟩ }

theorem Complete.putCache (loc : Location) (tag : Tag)
    (hknown : s.Known params.shards hash) : (s.putCache hash loc tag).Complete params :=
  { h with
    cache := fun hash' hget ↦ by
      by_cases heq : hash' = hash
      · exact heq ▸ hknown
      · exact h.cache hash' (by simpa [State.putCache, heq] using hget) }

theorem Complete.setWriter (stream : Stream) {w : Option Writer}
    (hshard : ∀ shard, stream = .shard shard → w.isSome → shard ∈ params.shards) :
    (s.setWriter stream w).Complete params :=
  { h with
    writers := fun shard hget ↦ by
      by_cases heq : Stream.shard shard = stream
      · exact hshard shard heq.symm (by simpa [State.setWriter, heq] using hget)
      · exact h.writers shard (by simpa [State.setWriter, heq] using hget) }

theorem Complete.setTask {task : Option (Task Hash)}
    (hknown : ∀ x ∈ task, s.TaskKnown params x) : (s.setTask task).Complete params :=
  { h with
    task := fun x hx ↦ KeepsKnown.taskKnown (t := s.setTask task) { KeepsKnown.refl s with } (hknown x hx) }

theorem Complete.nextTask {task : Task Hash} (hknown : s.TaskKnown params task) :
    (s.setTask (some task)).Complete params :=
  h.setTask fun _ heq ↦ some.inj heq ▸ hknown

theorem Complete.setCheckpoint {checkpoint : Option (Checkpoint Hash)}
    (hknown : ∀ c ∈ checkpoint, ∀ hash ∈ c.started, hash ∈ s.acked ∧ s.PhaseKnown params c.phase hash) :
    (s.setCheckpoint checkpoint).Complete params :=
  { h with started := hknown }

end

theorem keepsKnown_putIndex (entries : List ((Hash × Tag) × Location)) : KeepsKnown s (s.putIndex entries) :=
  ⟨fun _ h ↦ has_putAll_of_has h, fun _ _ h ↦ .inl h, fun _ _ h ↦ h⟩

theorem Complete.putIndex (h : s.Complete params) (entries : List ((Hash × Tag) × Location)) :
    (s.putIndex entries).Complete params :=
  h.of_keeps (keepsKnown_putIndex entries) h.shards h.vdevs

theorem fileIndexed_commitIndex : s.commitIndex.fileIndexed hash = s.indexed hash := by
  simp [fileIndexed, commitIndex, indexed]

theorem keepsKnown_commitIndex : KeepsKnown s s.commitIndex :=
  ⟨fun _ h ↦ h, fun _ _ h ↦ .inl h, fun _ h _ ↦ fileIndexed_commitIndex.trans h⟩

theorem Complete.commitIndex (h : s.Complete params) : s.commitIndex.Complete params :=
  h.of_keeps keepsKnown_commitIndex h.shards h.vdevs

/-- Entries are erased only if others for the same hashes are put. -/
theorem keepsKnown_replace (hkeys : ∀ key ∈ keys, ∃ entry ∈ entries, entry.1.1 = key.1) :
    KeepsKnown s ((s.eraseIndex id keys).putIndex entries) where
  indexed hash h := by
    by_cases hmem : ∃ entry ∈ entries, entry.1.1 = hash
    · obtain ⟨_, hentry, rfl⟩ := hmem
      exact has_putAll_of_mem hentry
    · refine has_putAll_of_has (has_eraseIn (fun key hkey heq ↦ hmem ?_) h)
      exact heq ▸ hkeys key hkey
  pending _ _ h := .inl h
  file _ _ h := h

/-! ## Writers -/

theorem has_putAll_entriesOf {t : Entries Hash} {records : List (IndexEntry Hash)}
    (he : e ∈ records) (hvdevs : e.vdevs ≠ []) :
    (putAll t (entriesOf records)).has e.hash = true := by
  obtain ⟨v, hv⟩ := exists_mem_of_ne_nil _ hvdevs
  exact has_putAll_of_mem (mem_entriesOf.2 ⟨e, he, v, hv, rfl⟩)

theorem pendingIndex_setPending {st : Stream} {batch : List (IndexEntry Hash)} :
    (s.setPending stream batch).pendingIndex st = if st = stream then batch else s.pendingIndex st := rfl

/-- A batch that the index takes is in the index. -/
theorem keepsKnown_flush (hvdevs : ∀ e ∈ s.pendingIndex stream, e.vdevs ≠ []) :
    KeepsKnown s (s.flush stream true) where
  indexed hash h := has_putAll_of_has h
  pending shard hash h := by
    by_cases hstream : Stream.shard shard = stream
    · obtain ⟨e, he, rfl⟩ := pendingIn_iff.1 h
      exact .inr (has_putAll_entriesOf (hstream ▸ he) (hvdevs e (hstream ▸ he)))
    · refine .inl ?_
      simpa [pendingIn, flush, setPending, putIndex, hstream] using h
  file hash _ h := h

section

variable (h : s.Complete params)

include h

namespace Complete

theorem flush (stream : Stream) : (s.flush stream true).Complete params := by
  refine h.of_keeps (keepsKnown_flush (h.vdevs stream)) (fun shard hne ↦ ?_) fun stream' e he ↦ ?_
  · refine h.shards shard fun hnil ↦ hne ?_
    simp [State.flush, State.setPending, State.putIndex, hnil]
  · simp only [State.flush, if_true, pendingIndex_setPending] at he
    split_ifs at he
    · simp at he
    · exact h.vdevs stream' e he

/-- A landed record is in its shard's batch. -/
theorem setPending (hshard : shard ∈ params.shards) (hvdevs : e.vdevs ≠ []) :
    (s.setPending (.shard shard) (s.pendingIndex (.shard shard) ++ [e])).Complete params ∧
      (s.setPending (.shard shard) (s.pendingIndex (.shard shard) ++ [e])).Known params.shards e.hash := by
  have hmono : ∀ stream, ∀ e' ∈ s.pendingIndex stream, e' ∈ (s.setPending (.shard shard)
      (s.pendingIndex (.shard shard) ++ [e])).pendingIndex stream := by
    intro _ _ he'
    rw [pendingIndex_setPending]
    split_ifs with heq
    · exact mem_append_left _ (heq ▸ he')
    · exact he'
  have hkeeps : KeepsKnown s (s.setPending (.shard shard) (s.pendingIndex (.shard shard) ++ [e])) := by
    refine ⟨fun _ h ↦ h, fun shard' _ hpending ↦ .inl ?_, fun _ _ h ↦ h⟩
    obtain ⟨e', he', rfl⟩ := pendingIn_iff.1 hpending
    exact pendingIn_iff.2 ⟨e', hmono _ e' he', rfl⟩
  refine ⟨h.of_keeps hkeeps (fun shard' hne ↦ ?_) fun stream e' he' ↦ ?_, ?_⟩
  · by_cases heq : shard' = shard
    · exact heq ▸ hshard
    · exact h.shards shard' (by simpa [pendingIndex_setPending, heq] using hne)
  · rw [pendingIndex_setPending] at he'
    split_ifs at he' with heq
    · rcases mem_append.1 he' with he' | he'
      · exact h.vdevs _ e' he'
      · exact mem_singleton.1 he' ▸ hvdevs
    · exact h.vdevs stream e' he'
  · exact known_iff.2 (.inr ⟨shard, hshard, pendingIn_iff.2 ⟨e, by simp [pendingIndex_setPending], rfl⟩⟩)

theorem openSegment (hshard : ∀ shard, stream = .shard shard → shard ∈ params.shards)
    (hstep : s.openSegment stream failed = some t) : t.Complete params := by
  obtain ⟨-, ⟨⟩⟩ := ite_none_right_eq_some.1 hstep
  have hcreate : (s.createSegment (s.online.filter (· ∉ failed)) ⟨stream.kind, stream, [], false, 0⟩).Complete
      params := { h with }
  exact { hcreate.setWriter _ fun shard heq _ ↦ hshard shard heq with }

theorem append (happend : s.append params shard hash failed true = some t) : t.Complete params := by
  obtain ⟨w, hw, rfl⟩ := map_eq_some_iff.1 happend
  have hshard := h.writers shard (isSome_of_eq_some hw)
  have hfault : (s.fault (w.vdevs.filter (· ∈ failed))).Complete params := { h with }
  dsimp only
  split
  · exact hfault.setWriter _ fun _ _ hsome ↦ by simp at hsome
  next first rest _ =>
    -- the record is in the batch before it is looked for in the cache
    obtain ⟨hbatch, hknown⟩ := hfault.setPending (e := ⟨hash, ⟨w.segmentId, w.cursor⟩, first :: rest⟩) hshard
      (by simp)
    have hwriter := hbatch.setWriter (.shard shard) (w := some ⟨w.segmentId, first :: rest, w.cursor + 1⟩)
      fun _ heq _ ↦ Stream.shard.inj heq ▸ hshard
    have hland : (((s.fault (w.vdevs.filter (· ∈ failed))).land (.shard shard) w (first :: rest) first
        hash).setPending (.shard shard) (s.pendingIndex (.shard shard) ++
          [⟨hash, ⟨w.segmentId, w.cursor⟩, first :: rest⟩])).Complete params :=
      { hwriter.putCache ⟨w.segmentId, w.cursor⟩ (.vdev first) hknown with }
    simp only [finishAppend, if_true]
    split_ifs
    · exact (hland.flush (.shard shard)).acknowledge ((keepsKnown_flush (hland.vdevs _)).known hknown)
    · exact hland.acknowledge hknown

theorem fsync (stream : Stream) (failed : List VdevId) :
    (s.fsync stream failed true).Complete params := by
  unfold State.fsync
  split
  · exact h.flush stream
  next w hw =>
    have hwriter := h.setWriter stream (w := some { w with vdevs := w.vdevs.filter (· ∉ failed) })
      fun shard heq _ ↦ h.writers shard (by simp [← heq, hw])
    have hsync : ((((s.updateSegment (w.vdevs.filter (· ∉ failed)) w.segmentId Segment.fsync).setWriter stream
        (some { w with vdevs := w.vdevs.filter (· ∉ failed) })).fault
          (w.vdevs.filter (· ∈ failed)))).Complete params := { hwriter with }
    dsimp only
    split_ifs
    · exact hsync
    · exact hsync.flush stream

theorem closeSegment (stream : Stream) (failed : List VdevId) :
    (s.closeSegment stream failed true).Complete params := by
  simp only [State.closeSegment, flushSucceeds, Bool.true_or, if_true]
  split
  · exact h.flush stream
  next w _ => exact { (h.flush stream).setWriter stream (w := none) fun _ _ hsome ↦ by simp at hsome with }

theorem putMeta {reuse : Bool} (hputs : ∀ w ∈ s.writers .metadata, w.vdevs.length ≤ puts)
    (hstep : s.putMeta hash reuse failed puts = some t) : t.Complete params := by
  unfold State.putMeta at hstep
  split_ifs at hstep with hreuse
  · cases hstep
    refine h.acknowledge (h.cache hash ?_)
    cases hcache : s.cache hash with
    | none => simp [hcache, isMetaRecord] at hreuse
    | some => rfl
  · obtain ⟨w, hw, rfl⟩ := map_eq_some_iff.1 hstep
    have hfault : (s.fault (w.vdevs.filter (· ∈ failed))).Complete params := { h with }
    have hmeta : ∀ (w' : Writer) shard, Stream.metadata = .shard shard → (some w').isSome → shard ∈ params.shards :=
      by simp
    dsimp only
    split
    · exact hfault.setWriter _ (hmeta _)
    next first rest hvdevs =>
      set entries := entriesOf [⟨hash, ⟨w.segmentId, w.cursor⟩, first :: rest⟩]
      have hlength : (first :: rest).length ≤ puts :=
        Nat.le_trans (hvdevs ▸ length_filter_le _ w.vdevs) (hputs w hw)
      have htake : entries.take puts = entries := take_of_length_le (by simpa [entries, entriesOf] using hlength)
      have hindex := (hfault.setWriter _ (w := some ⟨w.segmentId, first :: rest, w.cursor + 1⟩) (hmeta _)).putIndex
        entries
      have hknown : (((s.fault (w.vdevs.filter (· ∈ failed))).setWriter .metadata
          (some ⟨w.segmentId, first :: rest, w.cursor + 1⟩)).putIndex entries).Known params.shards hash :=
        .inl (has_putAll_entriesOf (e := ⟨hash, ⟨w.segmentId, w.cursor⟩, first :: rest⟩) (by simp) (by simp))
      rw [htake, if_pos hlength]
      exact { (hindex.putCache ⟨w.segmentId, w.cursor⟩ (.vdev first) hknown).acknowledge hknown with }

theorem heal {kind : StreamKind} (hstep : s.heal v kind hash = some t) : t.Complete params := by
  obtain ⟨-, ⟨⟩⟩ := ite_none_right_eq_some.1 hstep
  have hcreate : (s.createSegment [v] (.complete kind (.shard 0) [hash])).Complete params := { h with }
  have hindex := (hcreate.putIndex [((hash, .vdev v), ⟨s.nextSegmentId, 0⟩)]).commitIndex
  split_ifs
  · exact hindex.putCache _ _ (.inl (has_putAll_of_mem mem_cons_self))
  · exact hindex

end Complete

end

/-! ## The coalescer -/

theorem Rewrite.exists_entry_of_mem_hashes (hwritten : r.kept ≠ [] → r.written ≠ [])
    (hmem : hash ∈ r.hashes) : ∃ entry ∈ r.entries, entry.1.1 = hash := by
  obtain ⟨record, hrecord, rfl⟩ := mem_map.1 hmem
  obtain ⟨v, hv⟩ := exists_mem_of_ne_nil _ (hwritten (ne_nil_of_mem hrecord))
  exact ⟨_, Rewrite.mem_entries.2 ⟨record, hrecord, v, hv, rfl⟩, rfl⟩

theorem indexed_of_mem (h : ∃ entry ∈ entries, entry.1.1 = hash) :
    (s.putIndex entries).indexed hash = true := by
  obtain ⟨_, hentry, rfl⟩ := h
  exact has_putAll_of_mem hentry

theorem Complete.repointIndex (h : s.Complete params) (hwritten : r.kept ≠ [] → r.written ≠ []) :
    (s.repointIndex r).Complete params ∧ ∀ hash ∈ r.hashes, (s.repointIndex r).indexed hash = true := by
  have hentry : ∀ hash ∈ r.hashes, ∃ entry ∈ r.entries, entry.1.1 = hash :=
    fun hash hmem ↦ Rewrite.exists_entry_of_mem_hashes hwritten hmem
  unfold State.repointIndex
  split
  next =>
    exact ⟨(h.putIndex r.entries).commitIndex, fun hash hmem ↦ indexed_of_mem (hentry hash hmem)⟩
  next =>
    have hkeeps : KeepsKnown s ((s.eraseIndex r.oldId
        (r.kept.map fun record ↦ (record.1, .striped))).putIndex r.entries) := by
      refine keepsKnown_replace fun _ hkey ↦ ?_
      obtain ⟨record, hrecord, rfl⟩ := mem_map.1 hkey
      exact hentry record.1 (mem_map_of_mem hrecord)
    exact ⟨(h.of_keeps hkeeps h.shards h.vdevs).commitIndex,
      fun hash hmem ↦ indexed_of_mem (hentry hash hmem)⟩

theorem Complete.putCacheAll (h : s.Complete params) {tag : Tag} {records : List (Hash × Location)}
    (hindexed : ∀ record ∈ records, s.indexed record.1 = true) : (s.putCacheAll tag records).Complete params := by
  induction records generalizing s with
  | nil => exact h
  | cons record _ ih =>
    refine ih (h.putCache _ _ (.inl (hindexed record mem_cons_self))) fun record' hmem ↦ ?_
    exact hindexed record' (mem_cons_of_mem _ hmem)

theorem Complete.repointCache (h : s.Complete params)
    (hindexed : ∀ hash ∈ r.hashes, s.indexed hash = true) : (s.repointCache r).Complete params := by
  have hrecords : ∀ record ∈ r.kept, s.indexed record.1 = true :=
    fun record hrecord ↦ hindexed record.1 (mem_map_of_mem hrecord)
  unfold State.repointCache
  split
  next =>
    split_ifs
    · exact h.putCacheAll hrecords
    · exact h
  · exact h
  · exact h.putCacheAll hrecords

/-- Whether a hash has an index entry beside the one a rewrite forgets. -/
def indexedElsewhere (s : State Hash) (r : Rewrite Hash) (hash : Hash) : Bool :=
  s.index.entries.toList.any fun entry ↦
    entry.1.1 = hash ∧ (entry.1.2 ≠ r.tag ∨ entry.2.segmentId ≠ r.oldId)

theorem indexed_eraseIndex_of_elsewhere (h : s.indexedElsewhere r hash = true) :
    (s.eraseIndex r.oldId (r.dead.map fun h ↦ (h, r.tag))).indexed hash = true := by
  simp only [indexedElsewhere, List.any_eq_true, decide_eq_true_eq, Prod.exists] at h
  obtain ⟨_, tag, loc, hmem, rfl, hother⟩ := h
  refine Entries.has_iff.2 ⟨tag, loc, ?_⟩
  have hlookup := Table.mem_toList.1 hmem
  rcases hother with htag | hid
  · refine (Entries.lookup_eraseIn_of_notMem fun hkey ↦ htag ?_).trans hlookup
    obtain ⟨_, -, heq⟩ := mem_map.1 hkey
    exact (Prod.ext_iff.1 heq).2.symm
  · exact Entries.lookup_eraseIn_of_ne hlookup hid

/-- The dead records of a rewrite are forgotten only if the cache has none of them, or they are
still in the index or in a batch. -/
def ForgetsUncached (params : Params) (s : State Hash) (r : Rewrite Hash) : Prop :=
  ∀ hash ∈ r.dead, (s.cache hash).isNone ∨ s.indexedElsewhere r hash = true ∨ s.pending params.shards hash = true

instance (r : Rewrite Hash) : Decidable (s.ForgetsUncached params r) :=
  inferInstanceAs (Decidable (∀ hash ∈ r.dead, _))

section

variable (h : s.Complete params)

include h

theorem Complete.forgetDead (htask : s.task = some (.forget r))
    (hforget : s.ForgetsUncached params r) : (s.forgetDead params r).Complete params := by
  set u := (s.eraseIndex r.oldId (r.dead.map fun h ↦ (h, r.tag))).commitIndex
  have hknown : ∀ (shards : List ShardId) hash, hash ∉ r.dead → s.Known shards hash → u.Known shards hash := by
    rintro _ _ hdead (hindexed | hpending)
    · refine .inl (has_eraseIn (fun _ hkey heq ↦ hdead ?_) hindexed)
      obtain ⟨_, hmem, rfl⟩ := mem_map.1 hkey
      exact heq ▸ hmem
    · exact .inr hpending
  refine ⟨fun hash hmem ↦ ?_, fun hash hget ↦ ?_, h.shards, h.vdevs, h.writers, fun _ heq ↦ ?_,
    fun c hc hash hmem ↦ ?_⟩
  · obtain ⟨hmem, hlive⟩ := mem_filter.1 hmem
    rcases of_decide_eq_true hlive with hdead | hlive
    · exact hknown _ hash hdead (h.acked hash hmem)
    · exact hlive
  · by_cases hdead : hash ∈ r.dead
    · rcases hforget hash hdead with hnone | helse | hpending
      · have hsome : (s.cache hash).isSome := hget
        simp [isNone_iff_eq_none.1 hnone] at hsome
      · exact .inl (indexed_eraseIndex_of_elsewhere helse)
      · exact .inr hpending
    · exact hknown _ hash hdead (h.cache hash hget)
  · cases htask.symm.trans heq
    exact h.task _ htask
  · obtain ⟨c, hc', rfl⟩ := map_eq_some_iff.1 hc
    obtain ⟨hmem, hlive⟩ := mem_filter.1 hmem
    obtain ⟨hacked, hphase⟩ := h.started c hc' hash hmem
    have hkept : u.Known (c.phase.unflushed params.shards) hash := by
      rcases of_decide_eq_true hlive with hdead | hlive
      · exact hknown _ hash hdead hphase.1
      · exact hlive
    refine ⟨mem_filter.2 ⟨hacked, decide_eq_true ?_⟩, hkept, fun hcommitted ↦ ?_⟩
    · rcases of_decide_eq_true hlive with hdead | hlive
      · exact .inl hdead
      · exact .inr (hlive.imp_right (h.pending hash))
    · have hindexed := indexed_of_isCommitted hcommitted hkept
      exact (fileIndexed_commitIndex (s := s.eraseIndex r.oldId (r.dead.map fun h ↦ (h, r.tag)))).trans hindexed

theorem Complete.restripeIndex (id : SegmentId) (records : List Hash)
    (targets : List VdevId) : (s.restripeIndex id records targets).Complete params ∧
      ∀ hash ∈ records, (s.restripeIndex id records targets).indexed hash = true := by
  have hentry : ∀ hash ∈ records, ∃ entry ∈ (entries id records).map
      (fun x ↦ (((x.1, .striped), x.2) : (Hash × Tag) × Location)), entry.1.1 = hash := by
    intro _ hmem
    rw [← map_entries id records] at hmem
    obtain ⟨_, hrecord, rfl⟩ := mem_map.1 hmem
    exact ⟨_, mem_map_of_mem hrecord, rfl⟩
  have hkeeps : KeepsKnown s ((s.eraseIndex id (records.flatMap fun h ↦ targets.map fun v ↦ (h, .vdev v))).putIndex
      ((entries id records).map fun x ↦ ((x.1, .striped), x.2))) := by
    refine keepsKnown_replace fun _ hkey ↦ ?_
    obtain ⟨hash, hmem, hkey⟩ := mem_flatMap.1 hkey
    obtain ⟨v, -, rfl⟩ := mem_map.1 hkey
    exact hentry hash hmem
  exact ⟨(h.of_keeps hkeeps h.shards h.vdevs).commitIndex,
    fun hash hmem ↦ indexed_of_mem (hentry hash hmem)⟩

theorem Complete.restoreCache {removed : List (Hash × Location × Tag)}
    (hknown : ∀ x ∈ removed, s.Known params.shards x.1) : (s.restoreCache removed).Complete params :=
  { h with
    cache := fun hash hget ↦ by
      simp only [State.restoreCache, isSome_or, isSome_map, Bool.or_eq_true] at hget
      rcases hget with hget | hget
      · exact h.cache hash hget
      · obtain ⟨x, hx⟩ := isSome_iff_exists.1 hget
        have heq : x.1 = hash := by simpa using find?_some hx
        exact heq ▸ hknown x (mem_of_find?_eq_some hx) }

theorem Complete.removeCacheIn (tag : Tag) (id : SegmentId) (hashes : List Hash) :
    (s.removeCacheIn tag id hashes).Complete params :=
  { h with
    cache := fun hash hget ↦ by
      refine h.cache hash ?_
      simp only [State.removeCacheIn] at hget
      split_ifs at hget
      · simp at hget
      · exact hget }

/-- What a rewrite takes out of the cache was known when it did. -/
theorem Complete.removedFrom {x : Hash × Location × Tag}
    (hx : x ∈ s.removedFrom r) : s.Known params.shards x.1 := by
  obtain ⟨hash, -, hget⟩ := mem_filterMap.1 hx
  obtain ⟨-, hget⟩ := ite_none_right_eq_some.1 hget
  obtain ⟨y, hy, rfl⟩ := map_eq_some_iff.1 hget
  exact h.cache hash (isSome_of_eq_some hy)

end

def CoalescesKnown (params : Params) (s : State Hash) : Prop :=
  ∀ task ∈ s.task, match task with
    | .forget r => s.ForgetsUncached params r
    | _ => True

instance : Decidable (s.CoalescesKnown params) := by
  unfold CoalescesKnown
  exact @Option.decidableForallMem _ _ (fun task ↦ by cases task <;> infer_instance) _

section

variable (h : s.Complete params) {keep : List Nat}

include h

namespace Complete

theorem coalesceStep {proceed : Bool} (hkeeps : s.CoalescesKnown params)
    (hstep : s.coalesceStep params proceed = some t) : t.Complete params := by
  obtain ⟨task, htask, rfl⟩ := map_eq_some_iff.1 hstep
  have hknown := h.task task htask
  have hforget := hkeeps task htask
  cases task with
  | repointIndex =>
    obtain ⟨hcomplete, hindexed⟩ := h.repointIndex hknown
    exact hcomplete.nextTask ⟨hknown, hindexed⟩
  | repointCache =>
    refine (h.repointCache hknown.2).nextTask ?_
    split_ifs
    · trivial
    · exact hknown.1
  | removeCache r =>
    refine (h.removeCacheIn r.tag r.oldId r.dead).nextTask ⟨hknown, ?_⟩
    exact fun x hx ↦ h.removedFrom hx
  | gate =>
    dsimp only
    split_ifs
    · exact h.nextTask hknown.1
    · have hrestore := h.restoreCache hknown.2
      refine Complete.setTask ?_ (by simp)
      unfold backOff
      split
      · exact hrestore
      · exact { hrestore with }
  | forget =>
    refine (h.forgetDead htask hforget).nextTask ?_
    split_ifs
    · exact hknown
    · trivial
  | delete =>
    refine Complete.setTask ?_ (by simp)
    unfold deleteOld
    split <;> exact { h with }
  | stripeIndex id records targets =>
    obtain ⟨hcomplete, hindexed⟩ := h.restripeIndex id records targets
    exact hcomplete.nextTask hindexed
  | stripeCache id records =>
    refine (h.putCacheAll fun record hrecord ↦ hknown record.1 ?_).nextTask trivial
    rw [← map_entries id records]
    exact mem_map_of_mem hrecord
  | stripeDelete id targets =>
    cases targets with
    | nil => exact h.setTask (by simp)
    | cons v =>
      have hremove : (s.removeSegment [v] id).Complete params := { h with }
      exact hremove.nextTask trivial

theorem coalesceError (hstep : s.coalesceError puts = some t) : t.Complete params := by
  obtain ⟨_, -, rfl⟩ := map_eq_some_iff.1 hstep
  split
  next r =>
    refine Complete.setTask ?_ (by simp)
    split_ifs
    · exact h
    · exact h.putIndex _
  · exact h.setTask (by simp)

theorem beginRepack {oldId : SegmentId} (hstep : s.beginRepack v oldId keep = some t) :
    t.Complete params := by
  obtain ⟨-, hstep⟩ := ite_none_right_eq_some.1 hstep
  obtain ⟨seg, -, hstep⟩ := bind_eq_some_iff.1 hstep
  obtain ⟨-, hstep⟩ := ite_none_right_eq_some.1 hstep
  dsimp only at hstep
  split_ifs at hstep
  · cases hstep
    exact h.nextTask fun _ ↦ by simp
  · cases hstep
    have hcreate : (s.createSegment [v] (.complete .data seg.owner (split seg.records keep).1)).Complete params :=
      { h with }
    exact hcreate.nextTask fun _ ↦ by simp

theorem beginUnstripe (hstep : s.beginUnstripe id keep failed = some t) : t.Complete params := by
  obtain ⟨-, hstep⟩ := ite_none_right_eq_some.1 hstep
  obtain ⟨records, -, hstep⟩ := bind_eq_some_iff.1 hstep
  dsimp only at hstep
  split_ifs at hstep with hkept hwritten
  · cases hstep
    exact h.nextTask fun hne ↦ absurd (by simp [hkept, entries]) hne
  · cases hstep
    have hcreate : ((s.createSegment (s.online.filter (· ∉ failed))
        (.complete .data (.shard 0) (split records keep).1)).fault failed).Complete params := { h with }
    exact hcreate.nextTask fun _ ↦ hwritten

theorem beginRestripe (hstep : s.beginRestripe params id = some t) : t.Complete params := by
  obtain ⟨-, hstep⟩ := ite_none_right_eq_some.1 hstep
  obtain ⟨seg, -, hstep⟩ := bind_eq_some_iff.1 hstep
  obtain ⟨-, ⟨⟩⟩ := ite_none_right_eq_some.1 hstep
  have hstripe : { s with stripes := fun i ↦ if i = id then some seg.records else s.stripes i }.Complete params :=
    { h with }
  exact hstripe.nextTask trivial

/-! ## Checkpoints -/

theorem beginCheckpoint (hstep : s.beginCheckpoint params = some t) : t.Complete params := by
  obtain ⟨-, ⟨⟩⟩ := ite_none_right_eq_some.1 hstep
  refine h.setCheckpoint fun c hc hash hmem ↦ ?_
  cases hc
  exact ⟨hmem, h.acked hash hmem, False.elim⟩

/-- A checkpoint goes on to its next phase. -/
theorem setPhase {c : Checkpoint Hash}
    (hknown : ∀ hash ∈ c.started, hash ∈ s.acked ∧ s.PhaseKnown params phase hash) :
    (s.setCheckpoint (some { c with phase := phase })).Complete params :=
  h.setCheckpoint fun _ hc ↦ some.inj hc ▸ hknown

end Complete

end

theorem acked_flush (stream : Stream) (ok : Bool) : (s.flush stream ok).acked = s.acked := by
  cases ok <;> rfl

theorem acked_fsync (stream : Stream) (failed : List VdevId) (ok : Bool) :
    (s.fsync stream failed ok).acked = s.acked := by
  unfold fsync
  split
  · exact acked_flush stream ok
  · dsimp only
    split_ifs
    · rfl
    · exact acked_flush stream ok

/-- A shard's batch is flushed and the checkpoint goes on with the others. -/
theorem known_flush {todo : List ShardId}
    (hvdevs : ∀ e ∈ s.pendingIndex (.shard shard), e.vdevs ≠ []) (h : s.Known (shard :: todo) hash) :
    (s.flush (.shard shard) true).Known todo hash := by
  rcases known_iff.1 h with hindexed | ⟨shard', hmem, hpending⟩
  · exact .inl (has_putAll_of_has hindexed)
  rcases mem_cons.1 hmem with rfl | hmem
  · obtain ⟨e, he, rfl⟩ := pendingIn_iff.1 hpending
    exact .inl (has_putAll_entriesOf he (hvdevs e he))
  · exact (keepsKnown_flush hvdevs).known (known_iff.2 (.inr ⟨shard', hmem, hpending⟩))

theorem Complete.checkpointIndex (h : s.Complete params) (generation : Nat) :
    (s.checkpointIndex generation).Complete params := by
  have hgeneration : { s with index := { s.index with generation := generation } }.Complete params := { h with }
  exact hgeneration.commitIndex

theorem Complete.checkpointStep (h : s.Complete params) {ok : Bool}
    (hok : ∀ c ∈ s.checkpoint, c.phase ≠ .commit → ok = true)
    (hstep : s.checkpointStep params failed ok = some t) : t.Complete params := by
  obtain ⟨c, hc, rfl⟩ := map_eq_some_iff.1 hstep
  have hstarted := h.started c hc
  have hok := hok c hc
  have hsynced : ∀ stream, ∀ hash ∈ c.started, hash ∈ (s.fsync stream failed true).acked := fun stream hash hmem ↦
    (acked_fsync (s := s) stream failed true).symm ▸ (hstarted hash hmem).1
  split
  next shard todo hphase =>
    obtain rfl := hok (by simp [hphase])
    have hfsync := h.fsync (.shard shard) failed
    split_ifs
    · exact hfsync.setPhase fun hash hmem ↦
        ⟨hsynced _ hash hmem, hfsync.acked hash (hsynced _ hash hmem), False.elim⟩
    · exact hfsync.setCheckpoint (by simp)
  next hphase =>
    rw [hphase] at hstarted
    exact h.setPhase hstarted
  next hphase =>
    have hfsync := h.fsync .metadata failed
    split_ifs
    · exact hfsync.setPhase fun hash hmem ↦
        ⟨hsynced _ hash hmem, hfsync.acked hash (hsynced _ hash hmem), False.elim⟩
    · exact hfsync.setCheckpoint (by simp)
  next shard todo hphase =>
    obtain rfl := hok (by simp [hphase])
    have hflush := h.flush (.shard shard)
    split_ifs
    · refine hflush.setPhase fun hash hmem ↦ ?_
      rw [hphase] at hstarted
      obtain ⟨hacked, hknown⟩ := hstarted hash hmem
      refine ⟨?_, known_flush (h.vdevs _) hknown.1, False.elim⟩
      rw [acked_flush]
      exact hacked
    · exact hflush.setCheckpoint (by simp)
  next hphase =>
    rw [hphase] at hstarted
    exact h.setPhase hstarted
  next hphase =>
    split_ifs
    · refine (h.checkpointIndex c.generation).setPhase fun hash hmem ↦ ?_
      obtain ⟨hacked, hknown⟩ := hstarted hash hmem
      rw [hphase] at hknown
      have hindexed : s.indexed hash = true := by simpa [Known, Phase.unflushed, State.pending] using hknown.1
      refine ⟨hacked, .inl hindexed, fun _ ↦ ?_⟩
      exact fileIndexed_commitIndex.trans hindexed
    · exact h.setCheckpoint (by simp)
  next hphase =>
    have hpublish : { s with generation := c.generation }.Complete params := { h with }
    rw [hphase] at hstarted
    exact hpublish.setPhase hstarted
  next v _ hphase =>
    rw [hphase] at hstarted
    split_ifs
    · exact h.setCheckpoint (by simp)
    · have hfault : (s.fault [v]).Complete params := { h with }
      exact hfault.setPhase hstarted
    · have hslot : { s with slots := fun w ↦ if w = v then c.generation else s.slots w }.Complete params :=
        { h with }
      exact hslot.setPhase hstarted
  · exact h.setCheckpoint (by simp)

/-! ## Promotions and mounts -/

/-- A record that a rebuild meets is in the index it makes. -/
theorem has_rebuildIndex {file : Option (Index Hash)} (generation : Nat)
    (hscan : s.ScansAll vdevs order)
    (h : file.any (·.entries.has hash) = true ∨ s.hasCopy vdevs unreadable hash = true) :
    (s.rebuildIndex file vdevs order unreadable generation).entries.has hash = true := by
  rcases h with hfile | hcopy
  · obtain ⟨_, rfl, hfile⟩ := (Option.any_eq_true _ _).1 hfile
    exact Entries.has_putAll_of_has (Entries.has_putAll_of_has hfile)
  simp only [hasCopy, List.any_eq_true, mem_range, Bool.or_eq_true, Bool.and_eq_true,
    Option.any_eq_true, decide_eq_true_eq] at hcopy
  obtain ⟨id, hid, ⟨v, hv, seg, hseg, hmem⟩ | ⟨hreadable, records, hrecords, hmem⟩⟩ := hcopy
  · refine Entries.has_putAll_of_has ?_
    rw [← Segment.map_entries id seg.records] at hmem
    obtain ⟨record, hrecord, rfl⟩ := mem_map.1 hmem
    refine Entries.has_putAll_of_mem (e := ((record.1, .vdev v), record.2)) (mem_flatMap.2 ⟨v, hv, ?_⟩)
    refine mem_flatMap.2 ⟨id, hscan v hv id hid (by simp [hseg]), ?_⟩
    simpa only [hseg] using mem_map_of_mem hrecord
  · rw [← Segment.map_entries id records] at hmem
    obtain ⟨record, hrecord, rfl⟩ := mem_map.1 hmem
    refine Entries.has_putAll_of_mem (e := ((record.1, .striped), record.2))
      (mem_flatMap.2 ⟨id, mem_range.2 hid, ?_⟩)
    simpa only [hrecords, if_neg hreadable] using mem_map_of_mem hrecord

theorem Complete.promoteIndex (h : s.Complete params) (htask : s.task = none)
    (hacked : ∀ v ∈ s.online.head?, ∀ hash ∈ s.acked,
      (s.indexFiles v).any (·.entries.has hash) = true ∨ s.hasCopy s.online unreadable hash = true)
    (hstep : s.promoteIndex order unreadable = some t) : t.Complete params := by
  unfold State.promoteIndex at hstep
  split at hstep
  · simp at hstep
  next v _ honline =>
    obtain ⟨⟨-, -, hscan⟩, ⟨⟩⟩ := ite_none_right_eq_some.1 hstep
    have hhas := fun hash hmem ↦ has_rebuildIndex s.generation hscan
      (hacked v (by simp [honline]) hash hmem)
    refine ⟨fun hash hmem ↦ .inl (hhas hash hmem), fun hash hget ↦ .inl (has_of_preferred hget), h.shards,
      h.vdevs, h.writers, by simp [useIndex, htask], fun c hc hash hmem ↦ ?_⟩
    have hmem := (h.started c hc hash hmem).1
    refine ⟨hmem, .inl (hhas hash hmem), fun _ ↦ ?_⟩
    simpa [fileIndexed, useIndex] using hhas hash hmem

theorem Complete.mount
    (hacked : ∀ v ∈ vdevs.head?, ∀ hash ∈ s.acked, (s.indexFiles v).any (·.entries.has hash) = true ∨
      ((s.trusts v vdevs).isNone ∧ s.hasCopy vdevs unreadable hash = true))
    (hstep : s.mount params vdevs order unreadable = some t) : t.Complete params := by
  unfold State.mount at hstep
  split at hstep
  · simp at hstep
  next v rest =>
    obtain ⟨⟨-, -, hscan⟩, ⟨⟩⟩ := ite_none_right_eq_some.1 hstep
    refine ⟨fun hash hmem ↦ .inl ?_, fun hash hget ↦ .inl (has_of_preferred hget), by simp, by simp,
      by simp, by simp, by simp⟩
    have hknown := hacked v (by simp) hash hmem
    simp only [indexed, useIndex]
    cases htrusts : s.trusts v (v :: rest) with
    | some =>
      simp only [htrusts, isNone_some, Bool.false_eq_true, false_and, or_false] at hknown
      obtain ⟨hfile, -⟩ := filter_eq_some_iff.1 htrusts
      simpa [hfile] using hknown
    | none => exact has_rebuildIndex _ hscan (hknown.imp_right And.right)

/-! ## Runs -/

/-- The index takes every batch and every put of a meta record; a rewrite forgets no record the
cache still has; and when an index comes into use, the records acknowledged so far are in its
file or met by its rebuild. -/
def KeepsIndexed (params : Params) (s : State Hash) : Action Hash → Prop
  | .append _ _ _ ok | .flush _ ok | .fsync _ _ ok | .closeSegment _ _ ok => ok = true
  | .putMeta _ _ _ puts => ∀ w ∈ s.writers .metadata, w.vdevs.length ≤ puts
  | .promoteIndex _ unreadable => s.task.isNone ∧ ∀ v ∈ s.online.head?, ∀ hash ∈ s.acked,
      (s.indexFiles v).any (·.entries.has hash) = true ∨ s.hasCopy s.online unreadable hash = true
  | .coalesceStep _ => s.CoalescesKnown params
  | .checkpointStep _ ok => ∀ c ∈ s.checkpoint, c.phase ≠ .commit → ok = true
  | .mount vdevs _ unreadable => ∀ v ∈ vdevs.head?, ∀ hash ∈ s.acked,
      (s.indexFiles v).any (·.entries.has hash) = true ∨
        ((s.trusts v vdevs).isNone ∧ s.hasCopy vdevs unreadable hash = true)
  | _ => True

instance (a : Action Hash) : Decidable (s.KeepsIndexed params a) := by
  induction a using Action.casesOn <;> unfold KeepsIndexed <;> infer_instance

theorem Created.complete (h : s.Created) : s.Complete params := by
  obtain ⟨-, -, -, -, hacked, hwriters, hpending, hcache, htask, hcheckpoint⟩ := h
  constructor <;> simp [hacked, hwriters, hpending, hcache, htask, hcheckpoint]

theorem Complete.mountedStep {a : Action Hash} (h : s.Complete params) (hkeeps : s.KeepsIndexed params a)
    (hmounted : t.mounted = true) (hstep : s.mountedStep params a = some t) : t.Complete params := by
  cases a with
  | openSegment =>
    obtain ⟨hstream, hstep⟩ := ite_none_right_eq_some.1 hstep
    refine h.openSegment (fun shard heq ↦ ?_) hstep
    rcases hstream with rfl | ⟨_, hshard, rfl⟩
    · simp at heq
    · exact Stream.shard.inj heq ▸ hshard
  | append => exact h.append (hkeeps ▸ hstep)
  | dedupHit hash =>
    obtain ⟨hcached, ⟨⟩⟩ := ite_none_right_eq_some.1 hstep
    exact h.acknowledge (h.cache hash hcached)
  | flush shard ok =>
    obtain rfl : ok = true := hkeeps
    exact some.inj hstep ▸ h.flush (.shard shard)
  | fsync stream failed ok =>
    obtain rfl : ok = true := hkeeps
    exact some.inj hstep ▸ h.fsync stream failed
  | closeSegment stream failed ok =>
    obtain rfl : ok = true := hkeeps
    exact some.inj hstep ▸ h.closeSegment stream failed
  | putMeta => exact h.putMeta hkeeps hstep
  | heal => exact h.heal hstep
  | fault =>
    cases hstep
    exact { h with }
  | promoteIndex =>
    exact h.promoteIndex (isNone_iff_eq_none.1 hkeeps.1) hkeeps.2 hstep
  | promoteRole =>
    obtain ⟨v, -, rfl⟩ := map_eq_some_iff.1 hstep
    exact { h with }
  | beginRepack => exact h.beginRepack hstep
  | beginUnstripe => exact h.beginUnstripe hstep
  | beginRestripe => exact h.beginRestripe hstep
  | coalesceStep => exact h.coalesceStep hkeeps hstep
  | coalesceError => exact h.coalesceError hstep
  | beginCheckpoint => exact h.beginCheckpoint hstep
  | checkpointStep => exact h.checkpointStep hkeeps hstep
  | crash =>
    cases hstep
    simp [crash] at hmounted
  | mount => simp [State.mountedStep] at hstep

theorem complete_of_reachable (hs : (indexing Hash params).ReachableUnder (KeepsIndexed params) s) :
    s.mounted = true → s.Complete params := by
  refine hs.invariant (I := fun s ↦ s.mounted = true → s.Complete params)
    (fun _ (hcreated : Created _) _ ↦ hcreated.complete) ?_
  intro s a t _ h hkeeps hstep hmounted
  change s.step params a = some t at hstep
  unfold step at hstep
  split at hstep
  next heq => exact (h heq).mountedStep hkeeps hmounted hstep
  · exact Complete.mount hkeeps hstep
  · simp at hstep

/-- In every run that drops no entry, a checkpoint that writes its superblocks has in the index
file an entry for every record that was acknowledged when it began and not reclaimed since. -/
theorem checkpoint_index_complete {c : Checkpoint Hash} {todo : List VdevId}
    (hs : (indexing Hash params).ReachableUnder (KeepsIndexed params) s) (hmounted : s.mounted = true)
    (hc : s.checkpoint = some c) (hphase : c.phase = .superblock todo) {hash : Hash} (hmem : hash ∈ c.started) :
    ∃ file, s.indexFiles s.indexHome = some file ∧ ∃ tag loc, file.entries.lookup (hash, tag) = some loc := by
  obtain ⟨-, -, hfile⟩ := (complete_of_reachable hs hmounted).started c hc hash hmem
  have hindexed := hfile (hphase ▸ trivial)
  obtain ⟨file, heq, hhas⟩ := (any_eq_true _ _).1 hindexed
  exact ⟨file, heq, Entries.has_iff.1 hhas⟩

section Runs

/-- A record is acknowledged, its batch is handed to the index or lost, and a checkpoint runs up
to its superblocks. -/
def publishRun (ok : Bool) : List (Action Nat) :=
  [.openSegment (.shard 0) [], .append 0 7 [] true, .flush 0 ok, .beginCheckpoint] ++
    replicate 7 (.checkpointStep [] true)

theorem checkpoint_index_complete_flushed :
    ∃ s c, (indexing Nat twoDevices).ReachableUnder (KeepsIndexed twoDevices) s ∧ s.checkpoint = some c ∧
      c.phase = .superblock [0, 1] ∧ 7 ∈ c.started ∧ ∃ file, s.indexFiles s.indexHome = some file ∧
        ∃ tag loc, file.entries.lookup (7, tag) = some loc := by
  obtain ⟨s, c, hs, hc, hm, hphase, hstarted⟩ : ∃ s c,
      (indexing Nat twoDevices).ReachableUnder (KeepsIndexed twoDevices) s ∧ s.checkpoint = some c ∧
      s.mounted = true ∧ c.phase = .superblock [0, 1] ∧ 7 ∈ c.started :=
    Machine.exists_step_of_run created_created (publishRun true) (by decide +kernel)
  exact ⟨s, c, hs, hc, hphase, hstarted, checkpoint_index_complete hs hm hc hphase hstarted⟩

/-- The batch of a record that is on both devices is lost, and the next checkpoint publishes an
index without it. -/
theorem dropped_batch_is_published :
    ∃ s c file, (indexing Nat twoDevices).Reachable s ∧ s.mounted = true ∧ s.checkpoint = some c ∧
      c.phase = .superblock [0, 1] ∧ 7 ∈ c.started ∧ s.recordAt (.vdev 0) ⟨0, 0⟩ = some 7 ∧
      s.indexFiles s.indexHome = some file ∧ file.generation = c.generation ∧
      ∀ tag, file.entries.lookup (7, tag) = none := by
  obtain ⟨s, hs, hmounted, c, hc, hphase, hstarted, hrecord, file, hfile, hgeneration, hhas⟩ : ∃ s,
      (indexing Nat twoDevices).Reachable s ∧ s.mounted = true ∧ ∃ c ∈ s.checkpoint,
        c.phase = .superblock [0, 1] ∧ 7 ∈ c.started ∧ s.recordAt (.vdev 0) ⟨0, 0⟩ = some 7 ∧
        ∃ file ∈ s.indexFiles s.indexHome, file.generation = c.generation ∧ file.entries.has 7 = false :=
    Machine.exists_of_run created_created (publishRun false) (by decide +kernel)
  refine ⟨s, c, file, hs, hmounted, hc, hphase, hstarted, hrecord, hfile, hgeneration, fun tag ↦ ?_⟩
  refine eq_none_iff_forall_ne_some.2 fun loc hlookup ↦ ?_
  rw [Entries.has_iff.2 ⟨tag, loc, hlookup⟩] at hhas
  simp at hhas

end Runs

end State

end Lchfs.Index
