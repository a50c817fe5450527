import Lchfs.Recovery.Located

/-!
# Replay and newness

The delta log of a shard is ordered: epochs never go back along it, and of two entries
of one inode the later one holds the newer content. A root and its watermark agree
with the log when every entry up to the watermark is no newer than the root and every
entry above it is no older. The first half holds by construction. The second half is
where a checkpoint can go wrong: its watermark is the epoch counter when it starts,
its contents are read later. It holds when the log has no entry above the counter at
that moment, such as one that a crash cut off from its superblock, and when no file
with an entry above the watermark is written again before the snapshot.
-/

namespace Lchfs.Store

open Lchfs.Format Lchfs.Library
open List Option
open Function State Phase

namespace State

variable {params : PoolParams} {s t : State} {ino : Ino} {shard : ShardId}
variable {c : Checkpoint} {stamp : Nat} {c' : Checkpoint} {slot : SuperblockSlot} {a : Action}

/-- The watermark of the published root; zero before the first one. -/
def slotWatermark (s : State) (shard : ShardId) : Nat :=
  match s.slot with
  | none => 0
  | some slot => slot.root.watermark shard

/-- A mount recovers a content of the inode that is at least as new as the stamp. -/
def Covered (params : PoolParams) (s : State) (ino : Ino) (stamp : Nat) : Prop :=
  stamp ≤ s.ghost.slotStamp ino ∨
    ∃ c ∈ (s.delta (params.shardOf ino)).commits, c.ino = ino ∧
      s.slotWatermark (params.shardOf ino) < c.epoch ∧ stamp ≤ c.stamp

/-- The order of the logs on disk and their agreement with the published root. -/
structure LogOrdered (params : PoolParams) (s : State) : Prop where
  shardOf : ∀ shard, ∀ c ∈ (s.delta shard).commits, params.shardOf c.ino = shard
  epochs : ∀ shard, (s.delta shard).commits.Pairwise fun c d ↦ c.epoch ≤ d.epoch
  stamps : ∀ shard, (s.delta shard).commits.Pairwise fun c d ↦ c.ino = d.ino → c.stamp ≤ d.stamp
  epoch_le : ∀ shard, ∀ c ∈ (s.delta shard).commits, c.epoch ≤ s.shardSuperblock shard + 1
  stamp_le : ∀ shard, ∀ c ∈ (s.delta shard).commits, c.stamp ≤ s.ghost.clock
  slot_le : ∀ shard, s.slotWatermark shard ≤ s.shardSuperblock shard
  slot_length : ∀ slot, s.slot = some slot →
    slot.root.shardWatermarks.length = params.logicalShardCount
  newer : ∀ shard, ∀ c ∈ (s.delta shard).commits, s.slotWatermark shard < c.epoch →
    s.ghost.slotStamp c.ino ≤ c.stamp
  older : ∀ shard, ∀ c ∈ (s.delta shard).commits, c.epoch ≤ s.slotWatermark shard →
    c.stamp ≤ s.ghost.slotStamp c.ino
  slotStamp_le : ∀ ino, s.ghost.slotStamp ino ≤ s.ghost.clock
  acked : ∀ ino, s.Covered params ino (s.ghost.ackStamp ino)

/-- The mounted pool is ahead of its logs and of the published root. -/
structure MemoryAhead (params : PoolParams) (s : State) : Prop where
  localEpoch : ∀ shard, (s.deltaLogs shard).localEpoch = s.shardSuperblock shard
  writer : ∀ shard, (s.delta shard).WriterOk (s.deltaLogs shard).writer
  nsStamp_le : ∀ ino, s.ghost.nsStamp ino ≤ s.ghost.memStamp ino
  memStamp_le : ∀ ino, s.ghost.memStamp ino ≤ s.ghost.clock
  entry_le : ∀ shard, ∀ c ∈ (s.delta shard).commits, c.stamp ≤ s.ghost.nsStamp c.ino
  slotStamp_le : ∀ ino, s.ghost.slotStamp ino ≤ s.ghost.nsStamp ino
  contentSet : ∀ ino sessionChunks object stamp,
    s.ops ino = some (.contentSet sessionChunks object stamp) →
      stamp = s.ghost.memStamp ino ∧ stamp = s.ghost.nsStamp ino
  logged : ∀ ino sessionChunks stamp, s.ops ino = some (.logged sessionChunks stamp) →
    s.Covered params ino stamp
  published : ∀ shard watermark, s.publishedWatermarks.1[shard]? = some watermark ∨
    s.publishedWatermarks.2[shard]? = some watermark → watermark ≤ s.slotWatermark shard

/-- The running checkpoint agrees with the logs so far. -/
structure CheckpointOrdered (params : PoolParams) (s : State) (c : Checkpoint) : Prop where
  length : c.watermarks.length ≤ params.logicalShardCount
  reading : ∀ shard, c.phase = .watermark shard →
    c.watermarks.length = min shard params.logicalShardCount
  starting : ∀ shard, c.phase = .barrier shard → c.watermarks = []
  complete : Phase.drain.rank ≤ c.phase.rank → c.watermarks.length = params.logicalShardCount
  read : ∀ shard watermark, c.watermarks[shard]? = some watermark →
    s.slotWatermark shard ≤ watermark ∧ watermark ≤ s.shardSuperblock shard
  before : c.phase.rank ≤ Phase.capture.rank → ∀ shard watermark,
    c.watermarks[shard]? = some watermark → ∀ e ∈ (s.delta shard).commits,
      watermark < e.epoch → s.ghost.memStamp e.ino ≤ e.stamp
  after : Phase.capture.rank < c.phase.rank → ∀ shard watermark,
    c.watermarks[shard]? = some watermark → ∀ e ∈ (s.delta shard).commits,
      (watermark < e.epoch → s.ghost.snapStamp e.ino ≤ e.stamp) ∧
        (e.epoch ≤ watermark → e.stamp ≤ s.ghost.snapStamp e.ino)
  snapshot : Phase.capture.rank < c.phase.rank → ∀ ino,
    s.ghost.slotStamp ino ≤ s.ghost.snapStamp ino ∧ s.ghost.snapStamp ino ≤ s.ghost.nsStamp ino
  root : Phase.root.rank < c.phase.rank → c.root.shardWatermarks = c.watermarks

/-- No entry of the inode lies above the watermark of a checkpoint that has not taken its
snapshot yet. -/
def NotAboveWatermark (params : PoolParams) (s : State) (ino : Ino) : Prop :=
  ∀ c ∈ s.checkpoint, c.phase.rank ≤ Phase.capture.rank →
    ∀ watermark ∈ c.watermarks[params.shardOf ino]?,
      ∀ e ∈ (s.delta (params.shardOf ino)).commits, e.ino = ino → e.epoch ≤ watermark

/-- The log whose counter the checkpoint reads next ends at that counter. -/
def EndsAtCounter (s : State) (c : Checkpoint) : Prop :=
  match c.phase with
  | .watermark shard => ∀ e ∈ (s.delta shard).commits, e.epoch ≤ (s.deltaLogs shard).localEpoch
  | _ => True

/-- A new inode's number is that of no operation, and of no entry above the watermark. -/
def NumberIsFresh (params : PoolParams) (s : State) : Prop :=
  (s.ops s.ns.nextIno).isNone ∧ s.NotAboveWatermark params s.ns.nextIno

/-- Among the entries a mount replays, no inode goes back from a chunk list to a content
that leaves no working state. -/
def StaysChunked (params : PoolParams) (s : State) : Prop :=
  (s.disk.replayed params).Pairwise fun c d ↦ c.ino = d.ino →
    leavesFileState c = true → leavesFileState d = true

/-- The steps after which a replay cannot revert a file. -/
def ReplaySafe (params : PoolParams) (s : State) : Action → Prop
  | .createEntry _ _ _ _ => s.NumberIsFresh params
  | .finishWrite ino => s.NotAboveWatermark params ino
  | .checkpointStep => ∀ c ∈ s.checkpoint, s.EndsAtCounter c
  | .openPool => s.StaysChunked params
  | _ => True

instance (s : State) (c : Checkpoint) : Decidable (s.EndsAtCounter c) := by
  unfold EndsAtCounter
  split <;> infer_instance

instance (s : State) (a : Action) : Decidable (ReplaySafe params s a) := by
  induction a using Action.casesOn <;> simp only [ReplaySafe, NumberIsFresh, NotAboveWatermark, StaysChunked] <;>
    infer_instance

structure ReplayOrdered (params : PoolParams) (s : State) : Prop where
  log : s.LogOrdered params
  memory : s.mounted = true → s.MemoryAhead params
  checkpoint : s.mounted = true → ∀ c, s.checkpoint = some c → s.CheckpointOrdered params c

/-- The content of an inode stays, and no fsync of it gets past its barrier. -/
structure SameStamps (s t : State) (ino : Ino) : Prop where
  memStamp : t.ghost.memStamp ino = s.ghost.memStamp ino := by rfl
  nsStamp : t.ghost.nsStamp ino = s.ghost.nsStamp ino := by rfl
  ops : ∀ op, t.ops ino = some op → op.isPublished = false ∨ s.ops ino = some op := by
    exact fun _ h ↦ .inr h

/-- The content of an inode gets newer, but not if the running checkpoint must not see it newer. -/
structure Restamps (params : PoolParams) (s t : State) (ino : Ino) : Prop where
  nsStamp : s.ghost.nsStamp ino ≤ t.ghost.nsStamp ino
  nsStamp_le : t.ghost.nsStamp ino ≤ t.ghost.memStamp ino
  memStamp_le : t.ghost.memStamp ino ≤ t.ghost.clock
  window : t.ghost.memStamp ino ≤ s.ghost.memStamp ino ∨
    t.checkpoint = s.checkpoint ∧ s.NotAboveWatermark params ino
  ops : ∀ op, t.ops ino = some op → t.ghost.memStamp ino = t.ghost.nsStamp ino ∧
    ∃ sessionChunks object, op = .contentSet sessionChunks object (t.ghost.memStamp ino)

/-- A step that leaves logs and slot alone; it may acknowledge an fsync that is covered. -/
structure KeepsLogs (params : PoolParams) (s t : State) : Prop where
  delta : t.delta = s.delta := by rfl
  shardSuperblock : t.shardSuperblock = s.shardSuperblock := by rfl
  deltaLogs : t.deltaLogs = s.deltaLogs := by rfl
  slot : t.slot = s.slot := by rfl
  publishedWatermarks : t.publishedWatermarks = s.publishedWatermarks := by rfl
  clock : s.ghost.clock ≤ t.ghost.clock := by exact le_rfl
  snapStamp : t.ghost.snapStamp = s.ghost.snapStamp := by rfl
  slotStamp : t.ghost.slotStamp = s.ghost.slotStamp := by rfl
  ackStamp : ∀ ino, t.ghost.ackStamp ino = s.ghost.ackStamp ino ∨
    s.Covered params ino (t.ghost.ackStamp ino) := by exact fun _ ↦ .inl rfl
  inodes : ∀ ino, s.SameStamps t ino ∨ s.Restamps params t ino := by exact fun _ ↦ .inl {}

theorem KeepsLogs.nsStamp (h : s.KeepsLogs params t) (ino : Ino) : s.ghost.nsStamp ino ≤ t.ghost.nsStamp ino :=
  (h.inodes ino).elim (fun h ↦ Nat.le_of_eq h.nsStamp.symm) Restamps.nsStamp

section

variable (h : s.ReplayOrdered params) (hm : s.mounted = true)

include h hm

namespace ReplayOrdered

/-- The checkpoint may change too, as long as it stays ordered. -/
theorem keepsLogs (hst : s.KeepsLogs params t)
    (hc : ∀ c, t.checkpoint = some c → s.CheckpointOrdered params c) : t.ReplayOrdered params := by
  have hslot : t.slotWatermark = s.slotWatermark := by
    funext shard
    simp only [slotWatermark, hst.slot]
  have hcovered : ∀ ino stamp, t.Covered params ino stamp ↔ s.Covered params ino stamp := by
    simp only [Covered, hslot, hst.delta, hst.slotStamp, implies_true]
  have hmem := h.memory hm
  refine ⟨?_, fun _ ↦ ?_, fun _ c hc' ↦ ?_⟩
  · obtain ⟨h1, h2, h3, h4, h5, h6, h7, h8, h9, h10, h11⟩ := h.log
    constructor <;> (try simp only [hslot, hst.delta, hst.shardSuperblock, hst.slot, hst.slotStamp,
      hcovered]) <;> try assumption
    · exact fun shard c hc ↦ (h5 shard c hc).trans hst.clock
    · exact fun ino ↦ (h10 ino).trans hst.clock
    · exact fun ino ↦ (hst.ackStamp ino).elim (fun hack ↦ hack ▸ h11 ino) id
  · constructor <;> (try simp only [hslot, hst.delta, hst.shardSuperblock, hst.deltaLogs,
      hst.slotStamp, hst.publishedWatermarks, hcovered])
    · exact hmem.localEpoch
    · exact hmem.writer
    · exact fun ino ↦ (hst.inodes ino).elim
        (fun hsame ↦ hsame.memStamp ▸ hsame.nsStamp ▸ hmem.nsStamp_le ino) Restamps.nsStamp_le
    · exact fun ino ↦ (hst.inodes ino).elim
        (fun hsame ↦ hsame.memStamp ▸ (hmem.memStamp_le ino).trans hst.clock) Restamps.memStamp_le
    · exact fun shard c hc ↦ (hmem.entry_le shard c hc).trans (hst.nsStamp _)
    · exact fun ino ↦ (hmem.slotStamp_le ino).trans (hst.nsStamp ino)
    · intro ino _ _ _ hop
      rcases hst.inodes ino with hsame | hnew
      · rw [hsame.memStamp, hsame.nsStamp]
        exact hmem.contentSet ino _ _ _ ((hsame.ops _ hop).resolve_left (by simp [Op.isPublished]))
      · obtain ⟨heq, _, _, hcontent⟩ := hnew.ops _ hop
        cases hcontent
        exact ⟨rfl, heq⟩
    · intro ino _ _ hop
      rcases hst.inodes ino with hsame | hnew
      · exact hmem.logged ino _ _ ((hsame.ops _ hop).resolve_left (by simp [Op.isPublished]))
      · obtain ⟨_, _, _, hcontent⟩ := hnew.ops _ hop
        cases hcontent
    · exact hmem.published
  · obtain ⟨h1, h2, h3, h4, h5, h6, h7, h8, h9⟩ := hc c hc'
    constructor <;> (try simp only [hslot, hst.delta, hst.shardSuperblock, hst.slotStamp,
      hst.snapStamp]) <;> try assumption
    · intro hrank shard watermark hw e he hlt
      have hbefore := h6 hrank shard watermark hw e he hlt
      rcases hst.inodes e.ino with hsame | hnew
      · exact hsame.memStamp ▸ hbefore
      rcases hnew.window with hle | ⟨heq, hsafe⟩
      · exact hle.trans hbefore
      · obtain rfl := h.log.shardOf shard e he
        exact absurd (hsafe c (heq ▸ hc') hrank watermark hw e he rfl) (by omega)
    · exact fun hrank ino ↦ ⟨(h8 hrank ino).1, (h8 hrank ino).2.trans (hst.nsStamp ino)⟩

theorem of_local (hst : s.Local ino t) (hino : s.SameStamps t ino ∨ s.Restamps params t ino)
    (hack : t.ghost.ackStamp ino = s.ghost.ackStamp ino ∨ s.Covered params ino (t.ghost.ackStamp ino)) :
    t.ReplayOrdered params := by
  refine h.keepsLogs hm { hst with ackStamp := fun i ↦ ?_, inodes := fun i ↦ ?_ }
    fun c hc ↦ h.checkpoint hm c (hst.checkpoint ▸ hc)
  · by_cases heq : i = ino
    · exact heq ▸ hack
    · exact .inl (hst.ackStamp i heq)
  · by_cases heq : i = ino
    · exact heq ▸ hino
    · exact .inl ⟨hst.memStamp i heq, hst.nsStamp i heq, fun _ hi ↦ .inr (hst.ops i heq ▸ hi)⟩

theorem unstamped (hlocal : s.Local ino t) (hst : s.Unstamped ino t) : t.ReplayOrdered params :=
  h.of_local hm hlocal (.inl ⟨by rw [hst.ghost], by rw [hst.ghost], hst.op⟩) (.inl (by rw [hst.ghost]))

theorem works (hst : s.Works params ino t) : t.ReplayOrdered params :=
  h.unstamped hm hst.isLocal hst.unstamped

/-- A local step publishes a content: the inode's stamp catches up with its memory. -/
theorem publish (hst : s.Local ino t) (hghost : t.ghost = { s.ghost with
      nsStamp := update s.ghost.nsStamp ino (s.ghost.memStamp ino) })
    (hop : t.ops ino = none ∨ ∃ sessionChunks object,
      t.ops ino = some (.contentSet sessionChunks object (s.ghost.memStamp ino))) :
    t.ReplayOrdered params := by
  have hmem := h.memory hm
  have hnew : t.ghost.memStamp ino = s.ghost.memStamp ino ∧ t.ghost.nsStamp ino = s.ghost.memStamp ino := by
    simp [hghost]
  refine h.of_local hm hst (.inr ⟨?_, ?_, ?_, .inl (Nat.le_of_eq hnew.1), fun _ hi ↦ ?_⟩) (.inl (by rw [hghost]))
  · exact hnew.2 ▸ hmem.nsStamp_le ino
  · exact Nat.le_of_eq (hnew.2.trans hnew.1.symm)
  · simpa [hghost] using hmem.memStamp_le ino
  · refine ⟨hnew.1.trans hnew.2.symm, ?_⟩
    rw [hnew.1]
    rcases hop with hop | ⟨_, _, hop⟩
    · simp [hop] at hi
    · exact ⟨_, _, some.inj (hi.symm.trans hop)⟩

/-- The end of a write. -/
theorem finishWrite (hsafe : s.NotAboveWatermark params ino) (hst : s.finishWrite ino = some t) :
    t.ReplayOrdered params := by
  have hlocal := Local.finishWrite hst
  obtain ⟨_, hop, hghost | hghost⟩ := finishWrite_spec hst
  · exact h.unstamped hm hlocal ⟨hghost, fun op hi ↦ by simp [hop] at hi⟩
  · have hmem := h.memory hm
    have hle := (hmem.nsStamp_le ino).trans (hmem.memStamp_le ino)
    refine h.of_local hm hlocal (.inr ⟨?_, ?_, ?_, .inr ⟨hlocal.checkpoint, hsafe⟩, fun _ hi ↦ ?_⟩)
      (.inl (by rw [hghost]))
    · rw [hghost]
    · simp only [hghost, update_self]
      omega
    · simp [hghost]
    · simp [hop] at hi

theorem createEntry {parent : Ino} {name : String} {kind : InodeKind} {target : String}
    (hsafe : s.NumberIsFresh params) (hst : s.createEntry parent name kind target = some t) :
    t.ReplayOrdered params := by
  obtain ⟨_, _, hcreate, rfl⟩ := createEntry_spec hst
  obtain ⟨rfl, _⟩ := Namespace.createEntry_ok hcreate
  obtain ⟨hnone, hfresh⟩ := hsafe
  have hmem := h.memory hm
  have hle := (hmem.nsStamp_le s.ns.nextIno).trans (hmem.memStamp_le s.ns.nextIno)
  refine h.keepsLogs hm { clock := Nat.le_succ _, inodes := fun i ↦ ?_ } (h.checkpoint hm)
  by_cases heq : i = s.ns.nextIno
  · subst heq
    refine .inr ⟨?_, ?_, ?_, .inr ⟨rfl, hfresh⟩, fun op hi ↦ ?_⟩
    · simp only [update_self]
      omega
    · simp
    · simp
    · have hi : s.ops s.ns.nextIno = some op := hi
      simp [hi] at hnone
  · exact .inl { memStamp := by simp [heq], nsStamp := by simp [heq] }

theorem finishFsync (hst : s.finishFsync params ino = some t) : t.ReplayOrdered params := by
  obtain ⟨sessionChunks, stamp, hop, hop', hghost⟩ := finishFsync_spec hst
  refine h.of_local hm (Local.finishFsync hst) (.inl ⟨by rw [hghost], by rw [hghost], by simp [hop']⟩) (.inr ?_)
  rw [hghost]
  simpa using (h.memory hm).logged ino sessionChunks stamp hop

theorem fsyncPublish (hst : s.fsyncPublish params ino = some t) : t.ReplayOrdered params := by
  have hlocal := Local.fsyncPublish hst
  obtain ⟨_, ⟨hghost, hop⟩ | ⟨hghost, hop⟩⟩ := fsyncPublish_spec hst
  · exact h.unstamped hm hlocal ⟨hghost, fun _ hi ↦ by simp [hop] at hi⟩
  · exact h.publish hm hlocal hghost (.inr hop)

end ReplayOrdered

end

theorem Covered.append (hst : s.Covered params ino stamp)
    (hdelta : ∀ shard, ∀ c ∈ (s.delta shard).commits, c ∈ (t.delta shard).commits)
    (hslot : t.slotWatermark = s.slotWatermark) (hstamp : t.ghost.slotStamp = s.ghost.slotStamp) :
    t.Covered params ino stamp := by
  rcases hst with hst | ⟨c, hc, rfl, hlt, hle⟩
  · exact .inl (hstamp ▸ hst)
  · exact .inr ⟨c, hdelta _ c hc, rfl, hslot ▸ hlt, hle⟩

/-- The commit of an fsync: its entry is the newest of its log in every respect. -/
structure Logs (params : PoolParams) (s t : State) (e : DeltaCommit) : Prop where
  epoch : e.epoch = s.shardSuperblock (params.shardOf e.ino) + 1
  memStamp : e.stamp = s.ghost.memStamp e.ino
  nsStamp : e.stamp = s.ghost.nsStamp e.ino
  commits : ∀ shard, (t.delta shard).commits =
    if shard = params.shardOf e.ino then (s.delta shard).commits ++ [e] else (s.delta shard).commits
  writer : ∀ shard, (t.delta shard).WriterOk (t.deltaLogs shard).writer
  localEpoch : ∀ shard, (t.deltaLogs shard).localEpoch = (s.deltaLogs shard).localEpoch
  shardSuperblock : t.shardSuperblock = s.shardSuperblock
  slot : t.slot = s.slot
  publishedWatermarks : t.publishedWatermarks = s.publishedWatermarks
  ghost : t.ghost = s.ghost
  checkpoint : t.checkpoint = s.checkpoint
  ops : ∀ i op, t.ops i = some op →
    s.ops i = some op ∨ i = e.ino ∧ ∃ sessionChunks, op = .logged sessionChunks e.stamp

theorem MemoryAhead.deltaCommit (h : s.MemoryAhead params)
    (hst : s.deltaCommit params ino = some t) : ∃ e, s.Logs params t e := by
  obtain ⟨sessionChunks, object, stamp, hop, _, rfl⟩ := deltaCommit_spec hst
  obtain ⟨hmemStamp, hnsStamp⟩ := h.contentSet ino _ _ _ hop
  refine ⟨⟨ino, object, (s.deltaLogs (params.shardOf ino)).localEpoch + 1, stamp⟩,
    by simp [h.localEpoch], hmemStamp, hnsStamp, fun shard ↦ ?_, fun shard hw ↦ ?_, fun shard ↦ ?_,
    rfl, rfl, rfl, rfl, rfl, fun i _ hi ↦ ?_⟩
  · by_cases heq : shard = params.shardOf ino
    · subst heq
      simpa using DeltaSegments.commits_append (h.writer _) _
    · simp [heq]
  · by_cases heq : shard = params.shardOf ino
    · subst heq
      simpa using DeltaSegments.append_ne_nil (h.writer _) _
    · simp only [heq, ne_eq, not_false_eq_true, update_of_ne] at hw ⊢
      exact h.writer shard hw
  · by_cases heq : shard = params.shardOf ino
    · simp [heq]
    · simp [heq]
  · rcases of_update hi with ⟨rfl, ⟨⟩⟩ | ⟨-, hi⟩
    · exact .inr ⟨rfl, sessionChunks, rfl⟩
    · exact .inl hi

section Logs

variable {e : DeltaCommit}

section

variable (h : s.Logs params t e)

include h

theorem Logs.mem {c : DeltaCommit} : c ∈ (t.delta shard).commits ↔
      c ∈ (s.delta shard).commits ∨ shard = params.shardOf e.ino ∧ c = e := by
  rw [h.commits]
  split_ifs with heq
  · simp [heq]
  · simp [heq]

theorem Logs.slotWatermark : t.slotWatermark = s.slotWatermark := by
  funext shard
  simp only [State.slotWatermark, h.slot]

theorem Logs.covered (hst : s.Covered params ino stamp) : t.Covered params ino stamp :=
  hst.append (fun _ _ hc ↦ h.mem.2 (.inl hc)) h.slotWatermark (by rw [h.ghost])

/-- A property of the entries of every log holds after the commit if it holds of the new
entry. -/
theorem Logs.forall {P : ShardId → DeltaCommit → Prop}
    (hold : ∀ shard, ∀ c ∈ (s.delta shard).commits, P shard c) (hnew : P (params.shardOf e.ino) e) :
    ∀ shard, ∀ c ∈ (t.delta shard).commits, P shard c := by
  intro shard c hc
  rcases h.mem.1 hc with hc | ⟨rfl, rfl⟩
  · exact hold shard c hc
  · exact hnew

theorem Logs.pairwise {R : DeltaCommit → DeltaCommit → Prop}
    (hold : ∀ shard, (s.delta shard).commits.Pairwise R)
    (hnew : ∀ c ∈ (s.delta (params.shardOf e.ino)).commits, R c e) :
    ∀ shard, (t.delta shard).commits.Pairwise R := by
  intro shard
  rw [h.commits]
  split_ifs with heq
  · rw [pairwise_append]
    refine ⟨hold shard, pairwise_singleton R e, fun c hc d hd ↦ ?_⟩
    obtain rfl := mem_singleton.1 hd
    exact hnew c (heq ▸ hc)
  · exact hold shard

end

section

variable (h : s.ReplayOrdered params) (hm : s.mounted = true)

include h hm

theorem Logs.log (hst : s.Logs params t e) : t.LogOrdered params := by
  have hlog := h.log
  have hmem := h.memory hm
  refine ⟨hst.forall hlog.shardOf rfl, hst.pairwise hlog.epochs fun c hc ↦ ?_,
    hst.pairwise hlog.stamps fun c hc heq ↦ ?_, hst.forall ?_ ?_, hst.forall ?_ ?_, ?_, ?_,
    hst.forall ?_ ?_, hst.forall ?_ ?_, ?_, fun i ↦ ?_⟩ <;>
    (try simp only [hst.slotWatermark, hst.shardSuperblock, hst.ghost, hst.slot])
  · exact hst.epoch ▸ hlog.epoch_le _ c hc
  · rw [hst.nsStamp, ← heq]
    exact hmem.entry_le _ c hc
  · exact hlog.epoch_le
  · exact Nat.le_of_eq hst.epoch
  · exact hlog.stamp_le
  · exact hst.memStamp ▸ hmem.memStamp_le _
  · exact hlog.slot_le
  · exact hlog.slot_length
  · exact hlog.newer
  · exact fun _ ↦ hst.nsStamp ▸ hmem.slotStamp_le _
  · exact hlog.older
  · have := hlog.slot_le (params.shardOf e.ino)
    rw [hst.epoch]
    omega
  · exact hlog.slotStamp_le
  · exact hst.covered (hlog.acked i)

theorem Logs.memory (hst : s.Logs params t e) : t.MemoryAhead params := by
  have hmem := h.memory hm
  refine ⟨fun shard ↦ ?_, hst.writer, ?_, ?_, hst.forall ?_ ?_, ?_, fun i sessionChunks _ stamp hi ↦ ?_,
    fun i sessionChunks stamp hi ↦ ?_, ?_⟩ <;>
    (try simp only [hst.slotWatermark, hst.shardSuperblock, hst.ghost, hst.publishedWatermarks])
  · rw [hst.localEpoch]
    exact hmem.localEpoch shard
  · exact hmem.nsStamp_le
  · exact hmem.memStamp_le
  · exact hmem.entry_le
  · exact Nat.le_of_eq hst.nsStamp
  · exact hmem.slotStamp_le
  · rcases hst.ops i _ hi with hi | ⟨_, _, heq⟩
    · exact hmem.contentSet i _ _ _ hi
    · simp at heq
  · rcases hst.ops i _ hi with hi | ⟨rfl, _, heq⟩
    · exact hst.covered (hmem.logged i _ _ hi)
    · obtain rfl : stamp = e.stamp := (Op.logged.inj heq).2
      have hslot := h.log.slot_le (params.shardOf e.ino)
      refine .inr ⟨e, hst.mem.2 (.inr ⟨rfl, rfl⟩), rfl, ?_, le_rfl⟩
      rw [hst.slotWatermark, hst.epoch]
      omega
  · exact hmem.published

theorem Logs.checkpointOrdered (hst : s.Logs params t e) (hc : s.checkpoint = some c) :
    t.CheckpointOrdered params c := by
  have hold := h.checkpoint hm c hc
  refine ⟨hold.length, hold.reading, hold.starting, hold.complete, ?_, fun hrank shard watermark hw ↦ ?_,
    fun hrank shard watermark hw ↦ ?_, ?_, hold.root⟩
  · simp only [hst.slotWatermark, hst.shardSuperblock]
    exact hold.read
  · intro d hd hlt
    rw [hst.ghost]
    rcases hst.mem.1 hd with hd | ⟨_, rfl⟩
    · exact hold.before hrank shard watermark hw d hd hlt
    · exact Nat.le_of_eq hst.memStamp.symm
  · intro d hd
    rw [hst.ghost]
    rcases hst.mem.1 hd with hd | ⟨rfl, rfl⟩
    · exact hold.after hrank shard watermark hw d hd
    · refine ⟨fun _ ↦ hst.nsStamp ▸ (hold.snapshot hrank _).2, fun hle ↦ ?_⟩
      have := (hold.read _ watermark hw).2
      rw [hst.epoch] at hle
      omega
  · rw [hst.ghost]
    exact hold.snapshot

theorem ReplayOrdered.deltaCommit
    (hst : s.deltaCommit params ino = some t) : t.ReplayOrdered params := by
  obtain ⟨e, hlogs⟩ := (h.memory hm).deltaCommit hst
  exact ⟨hlogs.log h hm, fun _ ↦ hlogs.memory h hm,
    fun _ c hc ↦ hlogs.checkpointOrdered h hm (hlogs.checkpoint ▸ hc)⟩

end

end Logs

section

variable (h : s.ReplayOrdered params) (hm : s.mounted = true)

include h hm

theorem ReplayOrdered.writeShardSuperblock
    (hst : s.writeShardSuperblock shard = some t) : t.ReplayOrdered params := by
  obtain ⟨_, rfl⟩ := writeShardSuperblock_spec hst
  have hmem := h.memory hm
  have hle : ∀ shard', s.shardSuperblock shard' ≤
      update s.shardSuperblock shard ((s.deltaLogs shard).localEpoch + 1) shard' := by
    intro shard'
    by_cases heq : shard' = shard
    · simp [heq, hmem.localEpoch]
    · simp [heq]
  refine ⟨{ h.log with epoch_le := ?_, slot_le := ?_ }, fun _ ↦ { hmem with localEpoch := ?_, writer := ?_ },
    fun _ c hc ↦ { h.checkpoint hm c hc with read := ?_ }⟩
  · exact fun shard' c hc ↦ (h.log.epoch_le shard' c hc).trans (Nat.succ_le_succ (hle shard'))
  · exact fun shard' ↦ (h.log.slot_le shard').trans (hle shard')
  · intro shard'
    by_cases heq : shard' = shard
    · simp [heq]
    · simpa [heq] using hmem.localEpoch shard'
  · intro shard'
    by_cases heq : shard' = shard
    · simpa [heq] using hmem.writer shard
    · simpa [heq] using hmem.writer shard'
  · exact fun shard' watermark hw ↦ ⟨((h.checkpoint hm c hc).read shard' watermark hw).1,
      ((h.checkpoint hm c hc).read shard' watermark hw).2.trans (hle shard')⟩

/-- The logs shrink, but keep every entry above the published watermarks. -/
theorem ReplayOrdered.shrink {delta : ShardId → DeltaSegments}
    (hsub : ∀ shard, (delta shard).commits.Sublist (s.delta shard).commits)
    (hkeep : ∀ shard, ∀ c ∈ (s.delta shard).commits, s.slotWatermark shard < c.epoch →
      c ∈ (delta shard).commits)
    (hwriter : ∀ shard, (delta shard).WriterOk (s.deltaLogs shard).writer) :
    { s with delta := delta }.ReplayOrdered params := by
  have hlog := h.log
  have hmem := h.memory hm
  have hcovered : ∀ {i stamp}, s.Covered params i stamp →
      { s with delta := delta }.Covered params i stamp := by
    rintro i _ (hst | ⟨c, hc, rfl, hlt, hle⟩)
    · exact .inl hst
    · exact .inr ⟨c, hkeep _ c hc hlt, rfl, hlt, hle⟩
  have hin : ∀ {shard c}, c ∈ (delta shard).commits → c ∈ (s.delta shard).commits :=
    fun hc ↦ (hsub _).subset hc
  refine ⟨⟨fun shard c hc ↦ hlog.shardOf shard c (hin hc), fun shard ↦ (hlog.epochs shard).sublist (hsub shard),
    fun shard ↦ (hlog.stamps shard).sublist (hsub shard), fun shard c hc ↦ hlog.epoch_le shard c (hin hc),
    fun shard c hc ↦ hlog.stamp_le shard c (hin hc), hlog.slot_le, hlog.slot_length,
    fun shard c hc ↦ hlog.newer shard c (hin hc), fun shard c hc ↦ hlog.older shard c (hin hc),
    hlog.slotStamp_le, fun i ↦ hcovered (hlog.acked i)⟩,
    fun _ ↦ { hmem with
      writer := hwriter
      entry_le := fun shard c hc ↦ hmem.entry_le shard c (hin hc)
      logged := fun i _ _ hi ↦ hcovered (hmem.logged i _ _ hi) },
    fun _ c hc ↦ ?_⟩
  have hold := h.checkpoint hm c hc
  exact { hold with
    before := fun hrank shard w hw e he ↦ hold.before hrank shard w hw e (hin he)
    after := fun hrank shard w hw e he ↦ hold.after hrank shard w hw e (hin he) }

theorem ReplayOrdered.rollOver (hst : s.rollOver shard = some t) : t.ReplayOrdered params := by
  obtain ⟨_, _, rfl⟩ := rollOver_spec hst
  have hcommits : ∀ shard', DeltaSegments.commits
      (update s.delta shard (s.delta shard ++ [[]]) shard') = (s.delta shard').commits := by
    intro shard'
    by_cases heq : shard' = shard
    · simp [heq, DeltaSegments.commits_rollOver]
    · simp [heq]
  refine h.shrink hm (fun shard' ↦ ?_) (fun shard' c _ _ ↦ ?_) fun shard' hw ↦ ?_
  · rw [hcommits]
  · rwa [hcommits]
  · by_cases heq : shard' = shard
    · simp [heq]
    · simpa [heq] using (h.memory hm).writer shard' hw

theorem ReplayOrdered.truncateDeltaLogs : s.truncateDeltaLogs.ReplayOrdered params := by
  have hmem := h.memory hm
  refine h.shrink hm (fun shard ↦ ?_) (fun shard c hc hlt ↦ ?_) fun shard hw ↦ ?_
  · split
    · exact DeltaSegments.commits_truncateThrough_sublist
    · exact .refl _
  · split
    · next watermark hwatermark =>
      exact DeltaSegments.mem_commits_truncateThrough hc
        (Nat.lt_of_le_of_lt (hmem.published shard watermark (.inl hwatermark)) hlt)
    · exact hc
  · have hne := hmem.writer shard hw
    split
    · rw [DeltaSegments.truncateThrough, if_pos hw]
      obtain ⟨_, hlast⟩ := ne_none_iff_exists'.1 (getLast?_eq_none_iff.not.2 hne)
      simp [hlast]
    · exact hne

end

/-- The checkpoint moves on without reading a counter or taking its snapshot. -/
theorem CheckpointOrdered.next (h : s.CheckpointOrdered params c)
    (hw : c'.watermarks = c.watermarks) (hreading : ∀ shard, c'.phase = .watermark shard →
      c.watermarks.length = min shard params.logicalShardCount)
    (hstarting : ∀ shard, c'.phase = .barrier shard → c.watermarks = [])
    (hcomplete : drain.rank ≤ c'.phase.rank → c.watermarks.length = params.logicalShardCount)
    (hside : capture.rank < c'.phase.rank ↔ capture.rank < c.phase.rank)
    (hroot : Phase.root.rank < c'.phase.rank → c'.root.shardWatermarks = c.watermarks) :
    s.CheckpointOrdered params c' := by
  refine ⟨hw ▸ h.length, hw ▸ hreading, hw ▸ hstarting, hw ▸ hcomplete, hw ▸ h.read, fun hrank ↦ ?_,
    fun hrank ↦ ?_, fun hrank ↦ h.snapshot (hside.1 hrank), hw ▸ hroot⟩
  · exact hw ▸ h.before (by omega)
  · exact hw ▸ h.after (hside.1 hrank)

/-- From the drain on the watermarks stay. -/
theorem CheckpointOrdered.later (h : s.CheckpointOrdered params c)
    (hw : c'.watermarks = c.watermarks) (hdrain : drain.rank ≤ c.phase.rank)
    (hdrain' : drain.rank ≤ c'.phase.rank)
    (hside : capture.rank < c'.phase.rank ↔ capture.rank < c.phase.rank)
    (hroot : Phase.root.rank < c'.phase.rank → c'.root.shardWatermarks = c.watermarks) :
    s.CheckpointOrdered params c' :=
  h.next hw (fun _ hphase ↦ by simp [hphase] at hdrain')
    (fun _ hphase ↦ by simp [hphase] at hdrain') (fun _ ↦ h.complete hdrain) hside hroot

section

variable (h : s.ReplayOrdered params) (hm : s.mounted = true)

include h hm

namespace ReplayOrdered

theorem checkpointSnapshot (hc : s.checkpoint = some c) (hphase : c.phase = .capture)
    (hst : s.checkpointSnapshot c = some t) : t.ReplayOrdered params := by
  have hmem := h.memory hm
  have hold := h.checkpoint hm c hc
  unfold State.checkpointSnapshot at hst
  split_ifs at hst
  cases hst
  refine ⟨{ h.log with }, fun _ ↦ { hmem with }, fun _ _ hc' ↦ ?_⟩
  cases hc'
  refine ⟨hold.length, fun _ hp ↦ by simp at hp, fun _ hp ↦ by simp at hp,
    fun _ ↦ hold.complete (by simp [hphase]), hold.read,
    fun hrank ↦ by simp at hrank, fun _ shard watermark hw e he ↦ ⟨fun hlt ↦ ?_, fun _ ↦ ?_⟩,
    fun _ i ↦ ⟨hmem.slotStamp_le i, le_rfl⟩, fun hrank ↦ by simp at hrank⟩
  · exact (hmem.nsStamp_le _).trans (hold.before (by simp [hphase]) shard watermark hw e he hlt)
  · exact hmem.entry_le shard e he

/-- The new root takes the place of the old one: what it covers, and what it does not, is
what the snapshot said. -/
theorem checkpointSuperblock (hc : s.checkpoint = some c) (hphase : c.phase = .superblock) :
    (s.checkpointSuperblock c).ReplayOrdered params := by
  have hlog := h.log
  have hmem := h.memory hm
  have hold := h.checkpoint hm c hc
  have hlength := hold.complete (by simp [hphase])
  have hroot := hold.root (by simp [hphase])
  have hafter := hold.after (by simp [hphase])
  have hsnap := hold.snapshot (by simp [hphase])
  have hslot : ∀ shard, (s.checkpointSuperblock c).slotWatermark shard = c.watermarks.getD shard 0 := by
    intro _
    simp [slotWatermark, State.checkpointSuperblock, setCheckpoint, RootObject.watermark, hroot]
  have hread : ∀ shard, shard < params.logicalShardCount →
      c.watermarks[shard]? = some ((s.checkpointSuperblock c).slotWatermark shard) := by
    intro _ hlt
    rw [hslot, getD_eq_getElem?_getD, getElem?_eq_getElem (hlength ▸ hlt)]
    rfl
  have hentry : ∀ {shard e}, e ∈ (s.delta shard).commits → c.watermarks[shard]? =
      some ((s.checkpointSuperblock c).slotWatermark shard) := fun he ↦
    hread _ (hlog.shardOf _ _ he ▸ params.shardOf_lt _)
  have hmono : ∀ shard, s.slotWatermark shard ≤ (s.checkpointSuperblock c).slotWatermark shard ∧
      (s.checkpointSuperblock c).slotWatermark shard ≤ s.shardSuperblock shard := by
    intro shard
    by_cases hlt : shard < params.logicalShardCount
    · exact hold.read shard _ (hread shard hlt)
    · have hnew : (s.checkpointSuperblock c).slotWatermark shard = 0 := by
        rw [hslot, getD_eq_getElem?_getD, getElem?_eq_none (hlength ▸ Nat.le_of_not_lt hlt)]
        rfl
      have hzero : s.slotWatermark shard = 0 := by
        unfold slotWatermark
        split
        · rfl
        · next slot hs =>
          rw [RootObject.watermark, getD_eq_getElem?_getD,
            getElem?_eq_none (hlog.slot_length slot hs ▸ Nat.le_of_not_lt hlt)]
          rfl
      omega
  have hcovered : ∀ {i stamp}, s.Covered params i stamp →
      (s.checkpointSuperblock c).Covered params i stamp := by
    rintro i _ (hle | ⟨e, he, rfl, _, hle⟩)
    · exact .inl (hle.trans (hsnap i).1)
    · by_cases hlt : (s.checkpointSuperblock c).slotWatermark (params.shardOf e.ino) < e.epoch
      · exact .inr ⟨e, he, rfl, hlt, hle⟩
      · exact .inl (hle.trans ((hafter _ _ (hentry he) e he).2 (by omega)))
  refine ⟨?_, fun _ ↦ ?_, fun _ _ hc' ↦ by simp [State.checkpointSuperblock, setCheckpoint] at hc'⟩
  · refine ⟨hlog.shardOf, hlog.epochs, hlog.stamps, hlog.epoch_le, hlog.stamp_le,
      fun shard ↦ (hmono shard).2, fun _ hslot' ↦ ?_, fun shard e he hlt ↦ ?_,
      fun shard e he hle ↦ ?_, fun i ↦ ?_, fun i ↦ hcovered (hlog.acked i)⟩
    · cases hslot'
      rw [hroot, hlength]
    · exact (hafter shard _ (hentry he) e he).1 hlt
    · exact (hafter shard _ (hentry he) e he).2 hle
    · exact (hsnap i).2.trans ((hmem.nsStamp_le i).trans (hmem.memStamp_le i))
  · refine { hmem with
      slotStamp_le := fun i ↦ (hsnap i).2
      logged := fun i _ _ hi ↦ hcovered (hmem.logged i _ _ hi)
      published := fun shard watermark hw ↦ ?_ }
    rcases hw with hw | hw
    · exact (hmem.published shard watermark (.inr hw)).trans (hmono shard).1
    · have hw : c.watermarks[shard]? = some watermark := hw
      rw [hslot, getD_eq_getElem?_getD, hw]
      rfl

theorem setCheckpoint (hst : s.KeepsLogs params t) (hc' : t.checkpoint = some c)
    (hc : s.CheckpointOrdered params c) : t.ReplayOrdered params := by
  refine h.keepsLogs hm hst fun _ hc'' ↦ ?_
  cases hc'.symm.trans hc''
  exact hc

theorem checkpointWatermark (hc : s.checkpoint = some c) (hphase : c.phase = .watermark shard)
    (hsafe : s.EndsAtCounter c) (hst : s.checkpointWatermark params c shard = some t) : t.ReplayOrdered params := by
  have hold := h.checkpoint hm c hc
  have hlength := hold.reading shard hphase
  simp only [EndsAtCounter, hphase] at hsafe
  have hnew : ∀ shard' watermark,
      (c.watermarks ++ [(s.deltaLogs shard).localEpoch])[shard']? = some watermark →
      c.watermarks[shard']? = some watermark ∨
        shard' = c.watermarks.length ∧ watermark = (s.deltaLogs shard).localEpoch := by
    intro shard' _ hw
    rcases Nat.lt_or_ge shard' c.watermarks.length with hlt | hge
    · exact .inl (getElem?_append_left hlt ▸ hw)
    · rw [getElem?_append_right hge, getElem?_singleton] at hw
      split_ifs at hw with hzero
      exact .inr ⟨Nat.le_antisymm (Nat.le_of_sub_eq_zero hzero) hge, (some.inj hw).symm⟩
  unfold State.checkpointWatermark at hst
  dsimp only at hst
  split_ifs at hst with hdone hheld <;> cases hst
  · refine h.setCheckpoint hm {} rfl
      (hold.next rfl (fun _ hp ↦ by simp at hp) (fun _ hp ↦ by simp at hp) (fun _ ↦ ?_) ?_
        fun hr ↦ by simp at hr)
    · rw [hlength]
      exact Nat.min_eq_right hdone
    · simp [hphase]
  · refine h.setCheckpoint hm {} rfl
      ⟨?_, fun shard' hp ↦ ?_, fun _ hp ↦ by simp at hp, fun hr ↦ by simp at hr,
        fun shard' watermark hw ↦ ?_, fun _ shard' watermark hw e he hlt ↦ ?_,
        fun hr ↦ by simp at hr, fun hr ↦ by simp at hr,
        fun hr ↦ by simp at hr⟩
    · simp only [length_append, length_singleton]
      omega
    · obtain rfl : shard + 1 = shard' := by simpa using hp
      simp only [length_append, length_singleton]
      omega
    · rcases hnew shard' watermark hw with hw | ⟨rfl, rfl⟩
      · exact hold.read shard' watermark hw
      · rw [hlength, Nat.min_eq_left (Nat.le_of_not_le hdone), (h.memory hm).localEpoch]
        exact ⟨h.log.slot_le shard, le_rfl⟩
    · rcases hnew shard' watermark hw with hw | ⟨rfl, rfl⟩
      · exact hold.before (by simp [hphase]) shard' watermark hw e he hlt
      · rw [hlength, Nat.min_eq_left (Nat.le_of_not_le hdone)] at he
        exact absurd (hsafe e he) (by omega)

theorem checkpointStep (hsafe : ∀ c ∈ s.checkpoint, s.EndsAtCounter c) (hst : s.checkpointStep params = some t) :
    t.ReplayOrdered params := by
  obtain ⟨c, hc, hst⟩ := bind_eq_some_iff.1 hst
  have hold := h.checkpoint hm c hc
  cases hphase : c.phase <;> simp only [hphase] at hst
  case watermark shard => exact h.checkpointWatermark hm hc hphase (hsafe c hc) hst
  case capture => exact h.checkpointSnapshot hm hc hphase hst
  all_goals cases hst
  case superblock => exact h.checkpointSuperblock hm hc hphase
  case barrier =>
    have hempty := hold.starting _ hphase
    unfold checkpointBarrier
    split_ifs
    · exact h.setCheckpoint hm {} rfl (hold.next rfl (fun _ hp ↦ by simp at hp) (fun _ _ ↦ hempty)
          (fun hr ↦ by simp at hr) (by simp [hphase])
          fun hr ↦ by simp at hr)
    · refine h.setCheckpoint hm {} rfl (hold.next rfl (fun shard' hp ↦ ?_) (fun _ hp ↦ by simp at hp)
          (fun hr ↦ by simp at hr) (by simp [hphase])
          fun hr ↦ by simp at hr)
      obtain rfl : 0 = shard' := by simpa using hp
      simp [hempty]
  case flushIndex =>
    unfold checkpointFlushIndex
    split_ifs <;>
    exact h.setCheckpoint hm {} rfl (hold.later rfl (by simp [hphase]) (by simp)
        (by simp [hphase]) fun _ ↦ hold.root (by simp [hphase]))
  case drain | work | inodes =>
    exact h.setCheckpoint hm {} rfl (hold.later rfl (by simp [hphase]) (by simp)
        (by simp [hphase]) fun hr ↦ by simp at hr)
  case root =>
    exact h.setCheckpoint hm {} rfl (hold.later rfl (by simp [hphase]) (by simp)
        (by simp [hphase]) fun _ ↦ rfl)
  case metaBarrier | index | publish =>
    exact h.setCheckpoint hm {} rfl (hold.later rfl (by simp [hphase]) (by simp)
        (by simp [hphase]) fun _ ↦ hold.root (by simp [hphase]))

theorem beginCheckpoint (hst : s.beginCheckpoint = some t) : t.ReplayOrdered params := by
  obtain ⟨_, c, rfl, hphase, hempty, _⟩ := beginCheckpoint_spec hst
  refine h.setCheckpoint hm {} rfl ?_
  constructor <;> simp [hphase, hempty]

theorem beginCapture (hst : s.beginCapture ino = some t) : t.ReplayOrdered params := by
  obtain ⟨c, w, hc, hphase, _, _, _, hcase⟩ := beginCapture_spec hst
  have hold := h.checkpoint hm c hc
  have hordered : ∀ capturing, s.CheckpointOrdered params { c.without ino with capturing := capturing } :=
    fun _ ↦ hold.later rfl (by simp [hphase]) (by simp [Checkpoint.without, hphase])
      (by simp [Checkpoint.without]) hold.root
  rcases hcase with ⟨_, rfl⟩ | ⟨_, rfl⟩ | ⟨_, _, rfl⟩
  · exact h.setCheckpoint hm {} rfl (hordered c.capturing)
  · exact h.setCheckpoint hm {} rfl (hordered c.capturing)
  · refine h.setCheckpoint hm { inodes := fun i ↦ .inl { ops := fun _ hi ↦ ?_ } } rfl (hordered (some ino))
    rcases of_update hi with ⟨rfl, ⟨⟩⟩ | ⟨-, hi⟩
    · exact .inl rfl
    · exact .inr hi

theorem finishCapture (hst : s.finishCapture params ino = some t) : t.ReplayOrdered params := by
  obtain ⟨c, refs, hc, _, rfl⟩ := finishCapture_spec hst
  have hlocal := Local.capture params ino s (finalizedChunks (s.openFiles ino) refs)
  set u := ((s.captureFile params ino (finalizedChunks (s.openFiles ino) refs)).dropSession ino
    (finalizedChunks (s.openFiles ino) refs)).setOp ino none with hu
  have hnone : u.ops ino = none := by simp [hu, setOp]
  have hghost : u.ghost = (s.captureFile params ino (finalizedChunks (s.openFiles ino) refs)).ghost :=
    dropSession_ghost _ _
  have hordered : u.ReplayOrdered params := by
    rcases captureFile_ghost s (finalizedChunks (s.openFiles ino) refs) with hcapture | hcapture
    · exact h.unstamped hm hlocal ⟨hghost.trans hcapture, fun _ hi ↦ by simp [hnone] at hi⟩
    · exact h.publish hm hlocal (hghost.trans hcapture) (.inl hnone)
  have hold := hordered.checkpoint (hlocal.mounted ▸ hm) c (hlocal.checkpoint ▸ hc)
  exact hordered.setCheckpoint (hlocal.mounted ▸ hm) {} rfl { hold with }

end ReplayOrdered

end

theorem ReplayOrdered.crash (h : s.ReplayOrdered params) : s.crash.ReplayOrdered params :=
  ⟨{ h.log with }, fun hm ↦ by simp [State.crash] at hm, fun hm ↦ by simp [State.crash] at hm⟩

section RecoveredStamps

variable {entries : List DeltaCommit} {c : DeltaCommit} (stamps : Ino → Nat)

theorem recoveredStamps_of_ne (h : ∀ c ∈ entries, c.ino ≠ ino) :
    recoveredStamps entries stamps ino = stamps ino :=
  RecoveredTree.foldl_of_ne (P := fun b : Ino → Nat ↦ b ino = stamps ino) h
    (fun _ d hd hb ↦ by rw [update_of_ne (Ne.symm hd), hb]) rfl

theorem recoveredStamps_of_isLast (h : RecoveredTree.IsLast entries ino c) :
    recoveredStamps entries stamps ino = c.stamp :=
  h.foldl (P := fun b : Ino → Nat ↦ b ino = c.stamp) stamps
    (fun _ d hd hb ↦ by rw [update_of_ne (Ne.symm hd), hb]) fun _ ↦ by simp [h.1]

/-- What a read returns is as new as the inode object when no entry hides a later one. -/
theorem recoveredMemStamps_eq (h : entries.Pairwise fun c d ↦ c.ino = d.ino →
      leavesFileState c = true → leavesFileState d = true) :
    recoveredMemStamps entries stamps = recoveredStamps entries stamps := by
  funext ino
  unfold recoveredMemStamps
  rcases RecoveredTree.exists_isLast entries ino with hnone | ⟨d, hlast⟩
  · exact recoveredStamps_of_ne _ fun c hc ↦ hnone c (mem_filter.1 hc).1
  · by_cases hd : leavesFileState d = true
    · rw [recoveredStamps_of_isLast _ (hlast.filter hd), recoveredStamps_of_isLast _ hlast]
    · refine recoveredStamps_of_ne _ fun c hc hino ↦ hd ?_
      obtain ⟨hc, hchunked⟩ := mem_filter.1 hc
      rcases hlast.rel h hc hino with rfl | himp
      · exact hchunked
      · exact himp hchunked

end RecoveredStamps

theorem mem_replayed {c : DeltaCommit} : c ∈ s.disk.replayed params ↔
    s.slot.isSome ∧ ∃ shard < params.logicalShardCount, c ∈ (s.delta shard).commits ∧
      s.slotWatermark shard < c.epoch := by
  unfold Disk.replayed slotWatermark
  cases hslot : s.slot <;>
    simp [disk, hslot, Disk.replaySince, DeltaSegments.mem_replaySince]

theorem LogOrdered.replayed_pairwise (h : s.LogOrdered params) :
    (s.disk.replayed params).Pairwise fun c d ↦ c.ino = d.ino → c.stamp ≤ d.stamp := by
  unfold Disk.replayed
  split
  · exact .nil
  · refine pairwise_flatMap.2 ⟨fun shard _ ↦ ?_, ?_⟩
    · simp only [disk, DeltaSegments.replaySince_eq_filter (h.epochs shard)]
      exact (h.stamps shard).sublist filter_sublist
    · refine nodup_range.imp fun hne c hc d hd heq ↦ ?_
      have hcs := h.shardOf _ c (DeltaSegments.mem_replaySince.1 hc).1
      have hds := h.shardOf _ d (DeltaSegments.mem_replaySince.1 hd).1
      exact absurd (hcs.symm.trans (heq ▸ hds)) hne

/-- A mount recovers the newest of the root's content and of those in the entries. -/
theorem LogOrdered.recoveredStamps (h : s.LogOrdered params) (ino : Ino) :
    s.ghost.slotStamp ino ≤ recoveredStamps (s.disk.replayed params) s.ghost.slotStamp ino ∧
      recoveredStamps (s.disk.replayed params) s.ghost.slotStamp ino ≤ s.ghost.clock ∧
      ∀ c ∈ s.disk.replayed params, c.ino = ino →
        c.stamp ≤ recoveredStamps (s.disk.replayed params) s.ghost.slotStamp ino := by
  rcases RecoveredTree.exists_isLast (s.disk.replayed params) ino with hnone | ⟨c, hlast⟩
  · rw [recoveredStamps_of_ne _ hnone]
    exact ⟨le_rfl, h.slotStamp_le ino, fun c hc hi ↦ absurd hi (hnone c hc)⟩
  · obtain ⟨_, shard, _, hc, hlt⟩ := mem_replayed.1 hlast.mem
    rw [recoveredStamps_of_isLast _ hlast]
    refine ⟨hlast.1 ▸ h.newer shard c hc hlt, h.stamp_le shard c hc, fun d hd hi ↦ ?_⟩
    rcases hlast.rel h.replayed_pairwise hd hi with rfl | hle
    · exact le_rfl
    · exact hle

/-- A mount takes over the logs and the slot, and every content is as new as what it was
recovered from. -/
theorem Opens.replayOrdered (hopens : s.Opens params t slot) (h : s.ReplayOrdered params)
    (hsafe : s.StaysChunked params) : t.ReplayOrdered params := by
  have hlog := h.log
  have hmem := recoveredMemStamps_eq s.ghost.slotStamp hsafe
  obtain rfl := hopens.eq
  refine ⟨{ hlog with }, fun _ ↦ ⟨fun _ ↦ rfl, fun _ hw ↦ ?_, fun i ↦ ?_, fun i ↦ ?_,
    fun shard c hc ↦ ?_, fun i ↦ (hlog.recoveredStamps i).1, fun _ _ _ _ hi ↦ ?_,
    fun _ _ _ hi ↦ ?_, fun _ _ hw ↦ ?_⟩, fun _ _ hc ↦ ?_⟩
  · simp [mountedState, ShardDeltaLog.openOn] at hw
  · simp only [mountedState, hmem, le_refl]
  · simp only [mountedState, hmem]
    exact (hlog.recoveredStamps i).2.1
  · have hc : c ∈ (s.delta shard).commits := hc
    by_cases hlt : s.slotWatermark shard < c.epoch
    · exact (hlog.recoveredStamps c.ino).2.2 c (mem_replayed.2 ⟨by simp [hopens.published], shard,
        hlog.shardOf shard c hc ▸ params.shardOf_lt _, hc, hlt⟩) rfl
    · exact (hlog.older shard c hc (Nat.le_of_not_lt hlt)).trans (hlog.recoveredStamps c.ino).1
  · simp [mountedState] at hi
  · simp [mountedState] at hi
  · simp [mountedState] at hw
  · simp [mountedState] at hc

theorem ReplayOrdered.mountedStep (h : s.ReplayOrdered params) (hm : s.mounted = true)
    (hsafe : ReplaySafe params s a) (hst : s.mountedStep params a = some t) :
    t.ReplayOrdered params := by
  cases a with
  | openPool => simp [mountedStep] at hst
  | crash =>
    cases hst
    exact h.crash
  | createEntry => exact h.createEntry hm hsafe hst
  | unlink | rmdir | link | rename =>
    obtain ⟨_, _, rfl⟩ := namespaceCall_spec hst
    exact h.keepsLogs hm {} (h.checkpoint hm)
  | beginWrite => exact h.works hm (.begins (.beginWrite hst))
  | beginSetSize => exact h.works hm (.begins (.beginSetSize hst))
  | prepareChunk => exact h.works hm (.prepareChunk hst)
  | commitChunk => exact h.works hm (.commitChunk hst)
  | finishWrite => exact h.finishWrite hm hsafe hst
  | beginFsync => exact h.works hm (.beginFsync hst)
  | fsyncBarrier => exact h.works hm (.fsyncBarrier hst)
  | fsyncPublish => exact h.fsyncPublish hm hst
  | finishFsync => exact h.finishFsync hm hst
  | deltaCommit => exact h.deltaCommit hm hst
  | writeShardSuperblock => exact h.writeShardSuperblock hm hst
  | rollOver => exact h.rollOver hm hst
  | truncateDeltaLogs =>
    cases hst
    exact h.truncateDeltaLogs hm
  | closeSegment | flushIndex | closeMetaWriter =>
    cases hst
    exact h.keepsLogs hm {} (h.checkpoint hm)
  | restripe | removeMirror =>
    obtain ⟨_, _, rfl⟩ := map_eq_some_iff.1 hst
    exact h.keepsLogs hm {} (h.checkpoint hm)
  | beginCheckpoint => exact h.beginCheckpoint hm hst
  | checkpointStep => exact h.checkpointStep hm hsafe hst
  | beginCapture => exact h.beginCapture hm hst
  | finishCapture => exact h.finishCapture hm hst

theorem ReplayOrdered.step (hloc : s.Located) (h : s.ReplayOrdered params)
    (hsafe : ReplaySafe params s a) (hst : s.step params a = some t) : t.ReplayOrdered params := by
  by_cases hopen : a = .openPool
  · subst hopen
    obtain ⟨hm, ⟨_, rfl, _⟩ | ⟨_, hopens⟩⟩ := hloc.openPool hst
    · exact ⟨{ h.log with }, fun hm' ↦ by simp [hm] at hm', fun hm' ↦ by simp [hm] at hm'⟩
    · exact hopens.replayOrdered h hsafe
  · obtain ⟨hm, hst⟩ := step_mounted hst hopen
    exact h.mountedStep hm hsafe hst

theorem replayOrdered_create : create.ReplayOrdered params := by
  refine ⟨?_, fun _ ↦ ?_, fun _ c hc ↦ by simp [create] at hc⟩
  · constructor <;> simp [create, slotWatermark, Covered, DeltaSegments.commits]
  · constructor <;> simp [create, slotWatermark, DeltaSegments.commits, DeltaSegments.WriterOk,
      ShardDeltaLog.openOn]

theorem replayOrdered_of_reachable (h : (pool params).ReachableUnder (ReplaySafe params) s) :
    s.ReplayOrdered params :=
  h.invariant (fun _ hs ↦ hs ▸ replayOrdered_create) fun _ _ _ hreach hs hC hst ↦
    hs.step (located_of_reachable hreach) hC hst

/-- Where a mount has the content of an inode from, and when that content was written. A
read finds the same content: a working state hides the inode object only where it was
made from it. -/
inductive RecoveredFrom (t : State) (root : RootObject) (ino : Ino) (inode : InodeObject) :
    Nat → Prop
  | root (hmem : (ino, inode) ∈ root.inoMap) (hstate : t.fileState ino = none) :
    RecoveredFrom t root ino inode (t.ghost.slotStamp ino)
  | entry (c : DeltaCommit) (hmem : c ∈ t.ghost.replayed) (hino : c.ino = ino)
    (hobject : c.object = inode) (hstate : t.fileState ino = RecoveredTree.workingState inode) :
    RecoveredFrom t root ino inode c.stamp

theorem Opens.recoveredFrom {inode : InodeObject} (hopens : s.Opens params t slot)
    (hsafe : s.StaysChunked params) (hinode : t.ns.inodes.lookup ino = some inode) :
    t.RecoveredFrom slot.root ino inode (t.ghost.memStamp ino) := by
  have hmem := congrFun (recoveredMemStamps_eq s.ghost.slotStamp hsafe) ino
  have hstate : (slot.root.inoMap.foldl RecoveredTree.load .empty).fileState ino = none := by
    rw [RecoveredTree.fileState_foldl_load]
    rfl
  obtain rfl := hopens.eq
  simp only [mountedState, Store.mounted, RecoveredTree.ofRoot] at hinode ⊢
  rw [hmem]
  rcases RecoveredTree.exists_isLast (s.disk.replayed params) ino with hnone | ⟨c, hlast⟩
  · rw [RecoveredTree.lookup_foldl_replay_of_ne hnone] at hinode
    rw [recoveredStamps_of_ne _ hnone]
    refine .root ((RecoveredTree.mem_of_lookup_foldl_load hinode).resolve_right ?_) ?_
    · simp [RecoveredTree.empty]
    · exact RecoveredTree.foldl_of_ne (P := fun b : RecoveredTree ↦ b.fileState ino = none) hnone
        (fun _ d hd hb ↦ by rw [RecoveredTree.fileState_replay_ne (Ne.symm hd), hb]) hstate
  · obtain rfl : c.object = inode := by simpa [hlast.lookup_foldl_replay] using hinode
    rw [recoveredStamps_of_isLast _ hlast]
    exact .entry c hlast.mem hlast.1 rfl (hlast.fileState_foldl_replay hsafe hstate)

/-- A mount never goes back behind the published root or an acknowledged fsync. -/
theorem replay_never_reverts (h : (pool params).ReachableUnder (ReplaySafe params) s)
    (hsafe : ReplaySafe params s .openPool) (hst : s.step params .openPool = some t)
    (hm : t.mounted = true) : ∃ slot, s.slot = some slot ∧
      (∀ c ∈ t.ghost.replayed, s.ghost.slotStamp c.ino ≤ c.stamp) ∧
      ∀ ino inode, t.ns.inodes.lookup ino = some inode →
        s.ghost.slotStamp ino ≤ t.ghost.memStamp ino ∧ s.ghost.ackStamp ino ≤ t.ghost.memStamp ino ∧
        t.RecoveredFrom slot.root ino inode (t.ghost.memStamp ino) := by
  have hlog := (replayOrdered_of_reachable h).log
  obtain ⟨hm', ⟨_, rfl, _⟩ | ⟨slot, hopens⟩⟩ := (located_of_reachable h).openPool hst
  · simp [hm'] at hm
  · have hmem := recoveredMemStamps_eq s.ghost.slotStamp hsafe
    refine ⟨slot, hopens.published, fun c hc ↦ ?_, fun ino _ hinode ↦
      ⟨?_, ?_, hopens.recoveredFrom hsafe hinode⟩⟩ <;> obtain rfl := hopens.eq
    · obtain ⟨_, shard, _, hc, hlt⟩ := mem_replayed.1 hc
      exact hlog.newer shard c hc hlt
    · simp only [mountedState, hmem]
      exact (hlog.recoveredStamps ino).1
    · simp only [mountedState, hmem]
      rcases hlog.acked ino with hle | ⟨c, hc, hi, hlt, hle⟩
      · exact hle.trans (hlog.recoveredStamps ino).1
      · exact hle.trans ((hlog.recoveredStamps ino).2.2 c (mem_replayed.2
          ⟨by simp [hopens.published], _, params.shardOf_lt ino, hc, hlt⟩) hi)

/-- Replaces the byte of the file with inode 2. -/
def writeRun (byte : UInt8) : List Action :=
  [.beginWrite 2 0 [byte], .finishWrite 2]

/-- A file with one byte under a published root. -/
def oneFileRun : List Action :=
  .createEntry rootDirIno "a" .file "" :: writeRun 1 ++
    checkpointRun 1 [.beginCapture 1, .beginCapture 2, .finishCapture 2]

theorem replay_never_reverts_oneFileRun :
    ∃ s t, (pool (smallPool 1)).runUnder (ReplaySafe (smallPool 1)) .create
        (oneFileRun ++ writeRun 2 ++ .beginFsync 2 :: fsyncRun (smallPool 1) 2 ++ [.crash]) = some s ∧
      s.step (smallPool 1) .openPool = some t ∧ t.ghost.replayed.map (·.ino) = [2] ∧
      ∃ slot, s.slot = some slot ∧ (∀ c ∈ t.ghost.replayed, s.ghost.slotStamp c.ino ≤ c.stamp) ∧
        ∀ ino inode, t.ns.inodes.lookup ino = some inode →
          s.ghost.slotStamp ino ≤ t.ghost.memStamp ino ∧
          s.ghost.ackStamp ino ≤ t.ghost.memStamp ino ∧
          t.RecoveredFrom slot.root ino inode (t.ghost.memStamp ino) := by
  obtain ⟨s, hs, t, ht, hsafe, hm, hreplayed⟩ : ∃ s, (pool (smallPool 1)).runUnder (ReplaySafe (smallPool 1)) .create
      (oneFileRun ++ writeRun 2 ++ .beginFsync 2 :: fsyncRun (smallPool 1) 2 ++ [.crash]) = some s ∧
      ∃ t ∈ s.step (smallPool 1) .openPool, ReplaySafe (smallPool 1) s .openPool ∧ t.mounted = true ∧
        t.ghost.replayed.map (·.ino) = [2] :=
    Machine.exists_run (by decide +kernel)
  exact ⟨s, t, hs, ht, hreplayed, replay_never_reverts (.of_run rfl hs) hsafe ht hm⟩

/-- A crash between the sync of a delta segment and the write of the shard superblock
leaves an entry above the counter. The next checkpoint's watermark does not cover it,
and the mount after that applies it over the newer content of the root. -/
theorem stray_entry_reverts_file :
    ∃ s t slot, (pool (smallPool 1)).Reachable s ∧ s.step (smallPool 1) .openPool = some t ∧
      t.mounted = true ∧ s.slot = some slot ∧
      (slot.root.inoMap.lookup 2).map (·.content) = some (.inline [3]) ∧
      (t.ns.dirs rootDirIno).map (·.map (·.ino)) = some [2] ∧ t.readFile 2 = some [2] ∧
      t.ghost.memStamp 2 < s.ghost.slotStamp 2 := by
  obtain ⟨s, t, hs, ht, hm, slot, hslot, hreverted⟩ : ∃ s t, (pool (smallPool 1)).Reachable s ∧
      s.step (smallPool 1) .openPool = some t ∧ t.mounted = true ∧ ∃ slot ∈ s.slot,
        (slot.root.inoMap.lookup 2).map (·.content) = some (.inline [3]) ∧
        (t.ns.dirs rootDirIno).map (·.map (·.ino)) = some [2] ∧ t.readFile 2 = some [2] ∧
        t.ghost.memStamp 2 < s.ghost.slotStamp 2 :=
    Machine.exists_step_of_run rfl (oneFileRun ++ writeRun 2 ++
      [.beginFsync 2, .fsyncBarrier 2, .fsyncPublish 2, .deltaCommit 2, .crash, .openPool] ++
      writeRun 3 ++ checkpointRun 1 [.beginCapture 2, .finishCapture 2] ++ [.crash]) (by decide +kernel)
  exact ⟨s, t, slot, hs, ht, hm, hslot, hreverted⟩

end State

end Lchfs.Store
