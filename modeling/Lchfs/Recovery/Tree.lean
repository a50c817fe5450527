import Lchfs.Library.Fold
import Lchfs.Store.Evolution
import Lchfs.Store.Pool

/-!
# The recovered tree

A mount that succeeds returns the tree of the selected root with the log's entries
applied in replay order, whichever path found the records. `RecoveredTree.load` and
`RecoveredTree.replay` say what one InoMap entry and one delta entry contribute, with
no reference to locations; `recover_tree` connects them to the mount's own loops.
-/

namespace Lchfs.Store

open Lchfs.Format Lchfs.Library
open List Option Function State

namespace RecoveredTree

variable {t : RecoveredTree} {ino : Ino} {c : DeltaCommit} {entries : List DeltaCommit} {β : Type}

/-- One inode of the root. -/
def load (t : RecoveredTree) (entry : Ino × InodeObject) : RecoveredTree :=
  match entry.2.kind, entry.2.content with
  | .directory, .dirEntries dir =>
    { t with
      inodes := t.inodes.insert entry.1 entry.2
      dirs := update t.dirs entry.1 (some (dir.getD []))
      parents := (dir.getD []).foldl
        (fun parents child ↦ update parents child.ino (some entry.1)) t.parents }
  | _, _ => { t with inodes := t.inodes.insert entry.1 entry.2 }

/-- The bytes a chunk list names. -/
def contents (size : Nat) (chunks : List ChunkRef) : Bytes :=
  chunks.foldl (fun buf c ↦ copyInto buf c.logicalOffset c.contentHash) (List.replicate size 0)

/-- One delta entry. -/
def replay (t : RecoveredTree) (c : DeltaCommit) : RecoveredTree where
  inodes := t.inodes.insert c.ino c.object
  dirs := t.dirs
  parents := t.parents
  fileState :=
    match c.object.kind, c.object.content with
    | .file, .chunkList chunks =>
      update t.fileState c.ino (some ⟨contents c.object.size chunks, chunks⟩)
    | _, _ => t.fileState
  replayed := t.replayed.insert c.ino

/-- The tree of a root under a list of delta entries. -/
def ofRoot (root : RootObject) (entries : List DeltaCommit) : RecoveredTree :=
  entries.foldl replay (root.inoMap.foldl load empty)

variable {entry : Ino × InodeObject}

theorem lookup_load : (t.load entry).inodes.lookup ino =
      if ino = entry.1 then some entry.2 else t.inodes.lookup ino := by
  unfold load
  split <;> exact Table.lookup_insert_eq _ _ _ _

theorem lookup_replay :
    (t.replay c).inodes.lookup ino = if ino = c.ino then some c.object else t.inodes.lookup ino :=
  Table.lookup_insert_eq _ _ _ _

theorem fileState_load (t : RecoveredTree) (entry : Ino × InodeObject) :
    (t.load entry).fileState = t.fileState := by
  unfold load
  split <;> rfl

theorem fileState_replay_ne (h : ino ≠ c.ino) : (t.replay c).fileState ino = t.fileState ino := by
  cases hkind : c.object.kind <;> cases hcontent : c.object.content <;>
    simp [replay, hkind, hcontent, h]

/-- The last entry of an inode in a replay. -/
def IsLast (entries : List DeltaCommit) (ino : Ino) (c : DeltaCommit) : Prop :=
  c.ino = ino ∧ ∃ before after, entries = before ++ c :: after ∧ ∀ d ∈ after, d.ino ≠ ino

theorem IsLast.mem (h : IsLast entries ino c) : c ∈ entries := by
  obtain ⟨_, _, _, rfl, _⟩ := h
  simp

theorem exists_isLast (entries : List DeltaCommit) (ino : Ino) :
    (∀ c ∈ entries, c.ino ≠ ino) ∨ ∃ c, IsLast entries ino c := by
  induction entries with
  | nil => simp
  | cons e entries ih =>
    rcases ih with hnone | ⟨c, hc, before, after, rfl, hafter⟩
    · by_cases heq : e.ino = ino
      · exact .inr ⟨e, heq, [], entries, rfl, hnone⟩
      · exact .inl fun c hc ↦ (mem_cons.1 hc).elim (fun h ↦ h ▸ heq) (hnone c)
    · exact .inr ⟨c, hc, e :: before, after, rfl, hafter⟩

/-- What relates every entry of an inode to its later ones relates them to the last. -/
theorem IsLast.rel {R : DeltaCommit → DeltaCommit → Prop} {d : DeltaCommit} (h : IsLast entries ino c)
    (hpairwise : entries.Pairwise fun c d ↦ c.ino = d.ino → R c d) (hd : d ∈ entries)
    (hino : d.ino = ino) : d = c ∨ R d c := by
  obtain ⟨rfl, _, _, rfl, hafter⟩ := h
  obtain ⟨_, _, hbefore⟩ := pairwise_append.1 hpairwise
  rcases mem_append.1 hd with hd | hd
  · exact .inr (hbefore d hd c mem_cons_self hino)
  · exact .inl ((mem_cons.1 hd).resolve_right fun hd ↦ hafter d hd hino)

theorem IsLast.filter {p : DeltaCommit → Bool} (h : IsLast entries ino c) (hc : p c = true) :
    IsLast (entries.filter p) ino c := by
  obtain ⟨hino, before, after, rfl, hafter⟩ := h
  refine ⟨hino, before.filter p, after.filter p, by simp [hc], fun d hd ↦ ?_⟩
  exact hafter d (mem_filter.1 hd).1

/-- Entries of other inodes do not change what a replay makes of an inode. -/
theorem foldl_of_ne {f : β → DeltaCommit → β} {P : β → Prop} {b : β}
    (h : ∀ c ∈ entries, c.ino ≠ ino) (hother : ∀ b d, d.ino ≠ ino → P b → P (f b d)) (hb : P b) :
    P (entries.foldl f b) := by
  induction entries generalizing b with
  | nil => exact hb
  | cons d _ ih =>
    obtain ⟨hd, h⟩ := forall_mem_cons.1 h
    exact ih h (hother _ _ hd hb)

/-- What a replay makes of an inode is decided by the inode's last entry. -/
theorem IsLast.foldl {f : β → DeltaCommit → β} {P : β → Prop} (h : IsLast entries ino c) (b : β)
    (hother : ∀ b d, d.ino ≠ ino → P b → P (f b d)) (hlast : ∀ b, P (f b c)) :
    P (entries.foldl f b) := by
  obtain ⟨_, _, _, rfl, hafter⟩ := h
  rw [foldl_append, foldl_cons]
  exact foldl_of_ne hafter hother (hlast _)

section Replayed

variable {t : RecoveredTree} {entries : List DeltaCommit} {c : DeltaCommit} {ino : Ino}

theorem mem_of_lookup_foldl_load {inoMap : InoMap} {inode : InodeObject}
    (h : (inoMap.foldl load t).inodes.lookup ino = some inode) :
    (ino, inode) ∈ inoMap ∨ t.inodes.lookup ino = some inode := by
  induction inoMap generalizing t with
  | nil => exact .inr h
  | cons _ _ ih =>
    rcases ih h with hmem | h
    · exact .inl (mem_cons_of_mem _ hmem)
    · rw [lookup_load] at h
      split_ifs at h with heq
      · cases h
        exact .inl (heq ▸ mem_cons_self)
      · exact .inr h

theorem fileState_foldl_load (inoMap : InoMap) (t : RecoveredTree) :
    (inoMap.foldl load t).fileState = t.fileState := by
  induction inoMap generalizing t with
  | nil => rfl
  | cons _ _ ih => rw [foldl_cons, ih, fileState_load]

theorem lookup_foldl_replay_of_ne (h : ∀ c ∈ entries, c.ino ≠ ino) :
    (entries.foldl replay t).inodes.lookup ino = t.inodes.lookup ino :=
  foldl_of_ne (P := fun b : RecoveredTree ↦ b.inodes.lookup ino = t.inodes.lookup ino) h
    (fun _ d hd hb ↦ by rw [lookup_replay, if_neg (Ne.symm hd), hb]) rfl

theorem IsLast.lookup_foldl_replay (h : IsLast entries ino c) :
    (entries.foldl replay t).inodes.lookup ino = some c.object :=
  h.foldl (P := fun b : RecoveredTree ↦ b.inodes.lookup ino = some c.object) t
    (fun _ d hd hb ↦ by rw [lookup_replay, if_neg (Ne.symm hd), hb])
    fun _ ↦ by rw [lookup_replay, if_pos h.1.symm]

/-- The working state that an entry with the object leaves behind. -/
def workingState (object : InodeObject) : Option FileWorkingState :=
  match object.kind, object.content with
  | .file, .chunkList chunks => some ⟨contents object.size chunks, chunks⟩
  | _, _ => none

theorem fileState_replay (t : RecoveredTree) (c : DeltaCommit) :
    (t.replay c).fileState c.ino = (workingState c.object).or (t.fileState c.ino) := by
  cases hkind : c.object.kind <;> cases hcontent : c.object.content <;>
    simp [replay, workingState, hkind, hcontent]

theorem isSome_workingState (c : DeltaCommit) :
    (workingState c.object).isSome = leavesFileState c := by
  cases hkind : c.object.kind <;> cases hcontent : c.object.content <;>
    simp [workingState, leavesFileState, hkind, hcontent]

/-- If no entry hides a later one, the working state is that of the last entry. -/
theorem IsLast.fileState_foldl_replay (h : IsLast entries ino c)
    (hchunked : entries.Pairwise fun c d ↦ c.ino = d.ino →
      leavesFileState c = true → leavesFileState d = true)
    (hnone : t.fileState ino = none) :
    (entries.foldl replay t).fileState ino = workingState c.object := by
  by_cases hc : leavesFileState c = true
  · obtain ⟨_, hstate⟩ := isSome_iff_exists.1 ((isSome_workingState c).trans hc)
    refine h.foldl (P := fun b : RecoveredTree ↦ b.fileState ino = workingState c.object) t
      (fun _ d hd hb ↦ by rw [fileState_replay_ne (Ne.symm hd), hb]) fun b ↦ ?_
    rw [← h.1, fileState_replay, hstate, some_or]
  · have hcnone : workingState c.object = none := by
      rw [← not_isSome_iff_eq_none, isSome_workingState]
      exact hc
    have hall : ∀ d ∈ entries, d.ino = ino → workingState d.object = none := by
      intro d hd hi
      rcases h.rel hchunked hd hi with rfl | himp
      · exact hcnone
      · rw [← not_isSome_iff_eq_none, isSome_workingState]
        exact fun hd ↦ hc (himp hd)
    rw [hcnone]
    clear h hchunked
    induction entries generalizing t with
    | nil => exact hnone
    | cons d _ ih =>
      obtain ⟨hd, hall⟩ := forall_mem_cons.1 hall
      refine ih ?_ hall
      by_cases heq : d.ino = ino
      · rw [← heq, fileState_replay, hd heq, heq, hnone, none_or]
      · rw [fileState_replay_ne (Ne.symm heq), hnone]

end Replayed

end RecoveredTree

/-- Every location the index holds belongs to its hash. -/
def RedbIndex.Sound (store : RecordStore) (index : RedbIndex) : Prop :=
  ∀ hash loc, index.mirrored hash = some loc ∨ index.striped hash = some loc → store.Names hash loc

/-- Every location of a map belongs to its hash. -/
def SoundLocations (store : RecordStore) (locations : Hash32 → Option ExtentLocation) : Prop :=
  ∀ hash loc, locations hash = some loc → store.Names hash loc

section Reads

variable {store : RecordStore} {disk : Disk} {index : RedbIndex} {hash r : Hash32}
  {loc : ExtentLocation} {t t' : Recovery}
variable {fastPath : Bool} {root : RootObject} {shards : List ShardId} {slot : SuperblockSlot}
  {locations : Hash32 → Option ExtentLocation}

/-- The devices of a disk are those of a record store. -/
structure Disk.On (disk : Disk) (store : RecordStore) : Prop where
  segments : disk.segments = store.segments
  stripes : disk.stripes = store.stripes

theorem require_ok {α : Type} {e : PoolError} {o : Option α} {a : α} :
    require e o = .ok a ↔ o = some a := by
  cases o <;> simp [require]

/-- A mount reads what it asks for. -/
theorem mountRead_eq (hdisk : disk.On store) (hindex : index.Sound store)
    (hloc : store.Names hash loc) (h : mountRead disk index hash loc = .ok r) : r = hash := by
  rw [mountRead, require_ok, hdisk.segments, hdisk.stripes] at h
  simp only [or_eq_some_iff, bind_eq_some_iff] at h
  rcases h with h | ⟨_, ⟨loc', hloc', h⟩ | ⟨_, loc', hloc', h⟩⟩
  · exact hloc.record r (.inl h)
  · exact (hindex hash loc' (.inr hloc')).record r (.inr h)
  · exact (hindex hash loc' (.inl hloc')).record r (.inl h)

section

variable (hdisk : disk.On store) (hindex : index.Sound store) (ht : SoundLocations store t.locations)

include hdisk hindex ht

/-- An inode loads as it was put, and a directory that was never encoded does not. -/
theorem loadInode_ok (h : loadInode disk index t entry = .ok t') :
    SoundLocations store t'.locations ∧ t'.toRecoveredTree = t.toRecoveredTree.load entry ∧
      (entry.2.kind = .directory → entry.2.content ≠ .dirEntries none) := by
  simp only [loadInode, except_bind_eq_ok, require_ok] at h
  obtain ⟨_, hloc, inode, ⟨r, hr, hinode⟩, h⟩ := h
  obtain rfl := mountRead_eq hdisk hindex (ht _ _ hloc) hr
  obtain rfl : entry.2 = inode := by simpa [decodeInode] using hinode
  split at h
  · next hash hkind hcontent =>
    simp only [except_bind_eq_ok, require_ok] at h
    obtain ⟨_, hdirLoc, dir, ⟨r, hr, hdir⟩, h⟩ := h
    obtain rfl := mountRead_eq hdisk hindex (ht _ _ hdirLoc) hr
    cases hash with
    | none => simp [directoryHash, decodeDirectory] at hdir
    | some entries =>
      obtain rfl : entries = dir := by simpa [directoryHash, decodeDirectory] using hdir
      cases h
      exact ⟨ht, by simp [RecoveredTree.load, hkind, hcontent], fun _ ↦ by simp [hcontent]⟩
  · next hne =>
    cases h
    refine ⟨ht, ?_, fun hkind hcontent ↦ hne _ hkind hcontent⟩
    unfold RecoveredTree.load
    split
    · next dir hkind hcontent => exact absurd hcontent (hne dir hkind)
    · rfl

theorem replayChunk_ok {ino : Ino} {buf buf' : Bytes} {c : ChunkRef}
    (h : replayChunk disk index t ino buf c = .ok buf') :
    buf' = copyInto buf c.logicalOffset c.contentHash := by
  simp only [replayChunk, except_bind_eq_ok, require_ok] at h
  obtain ⟨_, hloc, bytes, ⟨r, hr, hbytes⟩, h⟩ := h
  obtain rfl := mountRead_eq hdisk hindex (ht _ _ hloc) hr
  obtain rfl : c.contentHash = bytes := by simpa [decodeChunk] using hbytes
  exact (Except.ok.inj h).symm

theorem replayEntry_ok {c : DeltaCommit} (h : replayEntry disk index t c = .ok t') :
    SoundLocations store t'.locations ∧ t'.toRecoveredTree = t.toRecoveredTree.replay c := by
  simp only [replayEntry, except_bind_eq_ok] at h
  obtain ⟨_, hstate, h⟩ := h
  cases h
  refine ⟨ht, ?_⟩
  unfold replayFileState at hstate
  split at hstate
  · next chunks hkind hcontent =>
    rw [except_bind_eq_ok] at hstate
    obtain ⟨contents, hcontents, hstate⟩ := hstate
    cases hstate
    have hfold : contents = RecoveredTree.contents c.object.size chunks :=
      (foldlM_eq_ok (I := fun _ ↦ True) (v := id)
        (g := fun (buf : Bytes) (c : ChunkRef) ↦ copyInto buf c.logicalOffset c.contentHash)
        (fun _ _ _ _ hc ↦ ⟨trivial, replayChunk_ok hdisk hindex ht hc⟩) trivial hcontents).2
    simp [RecoveredTree.replay, hkind, hcontent, hfold]
  · next hne =>
    cases hstate
    unfold RecoveredTree.replay
    split
    · next chunks hkind hcontent => exact absurd hcontent (hne chunks hkind)
    · rfl

end

/-- What a scan finds belongs to its hash when nobody writes. -/
theorem RecordStore.WellFormed.names_of_recordAt (h : store.WellFormed)
    (hidle : ∀ id, ¬store.WritesTo id) (hrec : store.HasRecord loc hash) : store.Names hash loc := by
  refine ⟨?_, fun r hr ↦ ?_, fun hp ↦ hidle _ hp.1⟩
  · rcases hrec with hrec | hrec
    · left
      simp only [SegmentStore.recordAt, bind_eq_some_iff] at hrec
      obtain ⟨s, hs, _⟩ := hrec
      simp [hs]
    · right
      simp only [StripeStore.recordAt, bind_eq_some_iff] at hrec
      obtain ⟨s, hs, _⟩ := hrec
      simp [hs]
  · rcases hrec with hrec | hrec <;> rcases hr with hr | hr
    · simpa [hrec, eq_comm] using hr
    · exact (h.agree loc hash r hrec hr).symm
    · exact h.agree loc r hash hr hrec
    · simpa [hrec, eq_comm] using hr

section

variable (hdisk : disk.On store) (hwf : store.WellFormed) (hidle : ∀ id, ¬store.WritesTo id)
  {shard : ShardId}

include hdisk hwf hidle

theorem ownerShardRescan_ok (ht : SoundLocations store t.locations)
    (h : ownerShardRescan disk shard t = .ok t') :
    SoundLocations store t'.locations ∧ t'.toRecoveredTree = t.toRecoveredTree := by
  unfold ownerShardRescan at h
  split_ifs at h
  cases h
  refine ⟨fun hash loc hloc ↦ ?_, rfl⟩
  rcases or_eq_some_iff.1 hloc with hloc | ⟨_, hloc⟩
  · rw [hdisk.segments] at hloc
    exact hwf.names_of_recordAt hidle (.inl (SegmentStore.recordAt_of_scanShard hloc))
  · exact ht hash loc hloc

theorem replayShard_ok (hindex : index.Sound store) (ht : SoundLocations store t.locations)
    (h : replayShard disk index fastPath root t shard = .ok t') :
    SoundLocations store t'.locations ∧ t'.toRecoveredTree =
      ((disk.delta shard).replaySince (root.watermark shard)).foldl RecoveredTree.replay t.toRecoveredTree := by
  simp only [replayShard] at h
  by_cases hempty : ((disk.delta shard).replaySince (root.watermark shard)).isEmpty
  · obtain rfl : t = t' := by simpa [hempty] using h
    exact ⟨ht, by simp [isEmpty_iff.1 hempty]⟩
  · rw [if_neg hempty, except_bind_eq_ok] at h
    obtain ⟨u, hu, h⟩ := h
    have hscan : SoundLocations store u.locations ∧ u.toRecoveredTree = t.toRecoveredTree := by
      split_ifs at hu
      · exact ownerShardRescan_ok hdisk hwf hidle ht hu
      · cases hu
        exact ⟨ht, rfl⟩
    rw [← hscan.2]
    exact foldlM_eq_ok (fun _ _ _ hs hr ↦ replayEntry_ok hdisk hindex hs hr) hscan.1 h

/-- A mount that succeeds recovers the tree of the slot's root, with every directory encoded, under
the log's entries. -/
theorem recover_tree (hindex : index.Sound store)
    (hslot : store.Names (.root slot.root) slot.rootLocation)
    (hlocations : SoundLocations store locations)
    (h : recover disk index shards slot fastPath locations = .ok (root, t)) :
    root = slot.root ∧ t.toRecoveredTree = .ofRoot root (disk.replaySince shards root) ∧
      ∀ entry ∈ slot.root.inoMap, entry.2.kind = .directory → entry.2.content ≠ .dirEntries none := by
  simp only [recover, except_bind_eq_ok, require_ok] at h
  obtain ⟨_, ⟨r, hr, hroot⟩, _, hloc, inoMap, ⟨_, hr', hmap⟩, _, hloaded, _, ht', h⟩ := h
  obtain rfl := mountRead_eq hdisk hindex hslot hr
  obtain rfl : slot.root = _ := by simpa [decodeRoot] using hroot
  obtain rfl := mountRead_eq hdisk hindex (hlocations _ _ hloc) hr'
  obtain rfl : slot.root.inoMap = inoMap := by simpa [decodeInoMap] using hmap
  obtain ⟨rfl, rfl⟩ : _ ∧ _ := by simpa using h
  obtain ⟨hsound, hload⟩ := foldlM_eq_ok
    (fun _ _ _ hs hl ↦ (loadInode_ok hdisk hindex hs hl).imp_right And.left) hlocations hloaded
  obtain ⟨_, hreplay⟩ := foldlM_eq_ok (v := Recovery.toRecoveredTree)
    (I := fun t ↦ SoundLocations store t.locations)
    (g := fun tree shard ↦ ((disk.delta shard).replaySince
      (slot.root.watermark shard)).foldl RecoveredTree.replay tree)
    (fun _ _ _ hs hl ↦ replayShard_ok hdisk hwf hidle hindex hs hl) hsound ht'
  refine ⟨rfl, ?_, forall_of_foldlM_ok
    (fun _ _ _ hs hl ↦ (loadInode_ok hdisk hindex hs hl).imp_right And.right) hlocations hloaded⟩
  rw [hreplay, hload, RecoveredTree.ofRoot, Disk.replaySince, foldl_flatMap]

end

end Reads

end Lchfs.Store
