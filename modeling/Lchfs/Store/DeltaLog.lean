import Lchfs.Format.Objects

/-!
# The per-shard delta log

An fsync appends the inode object and its chunk list to a delta segment of the
inode's shard, followed by an entry with the next local epoch, and syncs the
segment. Only then does it write the shard superblock with that epoch. After a
crash the epoch counter is read back from the superblock alone, while replay scans
every segment. A log is the list of its segments in ascending order; a segment is
the list of its durable commits.

The field `stamp` of a commit is a ghost: the time at which the committed content
was written. The program never reads it.
-/

namespace Lchfs.Store

open Lchfs.Format
open List

/-- One durable commit: the entry together with the inode object it names. -/
structure DeltaCommit where
  ino : Ino
  object : InodeObject
  epoch : Nat
  stamp : Nat

abbrev DeltaSegments := List (List DeltaCommit)

/-- The in-memory side of a shard's log. `holder` is the inode whose fsync holds the
log's lock. -/
structure ShardDeltaLog where
  localEpoch : Nat
  writer : Bool
  holder : Option Ino

namespace ShardDeltaLog

/-- The epoch counter comes from the shard superblock; the first commit starts a new
segment. -/
def openOn (superblockEpoch : Nat) : ShardDeltaLog where
  localEpoch := superblockEpoch
  writer := false
  holder := none

end ShardDeltaLog

namespace DeltaSegments

/-- Every commit on disk, in the order the segments are scanned. -/
def commits (log : DeltaSegments) : List DeltaCommit := log.flatten

/-- Appends to the current segment, started first if there is none. -/
def append (writer : Bool) (c : DeltaCommit) (log : DeltaSegments) : DeltaSegments :=
  if writer then log.modifyLast (· ++ [c]) else log ++ [[c]]

/-- The entries above the watermark, in epoch order; entries of one epoch keep the
order of their segments. -/
def replaySince (log : DeltaSegments) (watermark : Nat) : List DeltaCommit :=
  (log.commits.filter fun c ↦ watermark < c.epoch).insertionSort fun c d ↦ c.epoch ≤ d.epoch

/-- No replay above the watermark needs the segment. -/
def segmentIsDead (watermark : Nat) (segment : List DeltaCommit) : Bool :=
  segment.all fun c ↦ c.epoch ≤ watermark

/-- Deletes the dead segments below the one commits go to. -/
def truncateThrough (writer : Bool) (watermark : Nat) (log : DeltaSegments) : DeltaSegments :=
  if writer then
    log.dropLast.filter (fun s ↦ !segmentIsDead watermark s) ++ log.getLast?.toList
  else log.filter fun s ↦ !segmentIsDead watermark s

/-- A writer's current segment exists. -/
def WriterOk (writer : Bool) (log : DeltaSegments) : Prop :=
  writer = true → log ≠ []

variable {log : DeltaSegments} {writer : Bool} {c : DeltaCommit} {watermark : Nat}

theorem commits_append (h : WriterOk writer log) (c : DeltaCommit) :
    (log.append writer c).commits = log.commits ++ [c] := by
  unfold append
  split_ifs with hw
  · obtain ⟨_, _, rfl⟩ := (eq_nil_or_concat' log).resolve_left (h hw)
    simp [commits, modifyLast_concat]
  · simp [commits]

theorem mem_commits_append {c' : DeltaCommit} (h : c' ∈ (log.append writer c).commits) :
    c' ∈ log.commits ∨ c' = c := by
  unfold append at h
  split_ifs at h
  · rcases eq_nil_or_concat' log with rfl | ⟨_, _, rfl⟩
    · exact absurd h not_mem_nil
    · simpa [commits, modifyLast_concat, or_assoc] using h
  · simpa [commits] using h

theorem append_ne_nil (h : WriterOk writer log) (c : DeltaCommit) : log.append writer c ≠ [] := by
  intro hnil
  have := commits_append h c
  simp [hnil, commits] at this

theorem commits_rollOver (log : DeltaSegments) : commits (log ++ [[]]) = log.commits := by
  simp [commits]

/-- Truncation deletes commits and changes no order. -/
theorem commits_truncateThrough_sublist :
    ((log.truncateThrough writer watermark).commits).Sublist log.commits := by
  unfold truncateThrough commits
  split_ifs with hw
  · rcases eq_nil_or_concat' log with rfl | ⟨_, _, rfl⟩
    · simp
    · simpa using filter_sublist.flatten
  · exact filter_sublist.flatten

/-- Truncation keeps every commit above the watermark. -/
theorem mem_commits_truncateThrough (hc : c ∈ log.commits) (hlt : watermark < c.epoch) :
    c ∈ (log.truncateThrough writer watermark).commits := by
  have hlive : ∀ segment, c ∈ segment → (!segmentIsDead watermark segment) = true := by
    intro _ hmem
    simp only [segmentIsDead, Bool.not_eq_eq_eq_not, Bool.not_true, all_eq_false]
    exact ⟨c, hmem, by simpa using hlt⟩
  obtain ⟨segment, hsegment, hmem⟩ := mem_flatten.1 hc
  unfold truncateThrough commits
  split_ifs with hw
  · rcases eq_nil_or_concat' log with rfl | ⟨_, _, rfl⟩
    · simp at hsegment
    · rcases mem_append.1 hsegment with hinit | hlast
      · simp only [dropLast_concat, flatten_append, mem_append]
        exact .inl (mem_flatten.2 ⟨segment, mem_filter.2 ⟨hinit, hlive segment hmem⟩, hmem⟩)
      · obtain rfl := mem_singleton.1 hlast
        simp [hmem]
  · exact mem_flatten.2 ⟨segment, mem_filter.2 ⟨hsegment, hlive segment hmem⟩, hmem⟩

/-- A log whose epochs never go back is replayed in its own order. -/
theorem replaySince_eq_filter (h : log.commits.Pairwise fun c d ↦ c.epoch ≤ d.epoch)
    (watermark : Nat) :
    log.replaySince watermark = log.commits.filter fun c ↦ watermark < c.epoch :=
  (h.sublist filter_sublist).insertionSort_eq

theorem mem_replaySince : c ∈ log.replaySince watermark ↔ c ∈ log.commits ∧ watermark < c.epoch := by
  simp [replaySince, mem_insertionSort]

end DeltaSegments

end Lchfs.Store
