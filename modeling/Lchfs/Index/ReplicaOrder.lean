import Lchfs.Index.Records

/-!
# The order of a hash's replicas

The index lists the replicas of a hash in the byte order of its keys, where the device id is in
little-endian bytes. That is the order of the ids as long as they fit in one byte.
-/

namespace Lchfs.Index

open Lchfs.Library
open List

variable {Hash : Type} [DecidableEq Hash] {t : Entries Hash} {hash : Hash} {tag : Tag} {loc : Location}

/-- The id under which an entry is kept; the stripes have the largest one. -/
def Tag.id : Tag → Nat
  | .vdev id => id
  | .striped => 65535

/-- `chunk_locations`: a range scan over the keys of a hash. -/
def Entries.chunkLocations (t : Entries Hash) (hash : Hash) : List (Tag × Location) :=
  ((t.toList.filter (·.1.1 = hash)).map fun entry ↦ (entry.1.2, entry.2)).insertionSort
    fun a b ↦ a.1.rank ≤ b.1.rank

/-- `get_chunk_location`: the first entry of that scan. -/
def Entries.getChunkLocation (t : Entries Hash) (hash : Hash) : Option Location :=
  (t.chunkLocations hash).head?.map (·.2)

/-- The entry of a hash with the lowest id. -/
def Entries.IsLowest (t : Entries Hash) (hash : Hash) (tag : Tag) (loc : Location) : Prop :=
  t.lookup (hash, tag) = some loc ∧ ∀ tag' loc', t.lookup (hash, tag') = some loc' → tag.id ≤ tag'.id

theorem Tag.rank_eq (h : ∀ id, tag = .vdev id → id < 256) :
    tag.rank = min (tag.id * 256) 65535 ∧ (tag.id < 256 ∨ tag.id = 65535) := by
  cases tag with
  | vdev id =>
    have hlt : @LT.lt Nat _ id 256 := h id rfl
    simp only [rank, Tag.id, Nat.mod_eq_of_lt hlt, Nat.div_eq_of_lt hlt]
    omega
  | striped => exact ⟨rfl, .inr rfl⟩

/-- The keys of ids that fit in one byte, and of the stripes, sort as the ids do. -/
theorem Tag.id_le_of_rank_le {a b : Tag} (ha : ∀ id, a = .vdev id → id < 256) (hb : ∀ id, b = .vdev id → id < 256)
    (h : a.rank ≤ b.rank) : a.id ≤ b.id := by
  have := rank_eq ha
  have := rank_eq hb
  omega

namespace Entries

theorem mem_chunkLocations : (tag, loc) ∈ t.chunkLocations hash ↔ t.lookup (hash, tag) = some loc := by
  rw [chunkLocations, mem_insertionSort, ← Table.mem_toList]
  simp only [mem_map, mem_filter, decide_eq_true_eq, Prod.mk.injEq]
  constructor
  · rintro ⟨_, ⟨hmem, rfl⟩, rfl, rfl⟩
    exact hmem
  · exact fun hmem ↦ ⟨_, ⟨hmem, rfl⟩, rfl, rfl⟩

omit [DecidableEq Hash] in
/-- The entry that `better` keeps sorts before all others. -/
theorem rank_foldl_better {l : List ((Hash × Tag) × Location)} {best : Option (Location × Tag)}
    (h : l.foldl better best = some (loc, tag)) :
    (∀ x ∈ best, tag.rank ≤ x.2.rank) ∧ ∀ entry ∈ l, tag.rank ≤ entry.1.2.rank := by
  induction l generalizing best with
  | nil => simp_all
  | cons _ l ih =>
    obtain ⟨hbest, hrest⟩ := ih h
    simp only [better] at hbest
    split_ifs at hbest with hany
    · obtain ⟨x, rfl, hle⟩ := (Option.any_eq_true _ _).1 hany
      exact ⟨hbest, forall_mem_cons.2 ⟨(hbest x rfl).trans (of_decide_eq_true hle), hrest⟩⟩
    · refine ⟨fun x hx ↦ ?_, forall_mem_cons.2 ⟨hbest _ rfl, hrest⟩⟩
      rw [hx, Option.any_some, decide_eq_true_eq, Nat.not_le] at hany
      exact (hbest _ rfl).trans hany.le

end Entries

end Lchfs.Index
