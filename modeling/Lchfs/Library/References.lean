import Mathlib

/-!
# Counting references

Entries stand at places, and each entry refers to one object. The file counts the
places that refer to an object and says how the count changes when an entry is put at a
free place or taken away.
-/

namespace Lchfs.Library

universe u v w

variable {κ : Type u} {ε : Type v} {ι : Type w}

/-- The places whose entry refers to the object. -/
def referrers (f : κ → Option ε) (ref : ε → ι) (i : ι) : Set κ :=
  {k | ∃ e, f k = some e ∧ ref e = i}

/-- How many places refer to the object. -/
noncomputable def references (f : κ → Option ε) (ref : ε → ι) (i : ι) : ℕ :=
  (referrers f ref i).ncard

variable {f g : κ → Option ε} {ref : ε → ι} {i : ι} {k : κ} {e : ε}

theorem referrers_subset : referrers f ref i ⊆ {k | (f k).isSome} := by
  rintro k ⟨e, he, _⟩
  simp [he]

theorem referrers_finite (hfinite : {k | (f k).isSome}.Finite) : (referrers f ref i).Finite :=
  hfinite.subset referrers_subset

theorem references_pos (ref : ε → ι) (hfinite : {k | (f k).isSome}.Finite) (hk : f k = some e) :
    0 < references f ref (ref e) :=
  (Set.ncard_pos (referrers_finite hfinite)).2 ⟨k, e, hk, rfl⟩

theorem references_eq_zero (hfinite : {k | (f k).isSome}.Finite)
    (hnone : ∀ k e, f k = some e → ref e ≠ i) : references f ref i = 0 := by
  rw [references, Set.ncard_eq_zero (referrers_finite hfinite), Set.eq_empty_iff_forall_notMem]
  rintro k ⟨e, he, hi⟩
  exact hnone k e he hi

/-- Fewer entries make fewer references. -/
theorem references_mono (ref : ε → ι) (i : ι) (hfinite : {k | (g k).isSome}.Finite)
    (hle : ∀ k e, f k = some e → g k = some e) : references f ref i ≤ references g ref i := by
  apply Set.ncard_le_ncard _ (referrers_finite hfinite)
  rintro k ⟨e, he, hi⟩
  exact ⟨e, hle k e he, hi⟩

variable [DecidableEq κ] [DecidableEq ι]

/-- An entry that goes away takes its reference with it. -/
theorem references_update_none (ref : ε → ι) (i : ι) (hfinite : {k | (f k).isSome}.Finite)
    (hk : f k = some e) :
    references (Function.update f k none) ref i + (if ref e = i then 1 else 0) =
      references f ref i := by
  have hset : referrers (Function.update f k none) ref i = referrers f ref i \ {k} := by
    ext k'
    by_cases heq : k' = k <;> simp [referrers, heq]
  rw [references, references, hset]
  split_ifs with hi
  · exact Set.ncard_sdiff_singleton_add_one ⟨e, hk, hi⟩ (referrers_finite hfinite)
  · rw [Set.sdiff_singleton_eq_self, Nat.add_zero]
    rintro ⟨_, he', hi'⟩
    cases hk.symm.trans he'
    exact hi hi'

/-- An entry at a place that was free adds one reference. -/
theorem references_update_some (hfinite : {k | (f k).isSome}.Finite) (hk : f k = none) (e : ε) :
    references (Function.update f k (some e)) ref i =
      references f ref i + if ref e = i then 1 else 0 := by
  have hfree : k ∉ referrers f ref i := by
    rintro ⟨_, he', _⟩
    simp [hk] at he'
  split_ifs with hi
  · have hset : referrers (Function.update f k (some e)) ref i = insert k (referrers f ref i) := by
      ext k'
      by_cases heq : k' = k <;> simp [referrers, heq, hi]
    rw [references, references, hset, Set.ncard_insert_of_notMem hfree (referrers_finite hfinite)]
  · have hset : referrers (Function.update f k (some e)) ref i = referrers f ref i := by
      ext k'
      by_cases heq : k' = k
      · simp [referrers, heq, hi, hk]
      · simp [referrers, heq]
    rw [references, references, hset, Nat.add_zero]

end Lchfs.Library
