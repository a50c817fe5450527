import Mathlib

/-!
# Reference counts and their holders

A reference count is balanced if it counts the occurrences in a list of holders. Moving a
reference from one holder to another permutes the list; taking one adds to both sides and
giving one back removes from both. A count of fixed width is balanced as long as no count
is at its maximum when a reference is taken.
-/

namespace Lchfs.Library

universe u

variable {κ : Type u} [DecidableEq κ]

/-- The count is the number of occurrences in the list of holders. -/
def Counts (count : κ → Nat) (held : List κ) : Prop :=
  ∀ k, count k = held.count k

/-- Takes a reference, in a counter of this many bits. -/
def increment (bits : Nat) (k : κ) (count : κ → Nat) : κ → Nat :=
  fun k' ↦ if k' = k then (count k + 1) % 2 ^ bits else count k'

/-- Gives a reference back; nothing happens if there is none. -/
def decrement (k : κ) (count : κ → Nat) : κ → Nat :=
  fun k' ↦ if k' = k then count k - 1 else count k'

namespace Counts

variable {count : κ → Nat} {held held' : List κ} {k : κ}

theorem perm (h : Counts count held) (hperm : held'.Perm held) : Counts count held' :=
  fun k ↦ (h k).trans (hperm.count_eq k).symm

theorem increment {bits : Nat} (h : Counts count held) (hfits : count k + 1 < 2 ^ bits)
    (hperm : held'.Perm (k :: held)) : Counts (increment bits k count) held' := by
  intro k'
  rw [hperm.count_eq, Library.increment]
  split_ifs with heq
  · rw [heq, List.count_cons_self, Nat.mod_eq_of_lt hfits, h k]
  · rw [List.count_cons_of_ne (Ne.symm heq), h k']

theorem decrement (h : Counts count held) (hperm : held.Perm (k :: held')) : Counts (decrement k count) held' := by
  intro k'
  have hcount := (h k').trans (hperm.count_eq k')
  rw [Library.decrement]
  split_ifs with heq
  · subst heq
    rw [hcount, List.count_cons_self, Nat.add_sub_cancel]
  · rw [hcount, List.count_cons_of_ne (Ne.symm heq)]

theorem pos_of_mem (h : Counts count held) (hmem : k ∈ held) : 0 < count k := by
  rw [h k]
  exact List.count_pos_iff.2 hmem

end Counts

end Lchfs.Library
