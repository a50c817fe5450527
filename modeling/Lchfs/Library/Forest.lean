import Mathlib

/-!
# Parent maps

Every node has a parent. `Leads parent root P d` says that the parents of `d` lead to the
root through nodes that satisfy `P`; a map in which this holds of every node is a tree. One
node may be given a new parent if the way from that parent to the root avoids the node.
-/

namespace Lchfs.Library

open Function

universe u

variable {α : Type u} {parent : α → α} {root d target moved : α} {P Q : α → Prop}

inductive Leads (parent : α → α) (root : α) (P : α → Prop) : α → Prop
  | root : Leads parent root P root
  | step {d : α} : d ≠ root → P d → Leads parent root P (parent d) → Leads parent root P d

theorem Leads.imp (hPQ : ∀ x, P x → Q x) (h : Leads parent root P d) : Leads parent root Q d := by
  induction h with
  | root => exact .root
  | step hne hP _ ih => exact .step hne (hPQ _ hP) ih

/-- A map that agrees on the nodes of the way leads along the same way. -/
theorem Leads.congr {parent' : α → α} (hparent : ∀ x, P x → parent' x = parent x)
    (h : Leads parent root P d) : Leads parent' root P d := by
  induction h with
  | root => exact .root
  | step hne hP _ ih => exact .step hne hP ((hparent _ hP).symm ▸ ih)

/-- A node moves to a place whose way to the root avoids it. -/
theorem Leads.redirect [DecidableEq α] (h : Leads parent root P d)
    (htarget : Leads parent root (fun x ↦ P x ∧ x ≠ moved) target) :
    Leads (update parent moved target) root P d := by
  have htarget' : Leads (update parent moved target) root P target := by
    have hkept : ∀ x, P x ∧ x ≠ moved → update parent moved target x = parent x :=
      fun x hx ↦ update_of_ne hx.2 _ _
    exact (htarget.congr hkept).imp fun _ hx ↦ hx.1
  induction h with
  | root => exact .root
  | @step d hne hP =>
    refine .step hne hP ?_
    by_cases heq : d = moved
    · rwa [heq, update_self]
    · rwa [update_of_ne heq]

/-- The length of the way. -/
theorem Leads.exists_iterate (h : Leads parent root P d) :
    ∃ n, parent^[n] d = root ∧ ∀ k < n, parent^[k] d ≠ root ∧ P (parent^[k] d) := by
  induction h with
  | root => exact ⟨0, rfl, fun k hk ↦ absurd hk (Nat.not_lt_zero k)⟩
  | @step d hne hP _ ih =>
    obtain ⟨n, hroot, hway⟩ := ih
    refine ⟨n + 1, hroot, fun k hk ↦ ?_⟩
    cases k with
    | zero => exact ⟨hne, hP⟩
    | succ k => exact hway k (Nat.lt_of_succ_lt_succ hk)

/-- No node is met twice on the way to the root, so the way is no longer than the nodes are
many. -/
theorem length_le_card {s : Finset α} {n : ℕ} (hroot : parent^[n] d = root)
    (hway : ∀ k < n, parent^[k] d ≠ root ∧ parent^[k] d ∈ s) : n ≤ s.card := by
  classical
  have hinj : Set.InjOn (fun k ↦ parent^[k] d) (Finset.range n) := by
    intro i hi j hj heq
    simp only [Finset.coe_range, Set.mem_Iio] at hi hj
    -- meeting a node again would lead to the root earlier
    have hearlier : ∀ i j, i < j → j < n → parent^[i] d ≠ parent^[j] d := by
      intro i j hij hj heq
      have hsum : n - j + i < n := by omega
      apply (hway (n - j + i) hsum).1
      rw [iterate_add_apply, heq, ← iterate_add_apply, Nat.sub_add_cancel hj.le]
      exact hroot
    rcases Nat.lt_trichotomy i j with hlt | rfl | hlt
    · exact absurd heq (hearlier i j hlt hj)
    · rfl
    · exact absurd heq.symm (hearlier j i hlt hi)
  have hcard := Finset.card_le_card_of_injOn (s := Finset.range n) (t := s) _
    (fun k hk ↦ (hway k (Finset.mem_range.1 hk)).2) hinj
  rwa [Finset.card_range] at hcard

end Lchfs.Library
