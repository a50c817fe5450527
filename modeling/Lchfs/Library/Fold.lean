import Mathlib

/-!
# Loops

What a loop computes, from what one round computes: loops in the error monad, and loops
that write entries, of which the last hit decides what is read.
-/

namespace Lchfs.Library

open List

universe u

variable {ε σ τ α β : Type u} {f : σ → α → Except ε σ} {I : σ → Prop} {l : List α} {s s' : σ}

theorem except_bind_eq_ok {x : Except ε α} {f : α → Except ε β} {b : β} :
    (x >>= f) = .ok b ↔ ∃ a, x = .ok a ∧ f a = .ok b := by
  cases x <;> simp [bind, Except.bind]

/-- If every round that succeeds keeps `I` and acts on the view `v` as `g`, then so does a loop
that succeeds. -/
theorem foldlM_eq_ok {g : τ → α → τ} {v : σ → τ}
    (hstep : ∀ s a s', I s → f s a = .ok s' → I s' ∧ v s' = g (v s) a) (hs : I s)
    (h : l.foldlM f s = .ok s') : I s' ∧ v s' = l.foldl g (v s) := by
  induction l generalizing s with
  | nil =>
    obtain rfl : s = s' := by simpa [pure, Except.pure] using h
    exact ⟨hs, rfl⟩
  | cons a l ih =>
    rw [foldlM_cons, except_bind_eq_ok] at h
    obtain ⟨t, ht, h⟩ := h
    obtain ⟨hI, hview⟩ := hstep s a t hs ht
    rw [foldl_cons, ← hview]
    exact ih hI h

/-- If every round that succeeds keeps `I` and shows `P` of its element, a loop that succeeds shows
`P` of all. -/
theorem forall_of_foldlM_ok {P : α → Prop} (hstep : ∀ s a s', I s → f s a = .ok s' → I s' ∧ P a)
    (hs : I s) (h : l.foldlM f s = .ok s') : ∀ a ∈ l, P a := by
  induction l generalizing s with
  | nil => simp
  | cons a l ih =>
    rw [foldlM_cons, except_bind_eq_ok] at h
    obtain ⟨t, ht, h⟩ := h
    obtain ⟨hI, hP⟩ := hstep s a t hs ht
    exact forall_mem_cons.2 ⟨hP, ih hI h⟩

/-- A loop that writes entries: what is read afterwards is the value of an entry that hits, or
no entry hits and it is what was read before. -/
theorem foldl_read {σ τ α : Type*} (f : σ → α → σ) (read : σ → τ) (hits : α → Prop) (value : α → τ)
    (hhit : ∀ s a, hits a → read (f s a) = value a)
    (hmiss : ∀ s a, ¬hits a → read (f s a) = read s) (l : List α) (s : σ) :
    (∃ a ∈ l, hits a ∧ read (l.foldl f s) = value a) ∨
      (∀ a ∈ l, ¬hits a) ∧ read (l.foldl f s) = read s := by
  induction l generalizing s with
  | nil => exact .inr ⟨by simp, rfl⟩
  | cons a l ih =>
    rw [foldl_cons]
    rcases ih (f s a) with ⟨b, hb, hhits, heq⟩ | ⟨hmisses, heq⟩
    · exact .inl ⟨b, mem_cons_of_mem a hb, hhits, heq⟩
    · by_cases ha : hits a
      · exact .inl ⟨a, mem_cons_self, ha, heq.trans (hhit s a ha)⟩
      · exact .inr ⟨forall_mem_cons.2 ⟨ha, hmisses⟩, heq.trans (hmiss s a ha)⟩

end Lchfs.Library
