import Mathlib

/-!
# Labelled machines and their conditional runs

A machine is an executable step function: an action either moves the state or is
not enabled. `ReachableUnder C` collects the states of the runs in which every
step meets the condition `C` on its action and on the state it starts from. An
invariant is proved once from the initial states and from one step.
-/

namespace Lchfs.Library

universe u v

/-- A machine with a computable step function and a set of initial states. -/
structure Machine (σ : Type u) (α : Type v) where
  init : σ → Prop
  step : σ → α → Option σ

namespace Machine

variable {σ : Type u} {α : Type v} (M : Machine σ α)

/-- Performs the actions in order and stops at the first one that is not enabled or
does not meet the condition `C`. -/
def runUnder (C : σ → α → Prop) [∀ s a, Decidable (C s a)] : σ → List α → Option σ
  | s, [] => some s
  | s, a :: actions =>
    if C s a then (M.step s a).bind fun s' ↦ runUnder C s' actions else none

/-- Performs the actions in order and stops at the first one that is not enabled. -/
abbrev run : σ → List α → Option σ := M.runUnder fun _ _ ↦ True

/-- The states of the runs whose steps all meet `C`. -/
inductive ReachableUnder (C : σ → α → Prop) : σ → Prop
  | init {s : σ} : M.init s → ReachableUnder C s
  | step {s s' : σ} {a : α} :
      ReachableUnder C s → C s a → M.step s a = some s' → ReachableUnder C s'

/-- The states of all runs. -/
abbrev Reachable : σ → Prop := M.ReachableUnder fun _ _ ↦ True

variable {M} {C D : σ → α → Prop}

theorem ReachableUnder.invariant {I : σ → Prop} (hinit : ∀ s, M.init s → I s)
    (hstep : ∀ s a s', M.ReachableUnder C s → I s → C s a → M.step s a = some s' → I s')
    {s : σ} (hs : M.ReachableUnder C s) : I s := by
  induction hs with
  | init h => exact hinit _ h
  | step hreach hC hs ih => exact hstep _ _ _ hreach ih hC hs

theorem ReachableUnder.mono (hCD : ∀ s a, C s a → D s a) {s : σ}
    (hs : M.ReachableUnder C s) : M.ReachableUnder D s := by
  induction hs with
  | init h => exact .init h
  | step _ hC hs ih => exact .step ih (hCD _ _ hC) hs

theorem ReachableUnder.run_from [∀ s a, Decidable (C s a)] {s s' : σ} {actions : List α}
    (hs : M.ReachableUnder C s) (hrun : M.runUnder C s actions = some s') :
    M.ReachableUnder C s' := by
  induction actions generalizing s with
  | nil =>
    obtain rfl : s = s' := by simpa [runUnder] using hrun
    exact hs
  | cons a actions ih =>
    obtain ⟨hC, t, ht, hrest⟩ :
        C s a ∧ ∃ t, M.step s a = some t ∧ M.runUnder C t actions = some s' := by
      simpa [runUnder, Option.bind_eq_some_iff] using hrun
    exact ih (.step hs hC ht) hrest

/-- A run that the kernel can evaluate is a run. -/
theorem ReachableUnder.of_run [∀ s a, Decidable (C s a)] {s s' : σ} {actions : List α}
    (hs : M.init s) (hrun : M.runUnder C s actions = some s') : M.ReachableUnder C s' :=
  run_from (.init hs) hrun

section

variable [∀ s a, Decidable (C s a)] {u : σ}

/-- A run that the kernel can evaluate, with a property of the state it ends in. -/
theorem exists_run {P : σ → Prop} [DecidablePred P] {actions : List α}
    (hrun : (M.runUnder C u actions).any (P ·) = true) : ∃ s, M.runUnder C u actions = some s ∧ P s := by
  obtain ⟨s, hs, hP⟩ := (Option.any_eq_true _ _).1 hrun
  exact ⟨s, hs, of_decide_eq_true hP⟩

theorem exists_of_run {P : σ → Prop} [DecidablePred P] (hu : M.init u) (actions : List α)
    (hrun : (M.runUnder C u actions).any (P ·) = true) : ∃ s, M.ReachableUnder C s ∧ P s := by
  obtain ⟨s, hs, hP⟩ := exists_run hrun
  exact ⟨s, .of_run hu hs, hP⟩

/-- A run, and what the state it ends in has to give, such as the state after one more step. -/
theorem exists_step_of_run {β : Type*} {step : σ → Option β} {P : σ → β → Prop} [∀ s t, Decidable (P s t)]
    (hu : M.init u) (actions : List α)
    (hrun : ((M.runUnder C u actions).any fun s ↦ (step s).any (P s ·)) = true) :
    ∃ s t, M.ReachableUnder C s ∧ step s = some t ∧ P s t := by
  obtain ⟨s, hs, hrun⟩ := (Option.any_eq_true _ _).1 hrun
  obtain ⟨t, hst, hP⟩ := (Option.any_eq_true _ _).1 hrun
  exact ⟨s, t, .of_run hu hs, hst, of_decide_eq_true hP⟩

end

end Machine

end Lchfs.Library
