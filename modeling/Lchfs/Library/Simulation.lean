import Lchfs.Library.Machine

/-!
# Simulations

Two states are related if they can take the same actions and are related after each of them.
Related states then have the same runs, and what is observed of the states along them is the same
if it is the same in related states.
-/

namespace Lchfs.Library

variable {σ : Type*} {R : σ → σ → Prop} {x y : Option σ}

theorem rel_refl (h : ∀ s, R s s) : ∀ x, Option.Rel R x x
  | none => .none
  | some s => .some (h s)

theorem rel_bind {f g : σ → Option σ} (hxy : Option.Rel R x y)
    (hfg : ∀ s t, R s t → Option.Rel R (f s) (g t)) : Option.Rel R (x.bind f) (y.bind g) := by
  cases hxy with
  | some hst => exact hfg _ _ hst
  | none => exact .none

theorem rel_map {f g : σ → σ} (hxy : Option.Rel R x y)
    (hfg : ∀ s t, R s t → R (f s) (g t)) : Option.Rel R (x.map f) (y.map g) := by
  cases hxy with
  | some hst => exact .some (hfg _ _ hst)
  | none => exact .none

theorem map_eq_of_rel {β : Type*} {observe : σ → β} (hxy : Option.Rel R x y)
    (hobserve : ∀ s t, R s t → observe s = observe t) : x.map observe = y.map observe := by
  cases hxy with
  | some hst => exact congrArg some (hobserve _ _ hst)
  | none => rfl

namespace Machine

variable {σ α β : Type*} {M : Machine σ α} {R : σ → σ → Prop}

/-- Every action leads from related states to related states, or is enabled in neither. -/
def Simulation (M : Machine σ α) (R : σ → σ → Prop) : Prop :=
  ∀ s t a, R s t → Option.Rel R (M.step s a) (M.step t a)

theorem Simulation.run (h : M.Simulation R) {s t : σ} (hst : R s t) (actions : List α) :
    Option.Rel R (M.run s actions) (M.run t actions) := by
  induction actions generalizing s t with
  | nil => exact .some hst
  | cons a _ ih =>
    simp only [Machine.run, runUnder, if_true]
    exact rel_bind (h s t a hst) fun _ _ hst' ↦ ih hst'

/-- Nothing that related states have in common tells their runs apart. -/
theorem Simulation.observe (h : M.Simulation R) {observe : σ → β} (hobserve : ∀ s t, R s t → observe s = observe t)
    {s t : σ} (hst : R s t) (actions : List α) : (M.run s actions).map observe = (M.run t actions).map observe :=
  map_eq_of_rel (h.run hst actions) hobserve

end Machine

end Lchfs.Library
