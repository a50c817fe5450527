import Mathlib

/-!
# Programs whose calls may fail

A program over a state makes calls to its environment. The environment answers each call:
it is done, it failed (and its effect may have happened all the same), or there is no
answer because the power is lost there. `Ensures` is the triple of such programs, with
one postcondition for each way to end and a condition on the answers; one rule for each
way to build a program lets a proof follow the program's text.
-/

namespace Lchfs.Library

open List

/-- How the environment answers one call. -/
inductive Answer
  | done
  | failed (landed : Bool)
  deriving DecidableEq, Repr

/-- How a program ends. -/
inductive Ending (ε α : Type)
  | value (a : α)
  | error (e : ε)
  | powerLoss
  deriving DecidableEq, Repr

/-- A program: it starts with the answers that its calls will get, and returns those that are
left. -/
def Faulty (ε σ α : Type) := σ → List Answer → Ending ε α × σ × List Answer

variable {ε σ τ α β : Type}

namespace Faulty

instance : Monad (Faulty ε σ) where
  pure a := fun s answers ↦ (.value a, s, answers)
  bind m f := fun s answers ↦
    match m s answers with
    | (.value a, s, rest) => f a s rest
    | (.error e, s, rest) => (.error e, s, rest)
    | (.powerLoss, s, rest) => (.powerLoss, s, rest)

/-- Ends with an error. -/
def raise (e : ε) : Faulty ε σ α := fun s answers ↦ (.error e, s, answers)

/-- The current state. -/
def read : Faulty ε σ σ := fun s answers ↦ (.value s, s, answers)

/-- Changes the state, without a call. -/
def change (f : σ → σ) : Faulty ε σ Unit := fun s answers ↦ (.value (), f s, answers)

/-- A call with the effect `f`. One that fails ends in the error `e`, and its effect may have
happened; one that gets no answer meets the loss of power. -/
def call (e : ε) (f : σ → σ) : Faulty ε σ Unit := fun s answers ↦
  match answers with
  | [] => (.powerLoss, s, [])
  | .done :: rest => (.value (), f s, rest)
  | .failed true :: rest => (.error e, f s, rest)
  | .failed false :: rest => (.error e, s, rest)

/-- Catches an error. The loss of power is not caught. -/
def attempt (m : Faulty ε σ α) : Faulty ε σ (Except ε α) := fun s answers ↦
  match m s answers with
  | (.value a, s, rest) => (.value (.ok a), s, rest)
  | (.error e, s, rest) => (.value (.error e), s, rest)
  | (.powerLoss, s, rest) => (.powerLoss, s, rest)

/-- Runs a program on a part of the state. -/
def zoom (view : τ → σ) (put : σ → τ → τ) (m : Faulty ε σ α) : Faulty ε τ α := fun t answers ↦
  let r := m (view t) answers
  (r.1, put r.2.1 t, r.2.2)

end Faulty

/-- The postcondition of the way to end that occurred. -/
def Ending.Meets (Q : α → σ → Prop) (E : ε → σ → Prop) (L : σ → Prop) (s : σ) :
    Ending ε α → Prop
  | .value a => Q a s
  | .error e => E e s
  | .powerLoss => L s

/-- From a state in `P`, with answers in `A`, the program ends with a value in `Q`, with an error in
`E`, or by loss of power in `L`. -/
def Ensures (A : Answer → Prop) (P : σ → Prop) (m : Faulty ε σ α) (Q : α → σ → Prop)
    (E : ε → σ → Prop) (L : σ → Prop) : Prop :=
  ∀ s answers, (∀ a ∈ answers, A a) → P s →
    (∀ a ∈ (m s answers).2.2, A a) ∧ (m s answers).1.Meets Q E L (m s answers).2.1

/-- The program keeps `I`, however it ends. -/
abbrev Keeps (A : Answer → Prop) (I : σ → Prop) (m : Faulty ε σ α) : Prop :=
  Ensures A I m (fun _ ↦ I) (fun _ ↦ I) I

namespace Ensures

variable {A : Answer → Prop} {P P' I : σ → Prop} {Q Q' : α → σ → Prop} {R : β → σ → Prop}
  {E E' : ε → σ → Prop} {L L' : σ → Prop} {m : Faulty ε σ α} {f : α → Faulty ε σ β} {e : ε}
  {g : σ → σ} {l : List β}

/-- The rule of consequence. -/
theorem mono (h : Ensures A P m Q E L) (hP : ∀ s, P' s → P s) (hQ : ∀ a s, Q a s → Q' a s)
    (hE : ∀ e s, E e s → E' e s) (hL : ∀ s, L s → L' s) : Ensures A P' m Q' E' L' := by
  intro s answers hA hs
  obtain ⟨hrest, hmeets⟩ := h s answers hA (hP s hs)
  refine ⟨hrest, ?_⟩
  cases hend : (m s answers).1 <;> rw [hend] at hmeets
  case value a => exact hQ a _ hmeets
  case error e => exact hE e _ hmeets
  case powerLoss => exact hL _ hmeets

theorem weaken (h : Ensures A P m Q E L) (hP : ∀ s, P' s → P s) : Ensures A P' m Q E L :=
  h.mono hP (fun _ _ h ↦ h) (fun _ _ h ↦ h) fun _ h ↦ h

/-- A precondition can be fixed state by state. -/
theorem of_forall (h : ∀ s, P s → Ensures A (· = s) m Q E L) : Ensures A P m Q E L :=
  fun s answers hA hs ↦ h s hs s answers hA rfl

/-- Without a condition on the answers every program ends in some way. -/
theorem any : Ensures (fun _ ↦ True) P m (fun _ _ ↦ True) (fun _ _ ↦ True) fun _ ↦ True := by
  intro s answers _ _
  refine ⟨fun _ _ ↦ trivial, ?_⟩
  cases (m s answers).1 <;> trivial

theorem pure {a : α} (h : ∀ s, P s → Q a s) : Ensures A P (Pure.pure a : Faulty ε σ α) Q E L :=
  fun s _ hA hs ↦ ⟨hA, h s hs⟩

theorem raise (h : ∀ s, P s → E e s) : Ensures A P (Faulty.raise e) Q E L :=
  fun s _ hA hs ↦ ⟨hA, h s hs⟩

theorem change {Q : Unit → σ → Prop} (h : ∀ s, P s → Q () (g s)) :
    Ensures A P (Faulty.change g : Faulty ε σ Unit) Q E L :=
  fun s _ hA hs ↦ ⟨hA, h s hs⟩

theorem call {Q : Unit → σ → Prop} (hdone : ∀ s, P s → Q () (g s))
    (hlanded : A (.failed true) → ∀ s, P s → E e (g s))
    (hfailed : A (.failed false) → ∀ s, P s → E e s) (hloss : ∀ s, P s → L s) :
    Ensures A P (Faulty.call e g) Q E L := by
  intro s answers hA hs
  match answers with
  | [] => exact ⟨by simp [Faulty.call], hloss s hs⟩
  | .done :: rest =>
    exact ⟨fun a ha ↦ hA a (mem_cons_of_mem _ ha), hdone s hs⟩
  | .failed true :: rest =>
    exact ⟨fun a ha ↦ hA a (mem_cons_of_mem _ ha), hlanded (hA _ mem_cons_self) s hs⟩
  | .failed false :: rest =>
    exact ⟨fun a ha ↦ hA a (mem_cons_of_mem _ ha), hfailed (hA _ mem_cons_self) s hs⟩

theorem bind (h : Ensures A P m Q E L) (hf : ∀ a, Ensures A (Q a) (f a) R E L) :
    Ensures A P (m >>= f) R E L := by
  intro s answers hA hs
  obtain ⟨hrest, hmeets⟩ := h s answers hA hs
  simp only [Bind.bind]
  match hend : m s answers, hrest, hmeets with
  | (.value a, t, rest), hrest, hmeets => exact hf a t rest hrest hmeets
  | (.error e, t, rest), hrest, hmeets => exact ⟨hrest, hmeets⟩
  | (.powerLoss, t, rest), hrest, hmeets => exact ⟨hrest, hmeets⟩

/-- Reading the state binds it. -/
theorem read_bind {f : σ → Faulty ε σ β} (h : ∀ s, P s → Ensures A (· = s) (f s) R E L) :
    Ensures A P (Faulty.read >>= f) R E L :=
  fun s answers hA hs ↦ h s hs s answers hA rfl

theorem read_keeps {f : σ → Faulty ε σ β} (h : ∀ s, I s → Ensures A I (f s) R E L) :
    Ensures A I (Faulty.read >>= f) R E L :=
  read_bind fun s hs ↦ (h s hs).weaken fun _ heq ↦ heq ▸ hs

theorem attempt (h : Ensures A P m Q E' L) : Ensures A P m.attempt (fun r s ↦ match r with
        | .ok a => Q a s
        | .error e => E' e s) E L := by
  intro s answers hA hs
  obtain ⟨hrest, hmeets⟩ := h s answers hA hs
  unfold Faulty.attempt
  match hend : m s answers, hrest, hmeets with
  | (.value a, t, rest), hrest, hmeets => exact ⟨hrest, hmeets⟩
  | (.error e, t, rest), hrest, hmeets => exact ⟨hrest, hmeets⟩
  | (.powerLoss, t, rest), hrest, hmeets => exact ⟨hrest, hmeets⟩

theorem attempt_keeps (h : Keeps A I m) : Ensures A I m.attempt (fun _ ↦ I) E I :=
  h.attempt.mono (fun _ h ↦ h) (fun r _ h ↦ by cases r <;> exact h) (fun _ _ h ↦ h) fun _ h ↦ h

theorem zoom {P : τ → Prop} {Q : α → τ → Prop} {E : ε → τ → Prop} {L : τ → Prop} {view : τ → σ}
    {put : σ → τ → τ}
    (h : ∀ t, P t → Ensures A (· = view t) m (fun a s ↦ Q a (put s t)) (fun e s ↦ E e (put s t))
      fun s ↦ L (put s t)) : Ensures A P (Faulty.zoom view put m) Q E L := by
  intro t answers hA ht
  obtain ⟨hrest, hmeets⟩ := h t ht (view t) answers hA rfl
  refine ⟨hrest, ?_⟩
  cases hend : (m (view t) answers).1 <;> rw [hend] at hmeets <;>
    simpa only [Faulty.zoom, hend, Ending.Meets] using hmeets

/-- The rule of a loop over a list, with an invariant of the elements that are left. -/
theorem forM {J : List β → σ → Prop} {f : β → Faulty ε σ PUnit}
    (h : ∀ b rest, b :: rest <:+ l → Ensures A (J (b :: rest)) (f b) (fun _ ↦ J rest) E L) :
    Ensures A (J l) (l.forM f) (fun _ ↦ J []) E L := by
  induction l with
  | nil => exact pure fun _ h ↦ h
  | cons b l ih =>
    refine bind (h b l suffix_rfl) fun _ ↦ ih fun b' rest hsuffix ↦ ?_
    exact h b' rest (hsuffix.trans (suffix_cons b l))

/-- A loop keeps what every round keeps. -/
theorem forM_keeps {f : β → Faulty ε σ PUnit} (h : ∀ b ∈ l, Ensures A I (f b) (fun _ ↦ I) E L) :
    Ensures A I (l.forM f) (fun _ ↦ I) E L :=
  forM (J := fun _ ↦ I) fun b _ hsuffix ↦ h b (hsuffix.mem mem_cons_self)

theorem state {s : σ} (h : Keeps (fun _ ↦ True) I m) (answers : List Answer) (hs : I s) : I (m s answers).2.1 := by
  have hmeets := (h s answers (fun _ _ ↦ trivial) hs).2
  cases hend : (m s answers).1 <;> rwa [hend] at hmeets

end Ensures

end Lchfs.Library
