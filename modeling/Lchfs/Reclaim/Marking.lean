import Lchfs.Reclaim.Repack

/-!
# Marking

A pass keeps the root and the generation it started from. What is reachable from that
root, or from the snapshot table when the pass reads it, is marked before the first
segment is repacked, and the gate opens only while the generation is the published one.
-/

set_option linter.unusedSectionVars false

namespace Lchfs.Reclaim

open Lchfs.Format (Ino ShardId SegmentId)
open Lchfs.Library
open List Option

variable {Dev Hash : Type} [DecidableEq Dev] [DecidableEq Hash]

/-- The pass has found its generation to be the published one and goes on to delete. -/
@[simp]
def Stage.isPastGate : Stage Dev Hash → Bool
  | .checkPins _ _ _ => true
  | .forget _ => true
  | .delete _ => true
  | _ => false

namespace State

variable {setup : Setup Dev} {s t : State Dev Hash} {p : Pass Dev Hash} {hash : Hash}

/-- The mark has the hash, or will come to it. -/
def Marks (table : List (InoMap Hash)) (p : Pass Dev Hash) (hash : Hash) : Prop :=
  hash ∈ p.live ∨
    match p.stage with
    | .snapshots => hash ∈ p.root.hashes ∨ hash ∈ table.flatMap InoMap.hashes
    | .marking todo => hash ∈ todo
    | _ => False

/-- What an action of a running pass leaves of it: its root and generation, what it marks, and
the order of its gate. -/
structure Continues (s : State Dev Hash) (p p' : Pass Dev Hash) : Prop where
  root : p'.root = p.root
  generation : p'.generation = p.generation
  marks : ∀ hash, Marks s.snapshotTable p hash → Marks s.snapshotTable p' hash
  gate : p'.stage.isPastGate = true →
    p.stage.isPastGate = true ∨ s.publishedGeneration = p.generation

theorem Marks.mem_live {table : List (InoMap Hash)} (h : Marks table p hash)
    (hstage : p.stage.repack.isSome) : hash ∈ p.live := by
  refine h.resolve_right fun hmatch ↦ ?_
  cases heq : p.stage <;> simp [heq, Stage.repack] at hmatch hstage

/-- Only the roots the pass has yet to read depend on the snapshot table. -/
theorem Marks.root {table table' : List (InoMap Hash)} (h : Marks table p hash)
    (hroot : hash ∈ p.root.hashes) : Marks table' p hash := by
  refine h.imp_right fun hmatch ↦ ?_
  cases hstage : p.stage <;> simp only [hstage] at hmatch ⊢
  · exact .inl hroot
  · exact hmatch

theorem Marks.table {table table' : List (InoMap Hash)} {entry : InoMap Hash} (h : Marks table p hash)
    (hmem : hash ∈ entry.hashes) (hentry : entry ∈ table') : Marks table' p hash := by
  refine h.imp_right fun hmatch ↦ ?_
  cases hstage : p.stage <;> simp only [hstage] at hmatch ⊢
  · exact .inr (mem_flatMap.2 ⟨entry, hentry, hmem⟩)
  · exact hmatch

/-- The mark is over, and the gate is where it was. -/
theorem Continues.setStage {stage : Stage Dev Hash}
    (hmarked : ∀ hash, Marks s.snapshotTable p hash → hash ∈ p.live)
    (hgate : stage.isPastGate = true → p.stage.isPastGate = true ∨ s.publishedGeneration = p.generation) :
    Continues s p { p with stage := stage } :=
  ⟨rfl, rfl, fun hash h ↦ .inl (hmarked hash h), hgate⟩

theorem Turns.continues {stage stage' : Stage Dev Hash} (hst : s.Turns p stage stage') (hstage : p.stage = stage) :
    Continues s p { p with stage := stage' } := by
  cases hst with
  | snapshots => exact ⟨rfl, rfl, fun hash h ↦ by simpa [Marks, hstage] using h, by simp⟩
  | current heq =>
    -- the one step that enters the gate
    exact .setStage (fun hash h ↦ by simpa [Marks, hstage] using h) fun _ ↦ .inr heq
  | unpinned | checked =>
    exact .setStage (fun hash h ↦ by simpa [Marks, hstage] using h) fun _ ↦ .inl (by simp [hstage])
  | _ => exact .setStage (fun _ h ↦ by simpa [Marks, hstage] using h) (by simp)

/-- Every action of the coalescer starts a pass from the namespace's root and generation, ends
one, or carries one on. -/
theorem Sweeps.continues {a : Action Dev Hash} {p' : Pass Dev Hash} (hst : Sweeps setup s a t)
    (hp' : t.pass = some p') : a = .beginPass ∧ p' = ⟨s.root, s.generation, [], [], .snapshots⟩ ∨
      ∃ p, s.pass = some p ∧ Continues s p p' := by
  cases hst with
  | stop => simp at hp'
  | begin => exact .inl ⟨rfl, (some.inj hp').symm⟩
  | turn hp hstage hturns =>
    cases hp'
    exact .inr ⟨_, hp, hturns.continues hstage⟩
  | mark hp hstage =>
    cases hp'
    refine .inr ⟨_, hp, rfl, rfl, fun hash h ↦ ?_, by simp⟩
    simp only [Marks, hstage, mem_cons] at h ⊢
    tauto
  | markPin hp hstage =>
    cases hp'
    refine .inr ⟨_, hp, rfl, rfl, fun hash h ↦ ?_, by simp⟩
    simp only [Marks, hstage, or_false] at h
    exact .inl (mem_cons_of_mem _ h)
  | beginDevice hp hstage =>
    cases hp'
    refine .inr ⟨_, hp, .setStage (fun hash h ↦ ?_) (by simp)⟩
    rcases hstage with hstage | ⟨_, _, hstage⟩ <;> simpa [Marks, hstage] using h
  | forget hp hstage =>
    cases hp'
    exact .inr ⟨_, hp, .setStage (fun hash h ↦ by simpa [Marks, hstage] using h) fun _ ↦ .inl (by simp [hstage])⟩
  | beginRepack hp hstage | copy hp hstage | repointIndex hp hstage | repointCache hp hstage
  | remove hp hstage | restore hp hstage | delete hp hstage =>
    cases hp'
    exact .inr ⟨_, hp, .setStage (fun _ h ↦ by simpa [Marks, hstage] using h) (by simp)⟩

end State

end Lchfs.Reclaim
