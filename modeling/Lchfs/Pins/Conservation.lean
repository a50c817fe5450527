import Lchfs.Pins.Machine

/-!
# Every pin is held once

The count of a hash is the number of its occurrences among those who hold pins: a step moves a
pin from one holder to another, or takes or gives back one on both sides. What a checkpoint
that runs alone leaves at zero rests on the dirty marks: an inode with pins is gone, or dirty,
or still to be captured. A number that is handed out twice breaks that, since the pins of a
file are then under a number that is no file any more.
-/

set_option linter.unusedSectionVars false

namespace Lchfs.Pins

open Lchfs.Format (Ino InodeKind)
open Lchfs.Library
open List Option

namespace State

variable {Hash : Type} [DecidableEq Hash] {s t : State Hash}
variable {c : Checkpoint Hash}

/-! ## Conservation -/

theorem count_held (s : State Hash) (k : Hash) : s.held.count k = (s.pinsByIno.map (·.2)).count k +
      (s.checkpoint.elim [] fun c ↦ c.taken.map (·.2) ++ c.phase.inFlight).count k +
      (s.ledger.elim [] fun l ↦ l.hashes ++ l.pinned.toList).count k + (s.operations.filterMap (·.2)).count k := by
  simp only [held, count_append]

@[simp]
theorem held_disturb (s : State Hash) : s.disturb.held = s.held := by
  unfold held disturb setCheckpoint
  cases s.checkpoint with
  | none => rfl
  | some => rfl

variable {old : Option Hash}

theorem count_setOperation {ino : Ino} (new : Option Hash) (hmem : (ino, old) ∈ s.operations)
    (k : Hash) :
    ((s.setOperation ino old new).operations.filterMap (·.2)).count k + old.toList.count k =
      (s.operations.filterMap (·.2)).count k + new.toList.count k := by
  have hperm := ((perm_cons_erase hmem).filterMap (·.2)).count_eq k
  rw [hperm]
  cases old with
  | none =>
    cases new with
    | none => simp [setOperation]
    | some => simp [setOperation, count_cons]
  | some hash =>
    cases new with
    | none => simp [setOperation, count_cons]
    | some hash' => simp [setOperation, count_cons]; omega

variable {phase : Phase Hash}

theorem count_take (hc : s.checkpoint = some c) (ino : Ino)
    (hphase : phase.inFlight = c.phase.inFlight) : (s.take c ino phase).held.Perm s.held := by
  refine perm_iff_count.2 fun k ↦ ?_
  have hsplit := ((filter_append_perm (fun p : Ino × Hash ↦ p.1 = ino) s.pinsByIno).map (·.2)).count_eq k
  simp only [map_append, count_append] at hsplit
  rw [count_held, count_held, hc]
  simp only [take, elim_some, map_append, count_append, hphase, ne_eq, decide_not]
  omega

theorem held_setPhase (hc : s.checkpoint = some c) (hphase : phase.inFlight = c.phase.inFlight) :
    (s.setPhase c phase).held = s.held := by
  simp only [held, setPhase, setCheckpoint, hc, elim_some, hphase]

/-- A checkpoint fails between commits. -/
theorem failCheckpoint_eq_some (h : s.failCheckpoint c = some t) : c.phase.inFlight = [] ∧
      t = { s with dirty := s.dirty ∪ c.inos, pinsByIno := c.taken ++ s.pinsByIno, checkpoint := none } := by
  unfold failCheckpoint at h
  split at h
  · cases h
  · cases h
  next hfinalize _ =>
    refine ⟨?_, (some.inj h).symm⟩
    unfold Phase.inFlight
    split
    next ino hash todo heq => exact absurd heq (hfinalize ino hash todo)
    · rfl

/-- Every inode has a number that was handed out, and no count is at its maximum when a hash is
pinned. -/
def NumbersHandedOut (s : State Hash) (a : Action Hash) : Prop :=
  (∀ entry ∈ s.inodes.toList, entry.1 < s.nextIno) ∧
    match a with
    | .pin _ hash | .ledgerPin hash | .checkpointPin hash => s.refcounts hash + 1 < 2 ^ 32
    | _ => True

instance (s : State Hash) (a : Action Hash) : Decidable (s.NumbersHandedOut a) := by
  unfold NumbersHandedOut
  split <;> infer_instance

end State

/-! ## Dirty marks -/

/-- The files a checkpoint has still to capture. -/
def Checkpoint.Schedules {Hash : Type} (c : Checkpoint Hash) (ino : Ino) : Prop :=
  match c.phase with
  | .collect => ino ∈ c.inos
  | .capture todo => (ino, .file) ∈ todo
  | .finalize current _ todo => ino = current ∨ (ino, .file) ∈ todo
  | _ => False

/-- The inodes whose lists a checkpoint takes because they are gone. -/
def Checkpoint.orphaned {Hash : Type} (c : Checkpoint Hash) : List Ino :=
  match c.phase with
  | .orphans todo => todo
  | _ => []

namespace State

variable {Hash : Type} [DecidableEq Hash] {s t : State Hash}
variable {c : Checkpoint Hash} {ino : Ino} {a : Action Hash} {c' : Checkpoint Hash}

def Scheduled (s : State Hash) (ino : Ino) : Prop :=
  ∃ c, s.checkpoint = some c ∧ c.Schedules ino

/-- The files that someone works on or holds pins for. -/
def Involved (s : State Hash) (ino : Ino) : Prop :=
  ino ∈ s.waiting ∨ ino ∈ s.operations.map (·.1) ∨ ino ∈ s.pinsByIno.map (·.1) ∨
    ∃ c, s.checkpoint = some c ∧ (ino ∈ c.taken.map (·.1) ∨ c.phase ≠ .collect ∧ c.Schedules ino)

/-- A number that someone holds pins under is that of a file or of nothing, and the file is dirty
or about to be captured. -/
structure Tracked (s : State Hash) : Prop where
  files : ∀ ino, s.Involved ino → ino < s.nextIno ∧ ∀ kind, s.inodes.lookup ino = some kind → kind = .file
  tracked : ∀ ino, ino ∈ s.operations.map (·.1) ∨ ino ∈ s.pinsByIno.map (·.1) → (s.inodes.lookup ino).isSome →
    ino ∈ s.dirty ∨ s.Scheduled ino
  guarded : ∀ c, s.checkpoint = some c → (∀ ino, c.Schedules ino → ino ∈ c.inos) ∧
    ∀ ino ∈ c.taken.map (·.1), (s.inodes.lookup ino).isSome → ino ∈ c.inos
  orphaned : ∀ c, s.checkpoint = some c → ∀ ino ∈ c.orphaned, ino < s.nextIno ∧ s.inodes.lookup ino = none
  exclusive : ∀ ino, s.finalizing = some ino → ino ∉ s.operations.map (·.1)

theorem checkpoint_disturb (h : s.disturb.checkpoint = some c) :
    ∃ alone, s.checkpoint = some { c with alone := alone } := by
  obtain ⟨c', hc', rfl⟩ := map_eq_some_iff.1 h
  exact ⟨c'.alone, hc'⟩

theorem scheduled_disturb (h : s.Scheduled ino) : s.disturb.Scheduled ino := by
  obtain ⟨c, hc, hschedules⟩ := h
  exact ⟨{ c with alone := false }, by simp [disturb, setCheckpoint, hc], hschedules⟩

theorem Tracked.disturb (h : s.Tracked) : s.disturb.Tracked := by
  refine ⟨fun ino hinvolved ↦ h.files ino ?_, fun ino hmem hsome ↦ (h.tracked ino hmem hsome).imp_right scheduled_disturb,
    fun c hc ↦ ?_, fun c hc ↦ ?_, fun ino hfinalizing ↦ h.exclusive ino ?_⟩
  · rcases hinvolved with hmem | hmem | hmem | ⟨c, hc, hcheckpoint⟩
    · exact .inl hmem
    · exact .inr (.inl hmem)
    · exact .inr (.inr (.inl hmem))
    · obtain ⟨_, hc'⟩ := checkpoint_disturb hc
      exact .inr (.inr (.inr ⟨_, hc', hcheckpoint⟩))
  · obtain ⟨_, hc'⟩ := checkpoint_disturb hc
    have hguarded := h.guarded _ hc'
    exact hguarded
  · obtain ⟨_, hc'⟩ := checkpoint_disturb hc
    have horphaned := h.orphaned _ hc'
    exact horphaned
  · obtain ⟨c, hc, hphase⟩ := bind_eq_some_iff.1 hfinalizing
    obtain ⟨_, hc'⟩ := checkpoint_disturb hc
    exact bind_eq_some_iff.2 ⟨_, hc', hphase⟩

/-- What steps of others may do: inodes come with new numbers, marks go only with their inode, and
pins come from operations on files that are marked. -/
structure Change (s t : State Hash) : Prop where
  checkpoint : t.checkpoint = s.checkpoint := by rfl
  next : s.nextIno ≤ t.nextIno := by exact Nat.le_refl _
  inodes : ∀ ino < s.nextIno, ∀ kind, t.inodes.lookup ino = some kind → s.inodes.lookup ino = some kind := by
    exact fun _ _ _ h ↦ h
  dirty : ∀ ino ∈ s.dirty, (t.inodes.lookup ino).isSome → ino ∈ t.dirty := by exact fun _ h _ ↦ h
  waiting : ∀ ino ∈ t.waiting, ino ∈ s.waiting ∨ ino < s.nextIno ∧ s.inodes.lookup ino = some .file := by
    exact fun _ h ↦ .inl h
  operations : ∀ ino ∈ t.operations.map (·.1), ino ∈ s.operations.map (·.1) ∨
    ino ∈ s.waiting ∧ ino ∈ t.dirty ∧ s.locked ino = false := by exact fun _ h ↦ .inl h
  pins : ∀ ino ∈ t.pinsByIno.map (·.1), ino ∈ s.pinsByIno.map (·.1) ∨ ino ∈ s.operations.map (·.1) := by
    exact fun _ h ↦ .inl h

theorem Tracked.change (h : s.Tracked) (hst : s.Change t) : t.Tracked := by
  obtain ⟨hcheckpoint, hnext, hinodes, hdirty, hwaiting, hoperations, hpins⟩ := hst
  have hold : ∀ ino, s.Involved ino → ino < t.nextIno ∧ ∀ kind, t.inodes.lookup ino = some kind → kind = .file := by
    intro ino hinvolved
    obtain ⟨hlt, hfile⟩ := h.files ino hinvolved
    exact ⟨Nat.lt_of_lt_of_le hlt hnext, fun kind hkind ↦ hfile kind (hinodes ino hlt kind hkind)⟩
  have hsome : ∀ ino, s.Involved ino → (t.inodes.lookup ino).isSome → (s.inodes.lookup ino).isSome := by
    intro ino hinvolved hsome
    obtain ⟨kind, hkind⟩ := isSome_iff_exists.1 hsome
    simp [hinodes ino (h.files ino hinvolved).1 kind hkind]
  have hmarked : ∀ ino, ino ∈ s.operations.map (·.1) ∨ ino ∈ s.pinsByIno.map (·.1) → (t.inodes.lookup ino).isSome →
      ino ∈ t.dirty ∨ t.Scheduled ino := by
    intro ino hmem ht
    have hinvolved : s.Involved ino := hmem.elim (fun h ↦ .inr (.inl h)) fun h ↦ .inr (.inr (.inl h))
    refine (h.tracked ino hmem (hsome ino hinvolved ht)).imp (fun hmem ↦ hdirty ino hmem ht) ?_
    rintro ⟨c, hc, hschedules⟩
    exact ⟨c, hcheckpoint.trans hc, hschedules⟩
  refine ⟨fun ino hinvolved ↦ ?_, fun ino hmem ht ↦ ?_, fun c hc ↦ ?_, fun c hc ino hmem ↦ ?_, fun ino hfinalizing ↦ ?_⟩
  · rcases hinvolved with hmem | hmem | hmem | ⟨c, hc, hcheckpoint'⟩
    · rcases hwaiting ino hmem with hmem | ⟨hlt, hfile⟩
      · exact hold ino (.inl hmem)
      · refine ⟨Nat.lt_of_lt_of_le hlt hnext, fun kind hkind ↦ ?_⟩
        exact some.inj ((hinodes ino hlt kind hkind).symm.trans hfile)
    · rcases hoperations ino hmem with hmem | ⟨hmem, -⟩
      · exact hold ino (.inr (.inl hmem))
      · exact hold ino (.inl hmem)
    · rcases hpins ino hmem with hmem | hmem
      · exact hold ino (.inr (.inr (.inl hmem)))
      · exact hold ino (.inr (.inl hmem))
    · exact hold ino (.inr (.inr (.inr ⟨c, hcheckpoint.symm.trans hc, hcheckpoint'⟩)))
  · rcases hmem with hmem | hmem
    · rcases hoperations ino hmem with hmem | ⟨-, hmarked', -⟩
      · exact hmarked ino (.inl hmem) ht
      · exact .inl hmarked'
    · rcases hpins ino hmem with hmem | hmem
      · exact hmarked ino (.inr hmem) ht
      · exact hmarked ino (.inl hmem) ht
  · rw [hcheckpoint] at hc
    obtain ⟨hschedules, htaken⟩ := h.guarded c hc
    exact ⟨hschedules, fun ino hmem ht ↦ htaken ino hmem
      (hsome ino (.inr (.inr (.inr ⟨c, hc, .inl hmem⟩))) ht)⟩
  · obtain ⟨hlt, hnone⟩ := h.orphaned c (hcheckpoint.symm.trans hc) ino hmem
    refine ⟨Nat.lt_of_lt_of_le hlt hnext, eq_none_iff_forall_ne_some.2 fun kind hkind ↦ ?_⟩
    cases hnone.symm.trans (hinodes ino hlt kind hkind)
  · have hfinalizing' : s.finalizing = some ino := by
      simpa only [finalizing, hcheckpoint] using hfinalizing
    intro hmem
    rcases hoperations ino hmem with hmem | ⟨-, -, hfree⟩
    · exact h.exclusive ino hfinalizing' hmem
    · simp [locked, hfinalizing'] at hfree

/-- What a step of the checkpoint leaves. -/
def proceed (s : State Hash) (counts : Hash → Nat) (pins : List (Ino × Hash)) (c : Checkpoint Hash) : State Hash :=
  { s with refcounts := counts, pinsByIno := pins, checkpoint := some c }

section

variable (h : s.Tracked) (hc : s.checkpoint = some c) {counts : Hash → Nat} {pins : List (Ino × Hash)}

include h hc

/-- A step of the checkpoint keeps its list of dirty inodes and schedules nothing new. -/
theorem Tracked.proceed
    (hschedules : ∀ ino, c'.Schedules ino → c.Schedules ino ∧
      (c.phase = .collect → ino < s.nextIno ∧ s.inodes.lookup ino = some .file))
    (hpins : ∀ ino ∈ pins.map (·.1), ino ∈ s.pinsByIno.map (·.1) ∨ c'.Schedules ino)
    (htaken : ∀ ino ∈ c'.taken.map (·.1), ino ∈ c.taken.map (·.1) ∨ ino ∈ s.pinsByIno.map (·.1))
    (htracked : ∀ ino, ino ∈ s.operations.map (·.1) ∨ ino ∈ pins.map (·.1) → (s.inodes.lookup ino).isSome →
      c.Schedules ino → c'.Schedules ino)
    (hgone : ∀ ino ∈ c'.taken.map (·.1), (s.inodes.lookup ino).isSome → ino ∈ c.inos)
    (horphaned : ∀ ino ∈ c'.orphaned, ino ∈ c.orphaned ∨ ino ∈ s.pinsByIno.map (·.1) ∧ s.inodes.lookup ino = none)
    (hfinalizing : ∀ ino, (s.proceed counts pins c').finalizing = some ino → s.finalizing = some ino ∨ s.locked ino = false)
    (hinos : c'.inos = c.inos := by rfl) : (s.proceed counts pins c').Tracked := by
  have hscheduled : ∀ ino, c'.Schedules ino → ino < s.nextIno ∧ ∀ kind, s.inodes.lookup ino = some kind → kind = .file := by
    intro ino hino
    obtain ⟨hold, hcollect⟩ := hschedules ino hino
    by_cases hphase : c.phase = .collect
    · obtain ⟨hlt, hfile⟩ := hcollect hphase
      exact ⟨hlt, fun _ hkind ↦ some.inj (hkind.symm.trans hfile)⟩
    · exact h.files ino (.inr (.inr (.inr ⟨c, hc, .inr ⟨hphase, hold⟩⟩)))
  refine ⟨fun ino hinvolved ↦ ?_, fun ino hmem hsome ↦ ?_, fun c₀ hc₀ ↦ ?_, fun c₀ hc₀ ino hmem ↦ ?_,
    fun ino hfinal ↦ ?_⟩
  · rcases hinvolved with hmem | hmem | hmem | ⟨_, ⟨⟩, hcheckpoint⟩
    · exact h.files ino (.inl hmem)
    · exact h.files ino (.inr (.inl hmem))
    · rcases hpins ino hmem with hmem | hino
      · exact h.files ino (.inr (.inr (.inl hmem)))
      · exact hscheduled ino hino
    · rcases hcheckpoint with hmem | ⟨-, hino⟩
      · rcases htaken ino hmem with hmem | hmem
        · exact h.files ino (.inr (.inr (.inr ⟨c, hc, .inl hmem⟩)))
        · exact h.files ino (.inr (.inr (.inl hmem)))
      · exact hscheduled ino hino
  · have hkeep : ∀ {ino}, ino ∈ s.operations.map (·.1) ∨ ino ∈ pins.map (·.1) → (s.inodes.lookup ino).isSome →
        s.Scheduled ino → (s.proceed counts pins c').Scheduled ino := by
      rintro ino hmem hsome ⟨_, hc₀, hino⟩
      cases hc.symm.trans hc₀
      exact ⟨c', rfl, htracked ino hmem hsome hino⟩
    rcases hmem with hmem | hmem
    · exact (h.tracked ino (.inl hmem) hsome).imp_right (hkeep (.inl hmem) hsome)
    · rcases hpins ino hmem with hold | hino
      · exact (h.tracked ino (.inr hold) hsome).imp_right (hkeep (.inr hmem) hsome)
      · exact .inr ⟨c', rfl, hino⟩
  · cases hc₀
    exact ⟨fun ino hino ↦ hinos ▸ (h.guarded c hc).1 ino (hschedules ino hino).1, hinos ▸ hgone⟩
  · cases hc₀
    rcases horphaned ino hmem with hold | ⟨hpin, hnone⟩
    · exact h.orphaned c hc ino hold
    · exact ⟨(h.files ino (.inr (.inr (.inl hpin)))).1, hnone⟩
  · rcases hfinalizing ino hfinal with hold | hfree
    · exact h.exclusive ino hold
    · intro (hmem : ino ∈ s.operations.map (·.1))
      simp [locked, hmem] at hfree

/-- The next phase, with nothing taken. -/
theorem Tracked.setPhase
    (hschedules : ∀ ino, Checkpoint.Schedules { c with phase := phase } ino → c.Schedules ino ∧
      (c.phase = .collect → ino < s.nextIno ∧ s.inodes.lookup ino = some .file))
    (htracked : ∀ ino, ino ∈ s.operations.map (·.1) ∨ ino ∈ s.pinsByIno.map (·.1) → (s.inodes.lookup ino).isSome →
      c.Schedules ino → Checkpoint.Schedules { c with phase := phase } ino)
    (horphaned : ∀ ino ∈ Checkpoint.orphaned { c with phase := phase },
      ino ∈ c.orphaned ∨ ino ∈ s.pinsByIno.map (·.1) ∧ s.inodes.lookup ino = none)
    (hfinalizing : ∀ ino, (s.setPhase c phase).finalizing = some ino → s.finalizing = some ino ∨ s.locked ino = false) :
    (s.setPhase c phase).Tracked :=
  h.proceed hc hschedules (fun _ hmem ↦ .inl hmem) (fun _ hmem ↦ .inl hmem) htracked
    (h.guarded c hc).2 horphaned hfinalizing

/-- The next phase, when nothing is scheduled any more. -/
theorem Tracked.idle (hnone : ∀ ino, ¬c.Schedules ino)
    (hphase : phase = .publish ∨ phase = .release ∨ phase = .superblock) : (s.setPhase c phase).Tracked := by
  refine h.setPhase hc (fun i hi ↦ ?_) (fun i _ _ hi ↦ absurd hi (hnone i)) ?_ ?_ <;>
    rcases hphase with rfl | rfl | rfl
  all_goals simp_all [Checkpoint.Schedules, Checkpoint.orphaned, finalizing, State.setPhase, setCheckpoint]

/-- The list of an inode is taken that is no longer scheduled. -/
theorem Tracked.take (hcollect : c.phase ≠ .collect)
    (hschedules : ∀ i, Checkpoint.Schedules { c with phase := phase } i → c.Schedules i)
    (htracked : ∀ i, i ≠ ino → c.Schedules i → Checkpoint.Schedules { c with phase := phase } i)
    (hino : ino ∉ s.operations.map (·.1) ∨ s.inodes.lookup ino = none)
    (hgone : (s.inodes.lookup ino).isSome → ino ∈ c.inos)
    (horphaned : ∀ i ∈ Checkpoint.orphaned { c with phase := phase }, i ∈ c.orphaned)
    (hfinalizing : (s.take c ino phase).finalizing = none) : (s.take c ino phase).Tracked := by
  have hpin : ∀ {i}, i ∈ (s.pinsByIno.filter (·.1 = ino)).map (·.1) → i = ino ∧ i ∈ s.pinsByIno.map (·.1) := by
    intro i hi
    obtain ⟨p, hp, rfl⟩ := mem_map.1 hi
    obtain ⟨hp, heq⟩ := mem_filter.1 hp
    exact ⟨of_decide_eq_true heq, mem_map_of_mem hp⟩
  refine h.proceed hc (fun i hi ↦ ⟨hschedules i hi, fun h ↦ absurd h hcollect⟩)
    (fun i hi ↦ .inl ?_) (fun i hi ↦ ?_) (fun i hi hsome hold ↦ htracked i ?_ hold) (fun i hi hsome ↦ ?_)
    (fun i hi ↦ .inl (horphaned i hi)) (fun _ hi ↦ nomatch hfinalizing.symm.trans hi)
  · obtain ⟨p, hp, rfl⟩ := mem_map.1 hi
    exact mem_map_of_mem (mem_of_mem_filter hp)
  · rw [map_append, mem_append] at hi
    exact hi.elim (fun hi ↦ .inr (hpin hi).2) .inl
  · rintro rfl
    rcases hi with hi | hi
    · rcases hino with hino | hino
      · exact hino hi
      · simp [hino] at hsome
    · obtain ⟨p, hp, rfl⟩ := mem_map.1 hi
      simpa using (mem_filter.1 hp).2
  · rw [map_append, mem_append] at hi
    rcases hi with hi | hi
    · rw [(hpin hi).1] at hsome ⊢
      exact hgone hsome
    · exact (h.guarded c hc).2 i hi hsome

theorem Tracked.endCheckpoint {dirty : List Ino}
    (hdirty : ∀ ino, ino ∈ s.dirty ∨ c.Schedules ino → ino ∈ dirty)
    (hpins : ∀ ino ∈ pins.map (·.1), ino ∈ s.pinsByIno.map (·.1) ∨
      ino ∈ c.taken.map (·.1) ∧ ((s.inodes.lookup ino).isSome → ino ∈ dirty)) :
    Tracked { s with dirty := dirty, pinsByIno := pins, checkpoint := none } := by
  refine ⟨fun ino hinvolved ↦ ?_, fun ino hmem hsome ↦ .inl ?_, nofun, nofun, nofun⟩
  · rcases hinvolved with hmem | hmem | hmem | ⟨_, ⟨⟩, -⟩
    · exact h.files ino (.inl hmem)
    · exact h.files ino (.inr (.inl hmem))
    · rcases hpins ino hmem with hmem | ⟨hmem, -⟩
      · exact h.files ino (.inr (.inr (.inl hmem)))
      · exact h.files ino (.inr (.inr (.inr ⟨c, hc, .inl hmem⟩)))
  · have hold : ino ∈ s.operations.map (·.1) ∨ ino ∈ s.pinsByIno.map (·.1) → ino ∈ dirty := by
      intro hmem
      refine hdirty ino ((h.tracked ino hmem hsome).imp_right ?_)
      rintro ⟨_, hc₀, _⟩
      rwa [some.inj (hc.symm.trans hc₀)]
    rcases hmem with hmem | hmem
    · exact hold (.inl hmem)
    · rcases hpins ino hmem with hmem | ⟨-, hmarked⟩
      · exact hold (.inr hmem)
      · exact hmarked hsome

/-- The commit of a session's tail: the file is the one being captured. -/
theorem Tracked.setPinned
    {pinned pinned' : Option Hash} {todo : List (Ino × InodeKind)} (hphase : c.phase = .finalize ino pinned todo)
    (hpins : ∀ i ∈ pins.map (·.1), i ∈ s.pinsByIno.map (·.1) ∨ i = ino) :
    (s.proceed counts pins { c with phase := .finalize ino pinned' todo }).Tracked := by
  have hsame : ∀ i, Checkpoint.Schedules { c with phase := .finalize ino pinned' todo } i ↔ c.Schedules i := by
    intro i
    simp only [Checkpoint.Schedules, hphase]
  refine h.proceed hc (fun i hi ↦ ⟨(hsame i).1 hi, fun heq ↦ ?_⟩)
    (fun i hi ↦ (hpins i hi).imp_right fun heq ↦ .inl heq) (fun _ hi ↦ .inl hi) (fun i _ _ hi ↦ (hsame i).2 hi)
    (h.guarded c hc).2 (by simp [Checkpoint.orphaned]) fun i hi ↦ .inl ?_
  · simp [hphase] at heq
  · simp only [finalizing, hc, hphase, bind_some]
    exact hi

end

theorem mem_map_setOperation {i : Ino} {new : Option Hash} (hmem : (ino, old) ∈ s.operations)
    (hi : i ∈ (s.setOperation ino old new).operations.map (·.1)) : i ∈ s.operations.map (·.1) := by
  rcases mem_cons.1 hi with rfl | hi
  · exact mem_map_of_mem hmem
  · obtain ⟨p, hp, rfl⟩ := mem_map.1 hi
    exact mem_map_of_mem (mem_of_mem_erase hp)

/-! ## A checkpoint that runs alone -/

/-- With nothing else running since the checkpoint began, the lists it has not taken yet are those of
the files it is going to capture and of the inodes that are gone. -/
def PhaseQuiet (s : State Hash) (c : Checkpoint Hash) : Prop :=
  match c.phase with
  | .orphans todo => ∀ ino ∈ s.pinsByIno.map (·.1), ino ∈ todo
  | .publish | .release | .superblock => s.pinsByIno = []
  | _ => True

/-- `released`: the superblock is written when every pin taken is given back. -/
structure Quiet (s : State Hash) : Prop where
  released : ∀ c, s.checkpoint = some c → c.phase = .superblock → c.taken = []
  alone : ∀ c, s.checkpoint = some c → c.alone = true →
    s.waiting = [] ∧ s.operations = [] ∧ s.ledger = none ∧ s.dirty = [] ∧ s.PhaseQuiet c

theorem Quiet.disturb (hreleased : ∀ c, t.checkpoint = some c → c.phase = .superblock → c.taken = []) :
    t.disturb.Quiet := by
  refine ⟨fun c hc hphase ↦ ?_, fun c hc halone ↦ ?_⟩
  · obtain ⟨c₀, hc₀, rfl⟩ := map_eq_some_iff.1 hc
    exact hreleased c₀ hc₀ hphase
  · obtain ⟨_, -, rfl⟩ := map_eq_some_iff.1 hc
    cases halone

/-- A step of the checkpoint alone. -/
theorem Quiet.proceed (h : s.Quiet) (hc : s.checkpoint = some c) {counts : Hash → Nat} {pins : List (Ino × Hash)}
    (hreleased : c'.phase = .superblock → c'.taken = [])
    (hphase : s.dirty = [] → s.PhaseQuiet c → (s.proceed counts pins c').PhaseQuiet c')
    (halone : c'.alone = c.alone := by rfl) : (s.proceed counts pins c').Quiet := by
  refine ⟨fun c₀ hc₀ hsuper ↦ ?_, fun _ hc₀ halone' ↦ ?_⟩
  · cases hc₀
    exact hreleased hsuper
  · cases hc₀
    obtain ⟨hw, ho, hl, hd, hquiet⟩ := h.alone c hc (halone ▸ halone')
    exact ⟨hw, ho, hl, hd, hphase hd hquiet⟩

/-! ## Every run -/

structure Balanced (s : State Hash) : Prop where
  counts : Counts s.refcounts s.held
  tracked : s.Tracked
  quiet : s.Quiet

namespace Balanced

theorem init (h : (pinning Hash).init s) : s.Balanced := by
  obtain ⟨hcounts, hpins, hwaiting, hoperations, hledger, hcheckpoint⟩ := h
  refine ⟨fun _ ↦ ?_, ⟨?_, ?_, ?_, ?_, ?_⟩, ⟨?_, ?_⟩⟩
  · rw [hcounts, held, hpins, hoperations, hledger, hcheckpoint]
    rfl
  · rintro _ (hmem | hmem | hmem | ⟨c, hc, -⟩)
    · simp [hwaiting] at hmem
    · simp [hoperations] at hmem
    · simp [hpins] at hmem
    · simp [hcheckpoint] at hc
  · rintro _ (hmem | hmem) -
    · simp [hoperations] at hmem
    · simp [hpins] at hmem
  all_goals simp [hcheckpoint, finalizing]

section

variable (h : s.Balanced)

include h

theorem others (hst : s.Change t) (hcounts : Counts t.refcounts t.held) : t.disturb.Balanced where
  counts := held_disturb t ▸ hcounts
  tracked := (h.tracked.change hst).disturb
  quiet := Quiet.disturb (hst.checkpoint ▸ h.quiet.released)

theorem setPhase (hc : s.checkpoint = some c) (hinFlight : phase.inFlight = c.phase.inFlight)
    (htracked : (s.setPhase c phase).Tracked) (hreleased : phase = .superblock → c.taken = [])
    (hquiet : s.dirty = [] → s.PhaseQuiet c → (s.setPhase c phase).PhaseQuiet { c with phase := phase }) :
    (s.setPhase c phase).Balanced :=
  ⟨h.counts.perm (by rw [held_setPhase hc hinFlight]), htracked, h.quiet.proceed hc hreleased hquiet⟩

theorem checkpointStep (hC : ∀ entry ∈ s.inodes.toList, entry.1 < s.nextIno)
    (hc : s.checkpoint = some c) (hstep : s.checkpointStep c = some t) : t.Balanced := by
  have htracked := h.tracked
  have hfinal : ∀ {ino pinned todo}, c.phase = .finalize ino pinned todo → s.finalizing = some ino := by
    intro _ _ _ hphase
    exact bind_eq_some_iff.2 ⟨c, hc, by simp [hphase]⟩
  unfold State.checkpointStep at hstep
  split at hstep
  case h_1 hphase =>
    cases hstep
    refine h.setPhase hc (by rw [hphase]; rfl) (htracked.setPhase hc (fun ino hino ↦ ?_) (fun ino hmem hsome hino ↦ ?_)
      (by simp [Checkpoint.orphaned]) (by simp [finalizing, State.setPhase, setCheckpoint])) (by simp) fun _ _ ↦ trivial
    · obtain ⟨_, hmem, heq⟩ := mem_filterMap.1 hino
      obtain ⟨_, hkind, heq⟩ := map_eq_some_iff.1 heq
      cases heq
      have hlt := hC (ino, .file) (Table.mem_toList.2 hkind)
      exact ⟨by simpa only [Checkpoint.Schedules, hphase] using hmem, fun _ ↦ ⟨hlt, hkind⟩⟩
    · obtain ⟨kind, hkind⟩ := isSome_iff_exists.1 hsome
      have hinvolved : s.Involved ino := hmem.elim (fun h ↦ .inr (.inl h)) fun h ↦ .inr (.inr (.inl h))
      obtain rfl := (htracked.files ino hinvolved).2 kind hkind
      simp only [Checkpoint.Schedules, hphase] at hino
      exact mem_filterMap.2 ⟨ino, hino, by simp [hkind]⟩
  case h_2 ino todo hphase =>
    obtain ⟨hfree, ⟨⟩⟩ := ite_none_left_eq_some.1 hstep
    refine h.setPhase hc (by rw [hphase]; rfl) (htracked.setPhase hc (fun i hi ↦ ?_) (fun i _ _ hi ↦ ?_)
      (by simp [Checkpoint.orphaned]) (fun i hi ↦ .inr ?_)) (by simp) fun _ _ ↦ trivial
    · refine ⟨?_, fun heq ↦ by simp [hphase] at heq⟩
      simp only [Checkpoint.Schedules, hphase]
      rcases hi with rfl | hi
      · exact mem_cons_self
      · exact mem_cons_of_mem _ hi
    · simp only [Checkpoint.Schedules, hphase] at hi
      rcases mem_cons.1 hi with heq | hi
      · exact .inl (congrArg Prod.fst heq)
      · exact .inr hi
    · simp only [finalizing, State.setPhase, setCheckpoint, bind_some, some.injEq] at hi
      exact hi ▸ Bool.not_eq_true _ ▸ hfree
  case h_3 ino kind todo hkind hphase =>
    cases hstep
    refine h.setPhase hc (by rw [hphase]; rfl) (htracked.setPhase hc (fun i hi ↦ ?_) (fun i _ _ hi ↦ ?_)
      (by simp [Checkpoint.orphaned]) (by simp [finalizing, State.setPhase, setCheckpoint])) (by simp) fun _ _ ↦ trivial
    · refine ⟨?_, fun heq ↦ by simp [hphase] at heq⟩
      simp only [Checkpoint.Schedules, hphase]
      exact mem_cons_of_mem _ hi
    · simp only [Checkpoint.Schedules, hphase] at hi
      rcases mem_cons.1 hi with heq | hi
      · cases heq
        exact absurd rfl hkind
      · exact hi
  case h_4 hphase =>
    cases hstep
    refine h.setPhase hc (by rw [hphase]; rfl) (htracked.setPhase hc (by simp [Checkpoint.Schedules]) (fun i _ _ hi ↦ ?_)
      (fun i hi ↦ .inr ?_) (by simp [finalizing, State.setPhase, setCheckpoint])) (by simp) fun hdirty _ ino hino ↦ ?_
    · simp [Checkpoint.Schedules, hphase] at hi
    · obtain ⟨hi, hnone⟩ := mem_filter.1 hi
      exact ⟨mem_dedup.1 hi, isNone_iff_eq_none.1 hnone⟩
    · refine mem_filter.2 ⟨mem_dedup.2 hino, isNone_iff_eq_none.2 ?_⟩
      -- a list whose inode is there is dirty, or still to be captured
      by_contra hsome
      rcases htracked.tracked ino (.inr hino) (isSome_iff_ne_none.2 hsome) with hmem | ⟨_, hc₀, hmem⟩
      · simp [hdirty] at hmem
      · cases hc.symm.trans hc₀
        simp [Checkpoint.Schedules, hphase] at hmem
  case h_5 ino todo hphase =>
    cases hstep
    refine ⟨h.counts.perm (count_take hc _ (by rw [hphase]; rfl)), htracked.take hc (by simp [hphase]) (fun i hi ↦ ?_)
      (fun i hne hi ↦ ?_) (.inl (htracked.exclusive ino (hfinal hphase))) (fun _ ↦ (htracked.guarded c hc).1 ino ?_)
      (by simp [Checkpoint.orphaned]) (by simp [finalizing, State.take]), h.quiet.proceed hc (by simp) fun _ _ ↦ trivial⟩
    · simp only [Checkpoint.Schedules, hphase]
      exact .inr hi
    · simp only [Checkpoint.Schedules, hphase] at hi
      exact hi.resolve_left hne
    · simp [Checkpoint.Schedules, hphase]
  case h_6 => cases hstep
  case h_7 ino todo hphase =>
    cases hstep
    obtain ⟨-, hnone⟩ := htracked.orphaned c hc ino (by simp [Checkpoint.orphaned, hphase])
    refine ⟨h.counts.perm (count_take hc _ (by rw [hphase]; rfl)), htracked.take hc (by simp [hphase])
      (by simp [Checkpoint.Schedules]) (fun i _ hi ↦ ?_) (.inr hnone) (by simp [hnone]) (fun i hi ↦ ?_)
      (by simp [finalizing, State.take]), h.quiet.proceed hc (by simp) fun _ hquiet i hi ↦ ?_⟩
    · simp [Checkpoint.Schedules, hphase] at hi
    · simp only [Checkpoint.orphaned, hphase]
      exact mem_cons_of_mem _ hi
    · simp only [PhaseQuiet, hphase] at hquiet
      obtain ⟨p, hp, rfl⟩ := mem_map.1 hi
      obtain ⟨hp, hne⟩ := mem_filter.1 hp
      refine (mem_cons.1 (hquiet _ (mem_map_of_mem hp))).resolve_left ?_
      simpa using hne
  case h_8 hphase =>
    cases hstep
    refine h.setPhase hc (by rw [hphase]; rfl) (htracked.idle hc (by simp [Checkpoint.Schedules, hphase]) (.inl rfl)) (by simp)
      fun _ hquiet ↦ ?_
    simp only [PhaseQuiet, hphase] at hquiet
    exact map_eq_nil_iff.1 (eq_nil_iff_forall_not_mem.2 fun ino hino ↦ not_mem_nil (hquiet ino hino))
  case h_9 hphase =>
    cases hstep
    refine h.setPhase hc (by rw [hphase]; rfl) (htracked.idle hc (by simp [Checkpoint.Schedules, hphase]) (.inr (.inl rfl)))
      (by simp) fun _ hquiet ↦ ?_
    simp only [PhaseQuiet, hphase] at hquiet
    exact hquiet
  case h_10 hphase =>
    split at hstep
    next hash taken htaken =>
      cases hstep
      have hsub : ∀ i ∈ taken.map (·.1), i ∈ c.taken.map (·.1) := by
        intro i hi
        rw [htaken]
        exact mem_cons_of_mem _ hi
      refine ⟨h.counts.decrement (perm_iff_count.2 fun k ↦ ?_), htracked.proceed hc (fun i hi ↦ ?_)
        (fun _ hi ↦ .inl hi) (fun i hi ↦ .inl (hsub i hi)) (fun i _ _ hi ↦ hi)
        (fun i hi ↦ (htracked.guarded c hc).2 i (hsub i hi)) (fun i hi ↦ .inl hi) (fun i hi ↦ ?_),
        h.quiet.proceed hc (by simp [hphase]) fun _ hquiet ↦ ?_⟩
      · rw [count_cons, count_held, count_held, hc]
        simp only [setCheckpoint, unpin, elim_some, htaken, map_cons, count_append, count_cons]
        omega
      · simp [Checkpoint.Schedules, hphase] at hi
      · simp [finalizing, State.proceed, hphase] at hi
      · simp only [PhaseQuiet, hphase] at hquiet ⊢
        exact hquiet
    next htaken =>
      cases hstep
      refine h.setPhase hc (by rw [hphase]; rfl) (htracked.idle hc (by simp [Checkpoint.Schedules, hphase]) (.inr (.inr rfl)))
        (fun _ ↦ htaken) fun _ hquiet ↦ ?_
      simp only [PhaseQuiet, hphase] at hquiet
      exact hquiet
  case h_11 hphase =>
    cases hstep
    refine ⟨h.counts.perm ?_, htracked.endCheckpoint hc (fun _ hino ↦ ?_) (fun _ hmem ↦ .inl hmem),
      by simp [setCheckpoint], by simp [setCheckpoint]⟩
    · simp only [held, setCheckpoint, hc, elim_some, elim_none, h.quiet.released c hc hphase, hphase, Phase.inFlight,
        map_nil, append_nil]
      exact .refl _
    · exact hino.resolve_right (by simp [Checkpoint.Schedules, hphase])

/-- A step of the commit of a session's tail. -/
theorem commit {pinned pinned' : Option Hash} {todo : List (Ino × InodeKind)} (hc : s.checkpoint = some c)
    {counts : Hash → Nat} {pins : List (Ino × Hash)} (hphase : c.phase = .finalize ino pinned todo)
    (hpins : ∀ i ∈ pins.map (·.1), i ∈ s.pinsByIno.map (·.1) ∨ i = ino)
    (hcounts : Counts counts (s.proceed counts pins { c with phase := .finalize ino pinned' todo }).held) :
    (s.proceed counts pins { c with phase := .finalize ino pinned' todo }).Balanced :=
  ⟨hcounts, h.tracked.setPinned hc hphase hpins, h.quiet.proceed hc (by simp) fun _ _ ↦ trivial⟩

theorem step (hC : s.NumbersHandedOut a) (hstep : s.step a = some t) : t.Balanced := by
  obtain ⟨hC, hlimit⟩ := hC
  have hlt : ∀ {ino kind}, s.inodes.lookup ino = some kind → ino < s.nextIno :=
    fun hkind ↦ hC (_, _) (Table.mem_toList.2 hkind)
  have hcounts := h.counts
  cases a with
  | create =>
    cases hstep
    refine h.others { next := Nat.le_succ _, inodes := fun ino hino k hk ↦ ?_, dirty := ?_ } hcounts
    · rwa [create, Table.lookup_insert_eq, if_neg (Nat.ne_of_lt hino)] at hk
    · exact fun ino hmem _ ↦ mem_insert_of_mem hmem
  | remove =>
    cases hstep
    refine h.others { inodes := fun i _ k hk ↦ ?_, dirty := fun i hmem hsome ↦ ?_ } hcounts
    · exact (Table.of_lookup_erase hk).2
    · refine mem_filter.2 ⟨hmem, ?_⟩
      obtain ⟨k, hk⟩ := isSome_iff_exists.1 hsome
      simpa using (Table.of_lookup_erase hk).1
  | markDirty =>
    obtain ⟨-, ⟨⟩⟩ := ite_none_right_eq_some.1 hstep
    exact h.others { dirty := fun _ hmem _ ↦ mem_insert_of_mem hmem } hcounts
  | check =>
    obtain ⟨hfile, ⟨⟩⟩ := ite_none_right_eq_some.1 hstep
    refine h.others { waiting := fun i hmem ↦ ?_ } hcounts
    rcases mem_cons.1 hmem with rfl | hmem
    · exact .inr ⟨hlt hfile, hfile⟩
    · exact .inl hmem
  | giveUp =>
    cases hstep
    exact h.others { waiting := fun _ hmem ↦ .inl (mem_of_mem_erase hmem) } hcounts
  | lock =>
    obtain ⟨⟨hwaiting, hfree⟩, ⟨⟩⟩ := ite_none_right_eq_some.1 hstep
    refine h.others {
      dirty := fun _ hmem _ ↦ mem_insert_of_mem hmem
      waiting := fun _ hmem ↦ .inl (mem_of_mem_erase hmem)
      operations := fun i hmem ↦ ?_ } hcounts
    rcases mem_cons.1 hmem with rfl | hmem
    · exact .inr ⟨hwaiting, mem_insert_self, hfree⟩
    · exact .inl hmem
  | pin _ hash =>
    obtain ⟨hmem, ⟨⟩⟩ := ite_none_right_eq_some.1 hstep
    refine h.others { operations := fun i hi ↦ .inl (mem_map_setOperation (s := s.pin hash) hmem hi) }
      (hcounts.increment hlimit (perm_iff_count.2 fun k ↦ ?_))
    have hcount := count_setOperation (some hash) hmem k
    rw [count_cons, count_held, count_held]
    simp only [setOperation, pin, toList, count_nil, count_cons] at hcount ⊢
    omega
  | hit _ hash =>
    obtain ⟨hmem, ⟨⟩⟩ := ite_none_right_eq_some.1 hstep
    refine h.others {
      operations := fun i hi ↦ .inl (mem_map_setOperation (s := s) hmem hi)
      pins := fun i hi ↦ ?_ } (hcounts.perm (perm_iff_count.2 fun k ↦ ?_))
    · rcases mem_cons.1 hi with rfl | hi
      · exact .inr (mem_map_of_mem hmem)
      · exact .inl hi
    · have hcount := count_setOperation none hmem k
      rw [count_held, count_held]
      simp only [setOperation, toList, count_nil, count_cons, map_cons] at hcount ⊢
      omega
  | miss _ hash =>
    obtain ⟨hmem, ⟨⟩⟩ := ite_none_right_eq_some.1 hstep
    refine h.others { operations := fun i hi ↦ .inl (mem_map_setOperation (s := s.unpin hash) hmem hi) }
      (hcounts.decrement (perm_iff_count.2 fun k ↦ ?_))
    have hcount := count_setOperation none hmem k
    rw [count_cons, count_held, count_held]
    simp only [setOperation, unpin, toList, count_nil, count_cons] at hcount ⊢
    omega
  | unlock =>
    obtain ⟨hmem, ⟨⟩⟩ := ite_none_right_eq_some.1 hstep
    refine h.others { operations := fun i hi ↦ .inl ?_ } (hcounts.perm (perm_iff_count.2 fun k ↦ ?_))
    · obtain ⟨p, hp, rfl⟩ := mem_map.1 hi
      exact mem_map_of_mem (mem_of_mem_erase hp)
    · have hcount := ((perm_cons_erase hmem).filterMap (·.2)).count_eq k
      rw [count_held, count_held]
      simp only [filterMap_cons] at hcount ⊢
      omega
  | beginLedger =>
    obtain ⟨hnone, ⟨⟩⟩ := ite_none_right_eq_some.1 hstep
    refine h.others {} (hcounts.perm ?_)
    rw [held, held, isNone_iff_eq_none.1 hnone]
    exact .refl _
  | ledgerPin hash =>
    simp only [State.step] at hstep
    split at hstep
    next hashes hledger =>
      cases hstep
      refine h.others {} (hcounts.increment hlimit (perm_iff_count.2 fun k ↦ ?_))
      rw [count_cons, count_held, count_held, hledger]
      simp only [pin, elim_some, toList, count_append, count_nil, count_cons]
      omega
    · cases hstep
  | ledgerKeep =>
    simp only [State.step] at hstep
    split at hstep
    next hashes hash hledger =>
      cases hstep
      refine h.others {} (hcounts.perm (perm_iff_count.2 fun k ↦ ?_))
      rw [count_held, count_held, hledger]
      simp only [elim_some, toList, count_append, count_nil, count_cons]
      omega
    · cases hstep
  | ledgerMiss | ledgerRelease =>
    simp only [State.step] at hstep
    split at hstep
    next hledger =>
      cases hstep
      refine h.others {} (hcounts.decrement (perm_iff_count.2 fun k ↦ ?_))
      rw [count_cons, count_held, count_held, hledger]
      simp only [unpin, elim_some, toList, count_append, count_nil, count_cons]
      omega
    · cases hstep
  | endLedger =>
    simp only [State.step] at hstep
    split at hstep
    next hledger =>
      cases hstep
      refine h.others {} (hcounts.perm ?_)
      rw [held, held, hledger]
      exact .refl _
    · cases hstep
  | beginCheckpoint =>
    obtain ⟨hnone, ⟨⟩⟩ := ite_none_right_eq_some.1 hstep
    have hnone := isNone_iff_eq_none.1 hnone
    have htracked := h.tracked
    refine ⟨hcounts.perm ?_, ⟨fun ino hinvolved ↦ htracked.files ino ?_, fun ino hmem hsome ↦ .inr ⟨_, rfl, ?_⟩, ?_, ?_,
      by simp [finalizing]⟩, ?_, ?_⟩
    · rw [held, held, hnone]
      exact .refl _
    · rcases hinvolved with hmem | hmem | hmem | ⟨c, hc, hcheckpoint⟩
      · exact .inl hmem
      · exact .inr (.inl hmem)
      · exact .inr (.inr (.inl hmem))
      · cases hc
        simp at hcheckpoint
    · rcases htracked.tracked ino hmem hsome with hdirty | ⟨c, hc, -⟩
      · exact hdirty
      · simp [hnone] at hc
    · rintro c ⟨⟩
      exact ⟨fun ino hino ↦ hino, by simp⟩
    · rintro c ⟨⟩
      simp [Checkpoint.orphaned]
    · rintro c ⟨⟩ hphase
      cases hphase
    · rintro c ⟨⟩ halone
      simp only [Bool.and_eq_true, List.isEmpty_iff, isNone_iff_eq_none] at halone
      exact ⟨halone.1.1, halone.1.2, halone.2, rfl, trivial⟩
  | checkpointPin hash =>
    obtain ⟨c, hc, hpin⟩ := bind_eq_some_iff.1 hstep
    split at hpin
    next hphase =>
      cases hpin
      refine h.commit hc hphase (fun _ hi ↦ .inl hi) (hcounts.increment hlimit (perm_iff_count.2 fun k ↦ ?_))
      rw [count_cons, count_held, count_held, hc]
      simp only [State.proceed, pin, elim_some, hphase, Phase.inFlight, count_append,
        count_nil, count_cons]
      omega
    · cases hpin
  | checkpointHit =>
    obtain ⟨c, hc, hhit⟩ := bind_eq_some_iff.1 hstep
    split at hhit
    next hash _ hphase =>
      cases hhit
      refine h.commit hc hphase (fun i hi ↦ ?_) (hcounts.perm (perm_iff_count.2 fun k ↦ ?_))
      · rcases mem_cons.1 hi with rfl | hi
        · exact .inr rfl
        · exact .inl hi
      · rw [count_held, count_held, hc]
        simp only [State.proceed, elim_some, hphase, Phase.inFlight, count_append,
          count_nil, count_cons, map_cons]
        omega
    · cases hhit
  | checkpointMiss =>
    obtain ⟨c, hc, hmiss⟩ := bind_eq_some_iff.1 hstep
    split at hmiss
    next hash _ hphase =>
      cases hmiss
      refine h.commit hc hphase (fun _ hi ↦ .inl hi) (hcounts.decrement (perm_iff_count.2 fun k ↦ ?_))
      rw [count_cons, count_held, count_held, hc]
      simp only [State.proceed, unpin, elim_some, hphase, Phase.inFlight, count_append,
        count_nil, count_cons]
      omega
    · cases hmiss
  | checkpointStep =>
    obtain ⟨c, hc, hcheckpoint⟩ := bind_eq_some_iff.1 hstep
    exact h.checkpointStep hC hc hcheckpoint
  | failCheckpoint =>
    obtain ⟨c, hc, hfail⟩ := bind_eq_some_iff.1 hstep
    obtain ⟨hphase, rfl⟩ := failCheckpoint_eq_some hfail
    obtain ⟨hschedules, htaken⟩ := h.tracked.guarded c hc
    refine ⟨hcounts.perm (perm_iff_count.2 fun k ↦ ?_), h.tracked.endCheckpoint hc (fun ino hino ↦ ?_)
      (fun ino hmem ↦ ?_), by simp, by simp⟩
    · rw [count_held, count_held, hc]
      simp only [elim_some, elim_none, hphase, map_append, count_append, count_nil]
      omega
    · exact mem_union_iff.2 (hino.imp_right (hschedules ino))
    · rw [map_append, mem_append] at hmem
      rcases hmem with hmem | hmem
      · exact .inr ⟨hmem, fun hsome ↦ mem_union_iff.2 (.inr (htaken ino hmem hsome))⟩
      · exact .inl hmem

end

end Balanced

theorem Balanced.of_reachableUnder (h : (pinning Hash).ReachableUnder NumbersHandedOut s) : s.Balanced :=
  h.invariant (fun _ ↦ Balanced.init) fun _ _ _ _ hs hC hstep ↦ hs.step hC hstep

/-- A step that gives a pin back is one of a pin that is held. -/
theorem mem_held_of_released {hash : Hash} (hstep : s.step a = some t) (h : s.released a = some hash) :
    hash ∈ s.held := by
  simp only [held, mem_append]
  cases a with
  | miss =>
    cases h
    obtain ⟨hmem, -⟩ := ite_none_right_eq_some.1 hstep
    exact .inr (mem_filterMap.2 ⟨_, hmem, rfl⟩)
  | ledgerMiss =>
    obtain ⟨l, hl, hpinned⟩ := bind_eq_some_iff.1 h
    exact .inl (.inr (by simp [hl, hpinned]))
  | ledgerRelease =>
    obtain ⟨l, hl, hhead⟩ := bind_eq_some_iff.1 h
    exact .inl (.inr (by simp [hl, mem_of_mem_head? hhead]))
  | checkpointMiss =>
    obtain ⟨c, hc, hhead⟩ := bind_eq_some_iff.1 h
    exact .inl (.inl (.inr (by simp [hc, mem_of_mem_head? hhead])))
  | checkpointStep =>
    obtain ⟨c, hc, htaken⟩ := bind_eq_some_iff.1 h
    refine .inl (.inl (.inr ?_))
    rw [hc]
    split at htaken
    · exact mem_append_left _ (mem_of_mem_head? htaken)
    · cases htaken
  | _ => cases h

/-- The last step of a checkpoint that ran alone leaves nothing held. -/
theorem Balanced.held_eq_nil (h : s.Balanced) (hc : s.checkpoint = some c)
    (hphase : c.phase = .superblock) (halone : c.alone = true) : s.held = [] := by
  obtain ⟨-, hoperations, hledger, -, hquiet⟩ := h.quiet.alone c hc halone
  have hpins : s.pinsByIno = [] := by simpa only [PhaseQuiet, hphase] using hquiet
  rw [held, hpins, hoperations, hledger, hc]
  simp [h.quiet.released c hc hphase, hphase, Phase.inFlight]

end State

open State

variable {Hash : Type} [DecidableEq Hash]

/-- In every state of a run every count is the number of pins held, and no pin is given back that is
not held. The step that ends a checkpoint leaves no pin at all, if nothing else ran since the
checkpoint began. -/
theorem pins_are_conserved {s : State Hash} (h : (pinning Hash).ReachableUnder NumbersHandedOut s) :
    (∀ hash, s.refcounts hash = s.held.count hash) ∧
      (∀ a t hash, (pinning Hash).step s a = some t → s.released a = some hash → 0 < s.refcounts hash) ∧
      (∀ c t, s.checkpoint = some c → c.phase = .superblock → c.alone = true →
        (pinning Hash).step s .checkpointStep = some t → ∀ hash, t.refcounts hash = 0) := by
  have hs := Balanced.of_reachableUnder h
  refine ⟨hs.counts, fun a t hash hstep hreleased ↦ ?_, fun c t hc hphase halone hstep hash ↦ ?_⟩
  · exact hs.counts.pos_of_mem (mem_held_of_released hstep hreleased)
  · obtain ⟨_, hc', hlast⟩ := bind_eq_some_iff.1 hstep
    cases hc.symm.trans hc'
    simp only [State.checkpointStep, hphase, some.injEq] at hlast
    subst hlast
    have hcount := hs.counts hash
    rwa [hs.held_eq_nil hc hphase halone] at hcount

/-- A mount that found a root directory and a file. -/
def mounted (nextIno : Ino) : State Nat where
  inodes := ((∅ : Table Ino InodeKind).insert 1 .directory).insert 2 .file
  nextIno := nextIno
  dirty := []
  refcounts := fun _ ↦ 0
  pinsByIno := []
  waiting := []
  operations := []
  ledger := none
  checkpoint := none

theorem mounted_init (nextIno : Ino) : (pinning Nat).init (mounted nextIno) :=
  ⟨fun _ ↦ rfl, rfl, rfl, rfl, rfl, rfl⟩

/-- A write that finds the chunk with hash 7. -/
def dedupWrite : List (Action Nat) :=
  [.check 2, .lock 2, .pin 2 7, .hit 2 7, .unlock 2]

def wholeCheckpoint (steps : Nat) : List (Action Nat) :=
  .beginCheckpoint :: List.replicate steps .checkpointStep

/-- The file's chunk is a duplicate; the checkpoint that publishes the file gives the pin back. -/
theorem pins_are_conserved_write : ∃ s t, (pinning Nat).ReachableUnder NumbersHandedOut s ∧
    (∀ hash, s.refcounts hash = s.held.count hash) ∧ (pinning Nat).step s .checkpointStep = some t ∧
      (∀ hash, t.refcounts hash = 0) := by
  obtain ⟨s, t, hs, hstep, c, hc, hphase, halone⟩ : ∃ s t, (pinning Nat).ReachableUnder NumbersHandedOut s ∧
      (pinning Nat).step s .checkpointStep = some t ∧ ∃ c ∈ s.checkpoint, c.phase = .superblock ∧ c.alone = true :=
    Machine.exists_step_of_run (mounted_init 3) (dedupWrite ++ wholeCheckpoint 8) (by decide +kernel)
  obtain ⟨hcounts, -, hzero⟩ := pins_are_conserved hs
  exact ⟨s, t, hs, hcounts, hstep, hzero c t hc hphase halone hstep⟩

/-- The mount recovered a file with the number it hands out next. The file takes a pin, a new
directory takes the file's number, and a checkpoint then captures no file and finds no list
without an inode: it ends with nothing else running and the pin still counted. -/
theorem checkpoint_leaves_pin : ∃ s t, (pinning Nat).Reachable s ∧
    (s.checkpoint.any fun c ↦ c.phase = .superblock && c.alone) = true ∧
      (pinning Nat).step s .checkpointStep = some t ∧ t.refcounts 7 = 1 := by
  obtain ⟨s, t, hs, hstep, halone, hcount⟩ : ∃ s t, (pinning Nat).Reachable s ∧
      (pinning Nat).step s .checkpointStep = some t ∧
      (s.checkpoint.any fun c ↦ c.phase = .superblock && c.alone) = true ∧ t.refcounts 7 = 1 :=
    Machine.exists_step_of_run (mounted_init 2) (dedupWrite ++ .create .directory :: wholeCheckpoint 6)
      (by decide +kernel)
  exact ⟨s, t, hs, halone, hstep, hcount⟩

end Lchfs.Pins
