import Lchfs.Reclaim.Handshake

/-!
# No referenced record is lost

The steps of a pass past its gate, and what follows for whole runs: no step takes the last
copy of a record that a session, a file, a captured inode or a retained root references.
-/

set_option linter.unusedSectionVars false

namespace Lchfs.Reclaim

open Lchfs.Format (Ino ShardId SegmentId)
open Lchfs.Library
open List Option

variable {Dev Hash : Type} [DecidableEq Dev] [DecidableEq Hash]

namespace State

variable {setup : Setup Dev} {s t : State Dev Hash} {p : Pass Dev Hash} {r : Repack Dev Hash}
  {hash : Hash} {settled strict : Bool} {a : Action Dev Hash} {ino : Ino} {dev : Dev}

section PassSteps

variable {p' : Pass Dev Hash} {removed : List (Hash × Location × Dev)}

theorem PinnedHit.isPinned (h : s.PinnedHit hash) : s.isPinned hash = true := by
  obtain ⟨ino, h | h⟩ := h <;> exact any_eq_true.2 ⟨_, h, by simp⟩

/-- The steps of a pass between its gate and the deletion. -/
theorem Sweeps.pastGate (hst : Sweeps setup s a t) (hp' : t.pass = some p')
    (hgate : p'.stage.isPastGate = true) : t.segments = s.segments ∧ ∃ p, s.pass = some p ∧
      ((∃ r removed, p.stage = .loadGeneration r removed ∧ s.publishedGeneration = p.generation ∧
          p'.stage = .checkPins r r.dead removed) ∨
        p.stage.isPastGate = true ∧ p'.stage.repack = p.stage.repack ∧
          ∀ hash ∈ p.stage.unchecked, hash ∈ p'.stage.unchecked ∨ s.isPinned hash = false) := by
  cases hst with
  | stop => simp at hp'
  | turn hp hstage hturns =>
    cases hp'
    refine ⟨rfl, _, hp, ?_⟩
    cases hturns with
    | current heq => exact .inl ⟨_, _, hstage, heq, rfl⟩
    | unpinned hpinned =>
      refine .inr ⟨by simp [hstage], by simp [hstage, Stage.repack], fun _ hmem ↦ ?_⟩
      rw [hstage] at hmem
      rcases mem_cons.1 hmem with rfl | hmem
      · exact .inr hpinned
      · exact .inl hmem
    | checked => exact .inr ⟨by simp [hstage], by simp [hstage, Stage.repack], by simp [hstage, Stage.unchecked]⟩
    | _ => simp at hgate
  | forget hp hstage =>
    cases hp'
    exact ⟨rfl, _, hp, .inr ⟨by simp [hstage], by simp [hstage, Stage.repack], by simp [hstage, Stage.unchecked]⟩⟩
  | _ =>
    cases hp'
    simp at hgate

theorem PassFrame.protected (h : s.PassFrame t) : t.Protected hash ↔ s.Protected hash := by
  simp only [Protected, Referenced, Lists, Content, Captured, PinnedHit, h.pins, h.inodes, h.sessions,
    h.fileState, h.ops, h.checkpoint, h.publishedRoot, h.snapshotTable]

section Invariant

variable (h : s.HandshakeInv setup settled strict)

include h

theorem HandshakeInv.backed (hp : s.pass = some p)
    (hstage : p.stage = .loadGeneration r removed) (hgen : s.publishedGeneration = p.generation)
    (hbacked : s.Backed (settled = true) ino hash) :
    hash ∈ p.live ∨ s.PinnedHit hash ∨ s.Spare false r.dev r.oldId hash := by
  have hroot := h.pass p hp
  have hold : s.Old r := (h.passInv p hp).old (by rw [hstage]; rfl)
  rcases hbacked with hmem | hpin | ⟨hpin, _⟩ | hfresh | ⟨hunsettled, hmount⟩
  · refine .inl ((hroot.marks hash ?_).mem_live (by simp [hstage, Stage.repack]))
    rwa [hroot.published hgen.symm]
  · exact .inr (.inl ⟨ino, .inl hpin⟩)
  · exact .inr (.inl ⟨ino, .inr hpin⟩)
  · exact .inr (.inr (hfresh.spare le_rfl h.copies hold))
  · have hlt := hroot.settled.resolve_left hunsettled
    omega

/-- What is protected when a pass finds its generation to be the published one. -/
theorem HandshakeInv.gate_entry {offset : Nat} (hp : s.pass = some p)
    (hstage : p.stage = .loadGeneration r removed) (hgen : s.publishedGeneration = p.generation)
    (hprotected : s.Protected hash) (hin : s.InOld r hash offset) :
    s.Spare false r.dev r.oldId hash ∨ hash ∈ r.dead ∧ s.PinnedHit hash := by
  have hroot := h.pass p hp
  have hinv := h.passInv p hp
  rw [hstage] at hinv
  have hrepointed : Repointed false s p.live r := hinv
  have hcase : hash ∈ p.live ∨ s.PinnedHit hash ∨ s.Spare false r.dev r.oldId hash := by
    have hlive : Marks s.snapshotTable p hash → hash ∈ p.live := fun hmarks ↦
      hmarks.mem_live (by simp [hstage, Stage.repack])
    rcases hprotected with (⟨ino, hlists⟩ | ⟨ino, hcontent⟩ | hcaptured | hpublished | htable) | hpin
    · have hlinked : s.Linked ino := by
        by_contra hnot
        exact h.tidy.not_lists hnot hlists
      exact h.backed hp hstage hgen ((h.covered.listed ino hash hlinked hlists).backed h.covered)
    · exact h.backed hp hstage hgen (h.covered.content ino hash hcontent)
    · obtain ⟨c, hc, hlate, hmem⟩ := hcaptured
      obtain ⟨ino, chunks, hentry, hmem⟩ := InoMap.mem_hashes.1 hmem
      exact h.backed hp hstage hgen (h.covered.snapshot c.inoSnapshot (by simp [lateSnapshot, hc, hlate])
        ino chunks hash hentry hmem)
    · exact .inl (hlive (hroot.marks hash (by rwa [hroot.published hgen.symm])))
    · obtain ⟨entry, hentry, hmem⟩ := mem_flatMap.1 htable
      rcases hroot.table entry hentry with hlt | hmarks
      · omega
      · exact .inl (hlive (hmarks hash hmem))
    · exact .inr (.inl hpin)
  rcases hrepointed.listed hash offset hin with hkept | hdead
  · exact .inl (hrepointed.kept hash hkept)
  · rcases hcase with hlive | hpin | hspare
    · exact .inl ((hrepointed.live hash hdead hlive).elim id (hrepointed.kept hash))
    · exact .inr ⟨hdead, hpin⟩
    · exact .inl hspare

theorem Gate.sweeps (hst : Sweeps setup s a t) (hp' : t.pass = some p') :
    t.Gate setup strict p'.stage := by
  intro hgate r hr hash offset hprotected hin
  have hframe := hst.frame
  obtain ⟨hsegments, p, hp, hcase⟩ := hst.pastGate hp' hgate
  have hasAt : ∀ dev loc, s.HasAt false dev loc hash → t.HasAt false dev loc hash := fun _ _ h ↦ by
    rwa [HasAt, hsegments]
  have hpinned : s.PinnedHit hash → t.PinnedHit hash := fun h ↦ by rwa [PinnedHit, hframe.pins]
  have hprotected := hframe.protected.1 hprotected
  have hin : s.InOld r hash offset := by rwa [InOld, HasAt, ← hsegments]
  rcases hcase with ⟨_, _, hstage, hgen, hstage'⟩ | ⟨hgate', hrepack, hunchecked⟩
  · rw [hstage'] at hr ⊢
    cases hr
    rcases h.gate_entry hp hstage hgen hprotected hin with hspare | ⟨hdead, hpin⟩
    · exact .inl (.mono (.inl hspare) hasAt)
    · exact .inr ⟨hdead, hpinned hpin⟩
  · rcases h.gate p hp hgate' r (hrepack ▸ hr) hash offset hprotected hin with helse | ⟨htodo, hpin⟩
    · exact .inl (helse.mono hasAt)
    · refine .inr ⟨(hunchecked hash htodo).resolve_right ?_, hpinned hpin⟩
      simp [hpin.isPinned]

theorem PassRoot.sweeps (horder : s.KeepsOrder setup settled strict a)
    (hst : Sweeps setup s a t) (hp' : t.pass = some p') : t.PassRoot settled p' := by
  have hframe := hst.frame
  have hmoved : s.PassRoot settled p' → t.PassRoot settled p' := by
    rintro ⟨h1, h2, h3, h4, h5, h6⟩
    constructor <;> simp only [hframe.generation, hframe.root, hframe.publishedGeneration,
      hframe.publishedRoot, hframe.snapshotTable, hframe.mountGeneration] <;> assumption
  refine hmoved ?_
  rcases hst.continues hp' with ⟨rfl, rfl⟩ | ⟨p, hp, hcont⟩
  · refine ⟨le_rfl, fun _ ↦ rfl, fun heq ↦ h.generations.root_eq heq, fun hash hmem ↦ .inr (.inl hmem),
      fun entry hentry ↦ .inr fun hash hmem ↦ .inr (.inr (mem_flatMap.2 ⟨entry, hentry, hmem⟩)),
      horder.imp_right fun hlt ↦ ?_⟩
    show s.mountGeneration < s.generation
    by_cases hphase : ∃ c, s.checkpoint = some c ∧ c.phase = .publishGeneration
    · obtain ⟨c, hc, hphase⟩ := hphase
      have := (h.generations.publishGeneration c hc hphase).1
      omega
    · rw [(h.generations.quiet fun c hc hpub ↦ hphase ⟨c, hc, hpub⟩).1]
      exact hlt
  · obtain ⟨h1, h2, h3, h4, h5, h6⟩ := h.pass p hp
    exact ⟨hcont.generation ▸ h1, hcont.generation ▸ hcont.root ▸ h2, hcont.generation ▸ hcont.root ▸ h3,
      fun hash hmem ↦ hcont.marks hash (h4 hash (hcont.root ▸ hmem)),
      fun entry hentry ↦ hcont.generation ▸ (h5 entry hentry).imp_right fun hmarks hash hmem ↦
        hcont.marks hash (hmarks hash hmem), hcont.generation ▸ h6⟩

theorem HandshakeInv.sweeps (horder : s.KeepsOrder setup settled strict a)
    (hst : Sweeps setup s a t) : t.HandshakeInv setup settled strict := by
  have hswept : Swept false s t := hst.swept h.copies h.passInv (by simp)
  exact ⟨hswept.copies, hst.frame.generations h.generations, hswept.passInv,
    h.cache.sweeps h.copies h.passInv hst, h.tidy.sweeps hst,
    h.covered.pass h.copies h.passInv hst.frame hswept,
    fun p' hp' ↦ .sweeps h horder hst hp', fun _ hp' ↦ Gate.sweeps h hst hp'⟩

theorem HandshakeInv.step (horder : s.KeepsOrder setup settled strict a)
    (hst : s.step setup a = some t) : t.HandshakeInv setup settled strict := by
  cases ha : a.isPass
  · exact h.environment ha horder hst
  · exact h.sweeps horder (pass_sweeps ha hst)

/-- No step takes the last copy on a device of what is protected. -/
theorem HandshakeInv.retains (hst : s.step setup a = some t) (hprotected : s.Protected hash)
    (hholds : s.Holds dev hash) :
    t.Holds dev hash ∨ strict = false ∧ t.Holds setup.primary hash := by
  obtain ⟨loc, hat⟩ := hholds
  cases ha : a.isPass
  · obtain ⟨_, hgrows, _⟩ := environment_step h.copies h.generations ha hst
    exact .inl ⟨loc, hgrows.hasAt _ _ _ _ hat⟩
  · have hswept : Swept false s t := (pass_sweeps ha hst).swept h.copies h.passInv (by simp)
    rcases hswept.hasAt _ _ _ _ hat with hat | ⟨p, r, hp, hstage, rfl, hid⟩
    · exact .inl ⟨loc, hat⟩
    · -- only the segment under deletion goes, and the gate has seen to another copy
      have hkept : ∀ dev' loc', s.HasAt false dev' loc' hash → ¬(dev' = r.dev ∧ loc'.segmentId = r.oldId) →
          t.HasAt false dev' loc' hash := by
        intro _ _ hat' hother
        refine (hswept.hasAt _ _ _ _ hat').resolve_right ?_
        rintro ⟨_, _, hp', hstage', hdev', hid'⟩
        cases hp.symm.trans hp'
        cases hstage.symm.trans hstage'
        exact hother ⟨hdev', hid'⟩
      obtain ⟨id, offset⟩ := loc
      obtain rfl : id = r.oldId := hid
      have hgate := h.gate p hp (by simp [hstage]) r (by rw [hstage]; rfl) hash offset
        hprotected hat
      rcases hgate with (⟨loc', hat', hne⟩ | ⟨hstrict, hdev, loc', hat'⟩) | ⟨htodo, _⟩
      · exact .inl ⟨loc', hkept _ _ hat' fun hcase ↦ hne hcase.2⟩
      · exact .inr ⟨hstrict, loc', hkept _ _ hat' fun hcase ↦ hdev hcase.1.symm⟩
      · simp [hstage, Stage.unchecked] at htodo

end Invariant

theorem handshakeInv_of_reachable
    (hs : (protocol setup (Recovers setup settled)).ReachableUnder (KeepsOrder setup settled strict) s) :
    s.HandshakeInv setup settled strict :=
  hs.invariant (fun _ (hs : _ ∧ _) ↦ hs.1.handshakeInv hs.2) fun _ _ _ _ h horder hst ↦ h.step horder hst

end PassSteps

/-- Whether the device has a record of the hash. -/
def holds (s : State Dev Hash) (dev : Dev) (hash : Hash) : Bool :=
  (range s.nextSegmentId).any fun id ↦ (s.segments dev id).any fun seg ↦ hash ∈ seg.records

theorem holds_iff (hcopies : s.Copies) : s.holds dev hash = true ↔ s.Holds dev hash := by
  rw [holds, List.any_eq_true]
  constructor
  · rintro ⟨id, _, hany⟩
    obtain ⟨seg, hseg, hmem⟩ := Option.any_eq_true _ _ |>.1 hany
    obtain ⟨offset, hoffset⟩ := mem_iff_getElem?.1 (of_decide_eq_true hmem)
    exact ⟨⟨id, offset⟩, seg, hseg, hoffset, by simp⟩
  · rintro ⟨loc, seg, hseg, hrecord, _⟩
    refine ⟨loc.segmentId, mem_range.2 (hcopies.allocated _ _ _ hseg), ?_⟩
    exact Option.any_eq_true _ _ |>.2 ⟨seg, hseg, decide_eq_true (mem_of_getElem? hrecord)⟩

theorem copies_of_reachable {I : State Dev Hash → Prop} {C : State Dev Hash → Action Dev Hash → Prop}
    (hs : (protocol setup I).ReachableUnder C s) : s.Copies := by
  have hinv : s.Copies ∧ s.Generations ∧ PassInv false s := by
    refine hs.invariant (I := fun s ↦ s.Copies ∧ s.Generations ∧ PassInv false s)
      (fun s (h : s.Mounted ∧ I s) ↦ ?_) ?_
    · exact ⟨h.1.copies, h.1.generations, fun p hp ↦ by simp [h.1.pass] at hp⟩
    · rintro s a t _ ⟨hcopies, hgen, hinv⟩ _ hst
      cases ha : a.isPass
      · obtain ⟨hcopies', hgrows, hgen'⟩ := environment_step hcopies hgen ha hst
        exact ⟨hcopies', hgen', hinv.grows hcopies hgrows⟩
      · have hsweeps := pass_sweeps ha hst
        have hswept : Swept false s t := hsweeps.swept hcopies hinv (by simp)
        exact ⟨hswept.copies, hsweeps.frame.generations hgen, hswept.passInv⟩
  exact hinv.1

section Runs

/-- A run that the kernel evaluates, and a step of the pass after it. -/
theorem run_then_step {I : State Unit Nat → Prop} {C : State Unit Nat → Action Unit Nat → Prop}
    [∀ s a, Decidable (C s a)] {u : State Unit Nat} {P : State Unit Nat → State Unit Nat → Prop}
    [∀ s t, Decidable (P s t)] (hu : u.Mounted ∧ I u) (actions : List (Action Unit Nat))
    (hrun : (((protocol oneDevice I).runUnder C u actions).any fun s ↦ (s.step oneDevice .passStep).any (P s ·)) = true) :
    ∃ s t, (protocol oneDevice I).ReachableUnder C s ∧ s.step oneDevice .passStep = some t ∧ s.Copies ∧ t.Copies ∧
      P s t := by
  obtain ⟨s, t, hreach, hst, hP⟩ := Machine.exists_step_of_run (M := protocol oneDevice I) hu actions hrun
  have hreach' : (protocol oneDevice I).Reachable t :=
    .step (a := .passStep) (hreach.mono fun _ _ _ ↦ trivial) trivial hst
  exact ⟨s, t, hreach, hst, copies_of_reachable hreach, copies_of_reachable hreach', hP⟩

/-- A pass that marks so many hashes and takes up the first segment. -/
def scanRun (marks : Nat) : List (Action Unit Nat) :=
  .beginPass :: replicate (marks + 3) .passStep ++ [.beginDevice (), .beginRepack 0]

/-- A dead chunk in the first segment. -/
def deadChunk : State Unit Nat :=
  .recovered oneDevice (fun _ ↦ [[7], [5], [6]]) 3 [(1, []), (2, [5, 6])] []

/-- A file that the delta logs have, and no root. -/
def replayedFile : State Unit Nat :=
  .recovered oneDevice (fun _ ↦ [[7], [5], [6]]) 3 [(2, [5, 6])] [(1, [7])]

theorem deadChunk_mounted : deadChunk.Mounted :=
  State.recovered_mounted oneDevice _ 3 _ _ fun _ ↦ le_rfl

theorem replayedFile_mounted : replayedFile.Mounted :=
  State.recovered_mounted oneDevice _ 3 _ _ fun _ ↦ le_rfl

theorem deadChunk_recovers : deadChunk.Recovers oneDevice true := by
  refine ⟨fun _ _ _ _ ↦ rfl, fun _ ino chunks hlookup ↦ ?_⟩
  exact (deadChunk_mounted.content ino chunks hlookup).2.resolve_left (not_mem_nil)

theorem replayedFile_recovers : replayedFile.Recovers oneDevice false :=
  ⟨fun _ _ _ _ ↦ rfl, by simp⟩

end Runs

/-- The pass finds the chunk dead, a writer dedups against it, and a checkpoint captures the
file; the pass loads the generation, the checkpoint publishes and releases its pins, and the
pass goes on to check the pins. -/
def raceRun : List (Action Unit Nat) :=
  scanRun 2 ++ replicate 4 .passStep ++ [.begin 1 .append [7], .pin 1, .lookup 1, .finish 1] ++
    [.beginCheckpoint, .checkpointStep, .checkpointStep, .beginCapture 1 [], .finishCapture 1] ++
    replicate 6 .checkpointStep ++ replicate 3 .passStep ++
    replicate 2 .checkpointStep ++ replicate 3 .passStep

end State

end Lchfs.Reclaim
