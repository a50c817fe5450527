import Lchfs.Reclaim.Coverage

/-!
# The handshake between writers, checkpoints and the coalescer

A writer pins before it looks up and keeps the pin of a hit; a checkpoint publishes its
generation before it releases pins; a pass takes the dead records out of the cache, looks
at the generation, checks the pins and only then deletes. `HandshakeInv` says what this
order gives: once a pass is past its gate, what is referenced in the segment it deletes
has another copy.

The code loads the generation before it checks the pins, so a checkpoint that publishes
and releases between the two defeats the gate; the results here are about runs in which
no pin is released while a pass checks pins.
-/

set_option linter.unusedSectionVars false

namespace Lchfs.Reclaim

open Lchfs.Format (Ino ShardId SegmentId)
open Lchfs.Library
open List Option

variable {Dev Hash : Type} [DecidableEq Dev] [DecidableEq Hash]

/-- The dead records whose pins a pass has yet to check. -/
def Stage.unchecked : Stage Dev Hash → List Hash
  | .checkPins _ todo _ => todo
  | _ => []

namespace State

variable {setup : Setup Dev} {s t : State Dev Hash} {p : Pass Dev Hash} {r : Repack Dev Hash}
  {hash : Hash} {settled strict : Bool} {a : Action Dev Hash} {ino : Ino}

section Pins

variable {owner : PinOwner} {hash' : Hash} {c : Checkpoint Hash}

/-- The chunk an operation is at. -/
def nextHash (s : State Dev Hash) (ino : Ino) : Option Hash :=
  (s.ops ino).bind (·.todo.head?)

/-- The next step of the checkpoint releases a pin. -/
def releasesPin (s : State Dev Hash) : Bool :=
  s.checkpoint.any (fun c ↦ c.phase = .release) && s.pins.any isCaptured

/-- The pins of an inode pass to the checkpoint and stay pins of hits. -/
theorem PinnedHit.of_capturePins (h : (s.capturePins ino).PinnedHit hash) : s.PinnedHit hash := by
  obtain ⟨ino', hpin⟩ := h
  simp only [capturePins, List.mem_map, Prod.exists] at hpin
  rcases hpin with ⟨owner, hash', hmem, heq⟩ | ⟨owner, hash', hmem, heq⟩ <;> split_ifs at heq with hcase
  · simp at heq
  · cases heq
    exact ⟨ino', .inl hmem⟩
  · obtain ⟨_, rfl⟩ := Prod.mk.inj heq
    obtain rfl : owner = .file ino := hcase
    exact ⟨ino, .inl hmem⟩
  · cases heq
    exact ⟨ino', .inr hmem⟩

theorem PinnedHit.of_restoreOnFailure (h : (s.restoreOnFailure c).PinnedHit hash) :
    s.PinnedHit hash := by
  obtain ⟨_, hpin⟩ := h
  simp only [restoreOnFailure, List.mem_map, Prod.exists] at hpin
  rcases hpin with ⟨owner, hash', hmem, heq⟩ | ⟨owner, hash', hmem, heq⟩ <;>
    cases owner <;> simp only [Prod.mk.injEq, PinOwner.file.injEq, reduceCtorEq, false_and] at heq
  · obtain ⟨rfl, rfl⟩ := heq
    exact ⟨_, .inl hmem⟩
  · obtain ⟨rfl, rfl⟩ := heq
    exact ⟨_, .inr hmem⟩

theorem PinnedHit.of_erase
    (h : PinnedHit { s with pins := s.pins.erase (owner, hash') } hash) : s.PinnedHit hash := by
  obtain ⟨ino, hpin⟩ := h
  exact ⟨ino, hpin.imp mem_of_mem_erase mem_of_mem_erase⟩

/-- The pins of an inode pass to the checkpoint and stay pins of hits. -/
theorem pinnedHit_capturePins (ino : Ino) : (s.capturePins ino).PinnedHit hash ↔ s.PinnedHit hash := by
  refine ⟨PinnedHit.of_capturePins, ?_⟩
  rintro ⟨owner, hpin | hpin⟩
  · by_cases heq : owner = ino
    · subst heq
      exact ⟨owner, .inr (captured_mem_capturePins hpin)⟩
    · exact ⟨owner, .inl (mem_capturePins hpin (by simpa using heq))⟩
  · exact ⟨owner, .inr (mem_capturePins hpin (by simp))⟩

theorem pinnedHit_restoreOnFailure : (s.restoreOnFailure c).PinnedHit hash ↔ s.PinnedHit hash := by
  refine ⟨PinnedHit.of_restoreOnFailure, ?_⟩
  rintro ⟨owner, hpin | hpin⟩ <;> exact ⟨owner, .inl (mem_map.2 ⟨_, hpin, rfl⟩)⟩

theorem pinnedHit_eraseOther (hfile : ∀ ino, owner ≠ .file ino)
    (hcaptured : ∀ ino, owner ≠ .captured ino) :
    PinnedHit { s with pins := s.pins.erase (owner, hash') } hash ↔ s.PinnedHit hash := by
  refine ⟨PinnedHit.of_erase, ?_⟩
  rintro ⟨ino, hpin⟩
  refine ⟨ino, hpin.imp (fun hmem ↦ ?_) fun hmem ↦ ?_⟩ <;>
    refine (mem_erase_of_ne fun heq ↦ ?_).2 hmem
  · exact hfile ino (Prod.mk.inj heq).1.symm
  · exact hcaptured ino (Prod.mk.inj heq).1.symm

theorem pinnedHit_cons :
    PinnedHit { s with pins := (owner, hash') :: s.pins } hash ↔ s.PinnedHit hash ∨
      hash = hash' ∧ ∃ ino, owner = .file ino ∨ owner = .captured ino := by
  simp only [PinnedHit, mem_cons, Prod.mk.injEq]
  constructor
  · rintro ⟨ino, (⟨rfl, rfl⟩ | hpin) | ⟨rfl, rfl⟩ | hpin⟩
    · exact .inr ⟨rfl, ino, .inl rfl⟩
    · exact .inl ⟨ino, .inl hpin⟩
    · exact .inr ⟨rfl, ino, .inr rfl⟩
    · exact .inl ⟨ino, .inr hpin⟩
  · rintro (⟨ino, hpin⟩ | ⟨rfl, ino, rfl | rfl⟩)
    · exact ⟨ino, hpin.imp .inr .inr⟩
    · exact ⟨ino, .inl (.inl ⟨rfl, rfl⟩)⟩
    · exact ⟨ino, .inr (.inl ⟨rfl, rfl⟩)⟩

theorem Advances.pins (hst : s.Advances c t) (hc : s.checkpoint = some c) :
    (∀ hash, t.PinnedHit hash ↔ s.PinnedHit hash) ∨
      s.releasesPin = true ∧ ∀ hash, t.PinnedHit hash → s.PinnedHit hash := by
  cases hst with
  | orphan => exact .inl fun hash ↦ pinnedHit_capturePins _
  | @release pin hphase hfind =>
    have hany : s.pins.any isCaptured = true :=
      any_eq_true.2 ⟨pin, mem_of_find?_eq_some hfind, find?_some hfind⟩
    exact .inr ⟨by simp [releasesPin, hc, hphase, hany], fun _ h ↦ PinnedHit.of_erase h⟩
  | _ => exact .inl fun _ ↦ Iff.rfl

/-- The pins of hits change only by a lookup that hits and by the release of a checkpoint. -/
theorem environment_pins (ha : a.isPass = false) (hst : s.step setup a = some t) :
    (∀ hash, t.PinnedHit hash ↔ s.PinnedHit hash) ∨
      (∃ ino hash, a = .lookup ino ∧ s.nextHash ino = some hash ∧ (s.cache hash).isSome ∧
        ∀ hash', t.PinnedHit hash' ↔ s.PinnedHit hash' ∨ hash' = hash) ∨
      a = .checkpointStep ∧ s.releasesPin = true ∧ ∀ hash, t.PinnedHit hash → s.PinnedHit hash := by
  cases environment_effect ha hst with
  | pin =>
    refine .inl fun hash' ↦ (pinnedHit_cons (s := s)).trans (or_iff_left ?_)
    simp
  | @hit ino _ hash _ _ hop hhit =>
    refine .inr (.inl ⟨ino, hash, rfl, by simp [nextHash, hop], hhit, fun hash' ↦ ?_⟩)
    have herase : PinnedHit { s with pins := s.pins.erase (.prepare ino, hash) } hash' ↔
        s.PinnedHit hash' := pinnedHit_eraseOther (by simp) (by simp)
    rw [← herase]
    exact (pinnedHit_cons (s := { s with pins := s.pins.erase (.prepare ino, hash) })).trans
      (or_congr_right ⟨fun h ↦ h.1, fun h ↦ ⟨h, ino, .inl rfl⟩⟩)
  | unpin => exact .inl fun _ ↦ pinnedHit_eraseOther (s := s) (by simp) (by simp)
  | commit =>
    rw [append_eq]
    exact .inl fun _ ↦ Iff.rfl
  | records heq =>
    subst heq
    exact .inl fun _ ↦ Iff.rfl
  | checkpointStep hc hadvances => exact (hadvances.pins hc).imp_right fun h ↦ .inr ⟨rfl, h⟩
  | finishCapture =>
    rw [captureFile_eq]
    exact .inl fun hash ↦ pinnedHit_capturePins _
  | failCheckpoint => exact .inl fun _ ↦ pinnedHit_restoreOnFailure
  | _ => exact .inl fun _ ↦ Iff.rfl

end Pins

section Gate

def Holds (s : State Dev Hash) (dev : Dev) (hash : Hash) : Prop :=
  ∃ loc, s.HasAt false dev loc hash

/-- What a pass must not take the last copy of. -/
def Protected (s : State Dev Hash) (hash : Hash) : Prop :=
  s.Referenced hash ∨ s.PinnedHit hash

/-- A copy outside the segment on its device or, if not `strict`, on the primary. -/
def Elsewhere (setup : Setup Dev) (strict : Bool) (s : State Dev Hash) (r : Repack Dev Hash)
    (hash : Hash) : Prop :=
  s.Spare false r.dev r.oldId hash ∨
    strict = false ∧ r.dev ≠ setup.primary ∧ s.Holds setup.primary hash

/-- Past the gate, what is protected has another copy or is pinned and still to be checked. -/
def Gate (setup : Setup Dev) (strict : Bool) (s : State Dev Hash) (stage : Stage Dev Hash) : Prop :=
  stage.isPastGate = true → ∀ r, stage.repack = some r → ∀ hash offset, s.Protected hash →
    s.InOld r hash offset →
      s.Elsewhere setup strict r hash ∨ hash ∈ stage.unchecked ∧ s.PinnedHit hash

/-- How a running pass relates to the published root and to the snapshot table. -/
structure PassRoot (settled : Bool) (s : State Dev Hash) (p : Pass Dev Hash) : Prop where
  le : p.generation ≤ s.generation
  current : p.generation = s.generation → p.root = s.root
  published : p.generation = s.publishedGeneration → p.root = s.publishedRoot
  marks : ∀ hash ∈ p.root.hashes, Marks s.snapshotTable p hash
  table : ∀ entry ∈ s.snapshotTable, p.generation < s.publishedGeneration ∨
    ∀ hash ∈ entry.hashes, Marks s.snapshotTable p hash
  settled : settled = true ∨ s.mountGeneration < p.generation

structure HandshakeInv (setup : Setup Dev) (settled strict : Bool) (s : State Dev Hash) : Prop where
  copies : s.Copies
  generations : s.Generations
  passInv : PassInv false s
  cache : s.CacheInv setup
  tidy : s.Tidy
  covered : Covered (settled = true) s
  pass : ∀ p, s.pass = some p → s.PassRoot settled p
  gate : ∀ p, s.pass = some p → s.Gate setup strict p.stage

def isCheckingPins (s : State Dev Hash) : Bool :=
  s.pass.any fun p ↦ !p.stage.unchecked.isEmpty

/-- The table only retains entries it has, or the root that is current and published. -/
def retainsRoot (s : State Dev Hash) (table : List (InoMap Hash)) : Bool :=
  table.all fun entry ↦
    entry ∈ s.snapshotTable ∨ entry = s.root ∧ s.generation = s.publishedGeneration

/-- A pass is about to delete a dead record of the hash on a device other than the primary. -/
def isDoomed (setup : Setup Dev) (s : State Dev Hash) (hash : Hash) : Bool :=
  s.pass.any fun p ↦ p.stage.isPastGate &&
    p.stage.repack.any fun r ↦ decide (r.dev ≠ setup.primary ∧ hash ∈ r.dead)

/-- No file is unlinked while something of it is open, a snapshot is taken of the current
root, no pin is released while a pass checks pins, and a pass starts when what the mount
replayed is in a root. If `strict`, no lookup hits a record that is about to go on a device
other than the primary. -/
def KeepsOrder (setup : Setup Dev) (settled strict : Bool) (s : State Dev Hash) : Action Dev Hash → Prop
  | .unlink ino => s.isClosed ino = true
  | .setSnapshotTable table => s.retainsRoot table = true
  | .lookup ino => strict = true → (s.nextHash ino).any (s.isDoomed setup) = false
  | .checkpointStep => s.releasesPin = true → s.isCheckingPins = false
  | .beginPass => settled = true ∨ s.mountGeneration < s.publishedGeneration
  | _ => True

instance (setup : Setup Dev) (settled strict : Bool) (s : State Dev Hash) (a : Action Dev Hash) :
    Decidable (s.KeepsOrder setup settled strict a) := by
  induction a using Action.casesOn <;> unfold KeepsOrder <;> infer_instance

/-- What the mount cached is the primary's and, if `settled`, nothing was replayed. -/
def Recovers (setup : Setup Dev) (settled : Bool) (s : State Dev Hash) : Prop :=
  (∀ hash loc dev, s.cache hash = some (loc, dev) → dev = setup.primary) ∧
    (settled = true → ∀ ino chunks, s.inodes.lookup ino = some chunks → (ino, chunks) ∈ s.root)

theorem Mounted.handshakeInv (h : s.Mounted) (hrecovers : s.Recovers setup settled) :
    s.HandshakeInv setup settled strict where
  copies := h.copies
  generations := h.generations
  passInv p hp := by simp [h.pass] at hp
  cache := by
    refine ⟨fun hash loc dev hcache ↦ ?_, fun p hp ↦ by simp [h.pass] at hp⟩
    obtain rfl := hrecovers.1 hash loc dev hcache
    obtain ⟨seg, hseg, hrecord⟩ := h.cache hash loc _ hcache
    exact ⟨rfl, seg, hseg, hrecord, by simp⟩
  tidy := h.tidy
  covered := h.covered hrecovers.2
  pass p hp := by simp [h.pass] at hp
  gate p hp := by simp [h.pass] at hp

variable {stage : Stage Dev Hash}

theorem RepackInv.repointed {dur : Bool} {live : List Hash} (h : RepackInv dur s live stage)
    (hgate : stage.isPastGate = true) (hr : stage.repack = some r) : Repointed dur s live r := by
  cases stage <;> simp only [Stage.isPastGate, Bool.false_eq_true] at hgate <;>
    cases hr
  · exact h
  · exact h
  · exact h.1

theorem CacheStage.out (h : s.CacheStage setup stage) (hgate : stage.isPastGate = true)
    (hr : stage.repack = some r) : ∀ hash, hash ∈ r.kept ∨ hash ∈ r.dead → s.CacheOut r hash := by
  cases stage <;> simp only [Stage.isPastGate, Bool.false_eq_true] at hgate <;>
    cases hr
  · exact h.1
  · exact h
  · exact h

theorem Fresh.spare {k : Nat} (h : s.Fresh k hash) (hle : k ≤ 1) (hcopies : s.Copies) (hold : s.Old r) :
    s.Spare false r.dev r.oldId hash := by
  obtain ⟨loc, hat, hyoung⟩ := h
  exact ⟨loc, hat r.dev, fun heq ↦ hold.not_young hcopies hle (heq ▸ hyoung)⟩

theorem Generations.root_eq (h : s.Generations) (heq : s.generation = s.publishedGeneration) :
    s.root = s.publishedRoot := by
  refine (h.quiet fun c hc hphase ↦ ?_).2
  have := (h.publishGeneration c hc hphase).1
  omega

end Gate

section Environment

theorem environment_generation (hgen : s.Generations) (ha : a.isPass = false)
    (hst : s.step setup a = some t) :
    t.generation = s.generation ∧ t.root = s.root ∨ t.generation = s.generation + 1 := by
  rcases environment_publishes ha hst with hframe | ⟨c, -, hc, ⟨hphase, rfl⟩ | ⟨-, rfl⟩ | ⟨-, rfl⟩⟩
  · exact .inl ⟨hframe.generation, hframe.root⟩
  · exact .inr (hgen.publish c hc hphase)
  · exact .inl ⟨rfl, rfl⟩
  · exact .inl ⟨rfl, rfl⟩

theorem environment_table (ha : a.isPass = false) (hst : s.step setup a = some t) :
    t.snapshotTable = a.table.getD s.snapshotTable ∧ t.mountGeneration = s.mountGeneration := by
  rcases environment_publishes ha hst with hframe | ⟨c, rfl, -, ⟨-, rfl⟩ | ⟨-, rfl⟩ | ⟨-, rfl⟩⟩
  · exact ⟨hframe.snapshotTable, hframe.mountGeneration⟩
  all_goals exact ⟨rfl, rfl⟩

/-- Only the root that is current and published comes into the snapshot table. -/
theorem environment_entry (ha : a.isPass = false) (horder : s.KeepsOrder setup settled strict a)
    (hst : s.step setup a = some t) {entry : InoMap Hash} (hentry : entry ∈ t.snapshotTable) :
    entry ∈ s.snapshotTable ∨ entry = s.root ∧ s.generation = s.publishedGeneration := by
  rw [(environment_table ha hst).1] at hentry
  cases a with
  | setSnapshotTable => simpa using all_eq_true.1 horder entry hentry
  | _ => exact .inl hentry

/-- A step makes nothing protected that is neither protected before, nor just appended, nor a
dedup hit. -/
theorem environment_protected (hcopies : s.Copies) (hgen : s.Generations) (ha : a.isPass = false)
    (horder : s.KeepsOrder setup settled strict a) (hst : s.step setup a = some t)
    (h : t.Protected hash) : s.Protected hash ∨ t.Fresh 0 hash ∨
      ∃ ino, a = .lookup ino ∧ s.nextHash ino = some hash ∧ (s.cache hash).isSome := by
  have hmoves := environment_moves hcopies ha hst
  have hpinned : t.PinnedHit hash → s.Protected hash ∨ t.Fresh 0 hash ∨
      ∃ ino, a = .lookup ino ∧ s.nextHash ino = some hash ∧ (s.cache hash).isSome := by
    intro hpin
    rcases environment_pins ha hst with hiff | ⟨ino, _, rfl, hnext, hhit, hiff⟩ | ⟨_, _, himp⟩
    · exact .inl (.inr ((hiff hash).1 hpin))
    · rcases (hiff hash).1 hpin with hpin | rfl
      · exact .inl (.inr hpin)
      · exact .inr (.inr ⟨ino, rfl, hnext, hhit⟩)
    · exact .inl (.inr (himp hash hpin))
  rcases h with (⟨ino, hlists⟩ | ⟨ino, hcontent⟩ | hcaptured | hpublished | htable) | hpin
  · rcases hmoves.lists ino hash hlists with h | h | ⟨h, _⟩ | ⟨h, _⟩
    · exact .inl (.inl (.inl ⟨ino, h⟩))
    · exact .inl (.inl (.inr (.inl ⟨ino, h⟩)))
    · exact hpinned ⟨ino, .inl h⟩
    · exact .inr (.inl h)
  · refine .inl (.inl ?_)
    rcases hmoves.content ino hash hcontent with h | h
    · exact .inr (.inl ⟨ino, h⟩)
    · exact .inl ⟨ino, h⟩
  · refine .inl (.inl ?_)
    rcases hmoves.captured hash hcaptured with h | h
    · exact .inr (.inr (.inl h))
    · exact .inr (.inl h)
  · refine .inl (.inl ?_)
    rcases hmoves.published hash hpublished with h | h
    · exact .inr (.inr (.inr (.inl h)))
    · exact .inr (.inr (.inl h))
  · refine .inl (.inl (.inr (.inr (.inr ?_))))
    obtain ⟨entry, hentry, hmem⟩ := mem_flatMap.1 htable
    rcases environment_entry ha horder hst hentry with hold | ⟨rfl, heq⟩
    · exact .inr (mem_flatMap.2 ⟨entry, hold, hmem⟩)
    · exact .inl (hgen.root_eq heq ▸ hmem)
  · exact hpinned hpin

theorem PassRoot.environment (h : s.PassRoot settled p) (hgen : s.Generations) (ha : a.isPass = false)
    (horder : s.KeepsOrder setup settled strict a) (hst : s.step setup a = some t) :
    t.PassRoot settled p := by
  have hle := h.le
  have hgeneration := environment_generation hgen ha hst
  have hpublished := environment_published hgen ha hst
  refine ⟨?_, fun heq ↦ ?_, fun heq ↦ ?_, fun hash hmem ↦ (h.marks hash hmem).root hmem,
    fun entry hentry ↦ ?_, by rw [(environment_table ha hst).2]; exact h.settled⟩
  · rcases hgeneration with ⟨heq, _⟩ | heq <;> omega
  · rcases hgeneration with ⟨heq', hroot⟩ | heq'
    · exact (h.current (heq.trans heq')).trans hroot.symm
    · omega
  · rcases hpublished with ⟨heq', hroot⟩ | ⟨heq', c, hc, hphase, rfl⟩
    · exact (h.published (heq.trans heq')).trans hroot.symm
    · -- the root that is published now was the namespace's already
      obtain ⟨hgeneration, _, hroot⟩ := hgen.publishGeneration c hc hphase
      exact (h.current (by omega)).trans hroot
  · have hmono : p.generation < s.publishedGeneration → p.generation < t.publishedGeneration := by
      rcases hpublished with ⟨heq, _⟩ | ⟨heq, _⟩ <;> omega
    rcases environment_entry ha horder hst hentry with hold | ⟨rfl, heq⟩
    · exact (h.table entry hold).imp hmono fun hmarks hash hmem ↦ (hmarks hash hmem).table hmem hentry
    · rcases Nat.lt_or_eq_of_le hle with hlt | heq'
      · exact .inl (hmono (heq ▸ hlt))
      · refine .inr fun hash hmem ↦ ?_
        exact (h.marks hash (h.current heq' ▸ hmem)).table hmem hentry

theorem Elsewhere.mono (h : s.Elsewhere setup strict r hash)
    (hasAt : ∀ dev loc, s.HasAt false dev loc hash → t.HasAt false dev loc hash) :
    t.Elsewhere setup strict r hash := by
  rcases h with ⟨loc, hat, hne⟩ | ⟨hstrict, hdev, loc, hat⟩
  · exact .inl ⟨loc, hasAt _ _ hat, hne⟩
  · exact .inr ⟨hstrict, hdev, loc, hasAt _ _ hat⟩

section

variable (h : s.HandshakeInv setup settled strict)

include h

/-- A dedup hit while a pass is past its gate is not on the record the pass deletes. -/
theorem HandshakeInv.elsewhere_of_hit (hp : s.pass = some p)
    (hgate : p.stage.isPastGate = true) (hr : p.stage.repack = some r)
    (horder : s.KeepsOrder setup settled strict (.lookup ino)) (hnext : s.nextHash ino = some hash)
    (hhit : (s.cache hash).isSome) {offset : Nat} (hin : s.InOld r hash offset) :
    s.Elsewhere setup strict r hash := by
  have hrepointed := (h.passInv p hp).repointed hgate hr
  obtain ⟨⟨loc, dev⟩, hcache⟩ := isSome_iff_exists.1 hhit
  obtain ⟨rfl, hat⟩ := h.cache.sound hash loc dev hcache
  rcases hrepointed.listed hash offset hin with hkept | hdead
  · exact .inl (hrepointed.kept hash hkept)
  · by_cases hdev : r.dev = setup.primary
    · have hout := (h.cache.stage p hp).out hgate hr hash (.inr hdead) loc _ hcache
      exact .inl ⟨loc, hdev ▸ hat, fun heq ↦ hout ⟨heq, hdev.symm⟩⟩
    · cases strict with
      | false => exact .inr ⟨rfl, hdev, loc, hat⟩
      | true =>
        have hdoomed : s.isDoomed setup hash = true := by
          simp [isDoomed, hp, hgate, -Stage.isPastGate, hr, hdev, hdead]
        have hfalse := horder rfl
        simp [hnext, hdoomed] at hfalse

theorem Gate.environment (hgrows : Grows setup s t)
    (hcopies : t.Copies) (hpassInv : PassInv false t) (hp : s.pass = some p) (ha : a.isPass = false)
    (horder : s.KeepsOrder setup settled strict a) (hst : s.step setup a = some t) :
    t.Gate setup strict p.stage := by
  intro hgate r hr hash offset hprotected hin
  have hold := (h.passInv p hp).old hr
  have hin : s.InOld r hash offset := (hgrows.keeps h.copies hold).1.inOld.1 hin
  have hasAt := fun dev loc ↦ hgrows.hasAt false dev loc hash
  rcases environment_protected h.copies h.generations ha horder hst hprotected with
    hprotected | hfresh | ⟨ino, rfl, hnext, hhit⟩
  · rcases h.gate p hp hgate r hr hash offset hprotected hin with helse | ⟨htodo, hpin⟩
    · exact .inl (helse.mono hasAt)
    · refine .inr ⟨htodo, ?_⟩
      rcases environment_pins ha hst with hiff | ⟨_, _, _, _, _, hiff⟩ | ⟨rfl, hreleases, _⟩
      · exact (hiff hash).2 hpin
      · exact (hiff hash).2 (.inl hpin)
      · -- no pin is released while the pass checks pins
        have hidle := horder hreleases
        simp only [isCheckingPins, hp, Option.any_some, Bool.not_eq_false', List.isEmpty_iff] at hidle
        simp [hidle] at htodo
  · exact .inl (.inl (hfresh.spare (Nat.zero_le 1) hcopies ((hpassInv p (hgrows.pass ▸ hp)).old hr)))
  · exact .inl ((h.elsewhere_of_hit hp hgate hr horder hnext hhit hin).mono hasAt)

theorem HandshakeInv.environment (ha : a.isPass = false)
    (horder : s.KeepsOrder setup settled strict a) (hst : s.step setup a = some t) :
    t.HandshakeInv setup settled strict := by
  obtain ⟨hcopies, hgrows, hgen⟩ := environment_step h.copies h.generations ha hst
  have hpassInv := h.passInv.grows h.copies hgrows
  have hclosed : ∀ ino, a = .unlink ino → s.isClosed ino = true := by
    rintro _ rfl
    exact horder
  exact {
    copies := hcopies
    generations := hgen
    passInv := hpassInv
    cache := h.cache.grows hcopies hpassInv hgrows
    tidy := h.tidy.environment ha hclosed hst
    covered := h.covered.environment h.copies h.generations h.tidy ha hst
    pass := fun p hp ↦ (h.pass p (hgrows.pass ▸ hp)).environment h.generations ha horder hst
    gate := fun p hp ↦
      Gate.environment h hgrows hcopies hpassInv (hgrows.pass ▸ hp) ha horder hst }

end

end Environment

end State

end Lchfs.Reclaim
