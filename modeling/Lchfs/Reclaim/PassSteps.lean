import Lchfs.Reclaim.Environment

/-!
# The steps of a pass

What each action of the coalescer does, said once. Most turn the pass to its next stage
and leave the rest of the state alone; the others mark, copy, repoint, take entries out of
the cache or put them back, forget and delete.
-/

set_option linter.unusedSectionVars false

namespace Lchfs.Reclaim

open Lchfs.Format (Ino ShardId SegmentId)
open Lchfs.Library
open List Option

variable {Dev Hash : Type} [DecidableEq Dev] [DecidableEq Hash]

namespace State

variable {setup : Setup Dev} {s t : State Dev Hash} {a : Action Dev Hash}

variable (s) (p : Pass Dev Hash) in
/-- The stages of `p` that follow one another while nothing but the pass changes. -/
inductive Turns : Stage Dev Hash → Stage Dev Hash → Prop
  | snapshots : Turns .snapshots (.marking (p.root.hashes ++ s.snapshotTable.flatMap InoMap.hashes))
  | marked : Turns (.marking []) (.markingPins (s.pins.map (·.2)))
  | skip {hash todo} : Turns (.markingPins (hash :: todo)) (.markingPins todo)
  | pinsMarked : Turns (.markingPins []) .idle
  | keep {r hash offset todo dropped} : Turns (.scan r ((hash, offset) :: todo) dropped)
    (.scan { r with kept := r.kept ++ [hash] } todo dropped)
  | drop {r hash offset todo dropped} :
    (hash ∈ p.live → s.otherCopyOn r.dev hash ⟨r.oldId, offset⟩ = true) →
    Turns (.scan r ((hash, offset) :: todo) dropped) (.scan r todo (dropped ++ [hash]))
  | scanned {r dropped} : Turns (.scan r [] dropped) (.recheck r dropped)
  | pull {r hash dropped} :
    Turns (.recheck r (hash :: dropped)) (.recheck { r with kept := r.kept ++ [hash] } dropped)
  | bury {r hash dropped} :
    Turns (.recheck r (hash :: dropped)) (.recheck { r with dead := r.dead ++ [hash] } dropped)
  | copy {r} : Turns (.recheck r []) (.copy r)
  | allDead {r} : r.kept = [] → Turns (.recheck r []) (.removeCache r r.dead [])
  | outside {r hash todo removed} :
    (∀ loc dev, s.cache hash = some (loc, dev) → ¬(loc.segmentId = r.oldId ∧ dev = r.dev)) →
    Turns (.removeCache r (hash :: todo) removed) (.removeCache r todo removed)
  | removed {r removed} : Turns (.removeCache r [] removed) (.loadGeneration r removed)
  | stale {r removed} : Turns (.loadGeneration r removed) (.restore r removed)
  | current {r removed} : s.publishedGeneration = p.generation →
    Turns (.loadGeneration r removed) (.checkPins r r.dead removed)
  | pinned {r hash todo removed} : Turns (.checkPins r (hash :: todo) removed) (.restore r removed)
  | unpinned {r hash todo removed} : s.isPinned hash = false →
    Turns (.checkPins r (hash :: todo) removed) (.checkPins r todo removed)
  | checked {r removed} : Turns (.checkPins r [] removed) (.forget r)
  | restored {r} : Turns (.restore r []) (.device r.dev r.bitmap)

variable (setup s) in
/-- What the actions of the coalescer do. -/
inductive Sweeps : Action Dev Hash → State Dev Hash → Prop
  | begin : Sweeps .beginPass { s with pass := some ⟨s.root, s.generation, [], [], .snapshots⟩ }
  | stop {b} : Sweeps b { s with pass := none }
  | beginDevice {p dev bitmap} : s.pass = some p →
    (p.stage = .idle ∨ ∃ dev' bitmap', p.stage = .device dev' bitmap') →
    Sweeps (.beginDevice dev) (s.setStage p (.device dev bitmap))
  | beginRepack {p dev bitmap id seg} : s.pass = some p → p.stage = .device dev bitmap →
    s.segments dev id = some seg → seg.isSealed = true → s.mayReclaim id = true →
    Sweeps (.beginRepack id) (s.setStage p (.scan ⟨dev, bitmap, id, [], []⟩ seg.records.zipIdx []))
  | turn {p stage stage'} : s.pass = some p → p.stage = stage → s.Turns p stage stage' →
    Sweeps .passStep (s.setStage p stage')
  | mark {p hash todo loc} : s.pass = some p → p.stage = .marking (hash :: todo) →
    Sweeps .passStep (s.mark p hash loc (.marking todo))
  | markPin {p hash todo loc} : s.pass = some p → p.stage = .markingPins (hash :: todo) →
    Sweeps .passStep (s.mark p hash loc (.markingPins todo))
  | copy {p r} : s.pass = some p → p.stage = .copy r → Sweeps .passStep (s.copyKept p r)
  | repointIndex {p r newId} : s.pass = some p → p.stage = .repointIndex r newId →
    Sweeps .passStep (s.repointIndex p r newId)
  | repointCache {p r newId} : s.pass = some p → p.stage = .repointCache r newId →
    Sweeps .passStep (s.repointCache setup p r newId)
  | remove {p r hash todo removed entry} : s.pass = some p → p.stage = .removeCache r (hash :: todo) removed →
    s.cache hash = some entry →
    Sweeps .passStep ({ s with cache := Function.update s.cache hash none }.setStage p
      (.removeCache r todo ((hash, entry) :: removed)))
  | restore {p r hash entry removed} : s.pass = some p → p.stage = .restore r ((hash, entry) :: removed) →
    Sweeps .passStep ({ s with
      cache := Function.update s.cache hash ((s.cache hash).or (some entry)) }.setStage p (.restore r removed))
  | forget {p r} : s.pass = some p → p.stage = .forget r → Sweeps .passStep (s.forgetSegmentRecords p r)
  | delete {p r} : s.pass = some p → p.stage = .delete r → Sweeps .passStep (s.removeSegment p r)

theorem passStep_sweeps (hst : s.passStep setup = some t) : Sweeps setup s .passStep t := by
  obtain ⟨p, hp, hst⟩ := bind_eq_some_iff.1 hst
  cases hstage : p.stage <;> simp only [hstage, reduceCtorEq] at hst <;> cases hst
  case snapshots => exact .turn hp hstage .snapshots
  case marking todo =>
    cases todo with
    | nil => exact .turn hp hstage .marked
    | cons =>
      simp only [markNext]
      split
      · exact .mark hp hstage
      · exact .stop
  case markingPins todo =>
    cases todo with
    | nil =>
      simp only [markNextPin]
      split
      · exact .stop
      · exact .turn hp hstage .pinsMarked
    | cons =>
      simp only [markNextPin]
      split
      · exact .markPin hp hstage
      · exact .turn hp hstage .skip
  case scan r todo dropped =>
    cases todo with
    | nil => exact .turn hp hstage .scanned
    | cons =>
      simp only [scanNext]
      split
      · exact .turn hp hstage .keep
      · next hdrop =>
        refine .turn hp hstage (.drop fun hlive ↦ ?_)
        by_contra hother
        exact hdrop (.inr ⟨hlive, by simpa using hother⟩)
  case recheck r dropped =>
    cases dropped <;> simp only [recheckNext] <;> split
    · next hkept => exact .turn hp hstage (.allDead hkept)
    · exact .turn hp hstage .copy
    · exact .turn hp hstage .pull
    · exact .turn hp hstage .bury
  case copy => exact .copy hp hstage
  case repointIndex => exact .repointIndex hp hstage
  case repointCache => exact .repointCache hp hstage
  case removeCache r todo removed =>
    cases todo with
    | nil => exact .turn hp hstage .removed
    | cons =>
      simp only [removeNext]
      split
      · next hcache =>
        split
        · exact .remove hp hstage hcache
        · next hne =>
          refine .turn hp hstage (.outside fun _ _ hcache' ↦ ?_)
          cases hcache.symm.trans hcache'
          exact hne
      · next hnone => exact .turn hp hstage (.outside (by simp [hnone]))
  case loadGeneration =>
    unfold loadGeneration
    split
    · exact .turn hp hstage .stale
    · next heq => exact .turn hp hstage (.current (not_not.1 heq))
  case checkPins r todo removed =>
    cases todo with
    | nil => exact .turn hp hstage .checked
    | cons =>
      simp only [checkNextPin]
      split
      · exact .turn hp hstage .pinned
      · next hpinned => exact .turn hp hstage (.unpinned (by simpa using hpinned))
  case restore r removed =>
    cases removed with
    | nil => exact .turn hp hstage .restored
    | cons => exact .restore hp hstage
  case forget => exact .forget hp hstage
  case delete => exact .delete hp hstage

theorem pass_sweeps (ha : a.isPass = true) (hst : s.step setup a = some t) : Sweeps setup s a t := by
  cases a <;> simp only [Action.isPass, Bool.false_eq_true] at ha
  case beginPass =>
    simp only [step, beginPass] at hst
    split at hst <;> cases hst
    exact .begin
  case beginDevice dev =>
    obtain ⟨p, hp, hst⟩ := bind_eq_some_iff.1 hst
    split at hst <;> cases hst
    · next hstage => exact .beginDevice hp (.inl hstage)
    · next dev' bitmap' hstage => exact .beginDevice hp (.inr ⟨dev', bitmap', hstage⟩)
  case beginRepack id =>
    obtain ⟨p, hp, hst⟩ := bind_eq_some_iff.1 hst
    split at hst
    · next hstage =>
      obtain ⟨_, hseg, hst⟩ := bind_eq_some_iff.1 hst
      split_ifs at hst with hcase
      cases hst
      exact .beginRepack hp hstage hseg hcase.1 hcase.2
    · cases hst
  case passStep => exact passStep_sweeps hst
  case endPass =>
    obtain ⟨p, _, rfl⟩ := map_eq_some_iff.1 hst
    exact .stop

/-- What the actions of the coalescer leave alone. -/
structure PassFrame (s t : State Dev Hash) : Prop where
  writers : t.writers = s.writers
  pendingIndex : t.pendingIndex = s.pendingIndex
  pins : t.pins = s.pins
  publishedGeneration : t.publishedGeneration = s.publishedGeneration
  inodes : t.inodes = s.inodes
  nextIno : t.nextIno = s.nextIno
  dirtyInodes : t.dirtyInodes = s.dirtyInodes
  generation : t.generation = s.generation
  root : t.root = s.root
  snapshotTable : t.snapshotTable = s.snapshotTable
  sessions : t.sessions = s.sessions
  fileState : t.fileState = s.fileState
  ops : t.ops = s.ops
  checkpoint : t.checkpoint = s.checkpoint
  slot : t.slot = s.slot
  publishedRoot : t.publishedRoot = s.publishedRoot
  slotHeld : t.slotHeld = s.slotHeld
  mountGeneration : t.mountGeneration = s.mountGeneration

theorem PassFrame.generations (h : s.PassFrame t) (hgen : s.Generations) : t.Generations := by
  obtain ⟨h1, h2, h3, h4⟩ := hgen
  constructor <;>
    simp only [h.generation, h.publishedGeneration, h.root, h.publishedRoot, h.checkpoint] <;> assumption

theorem Sweeps.frame (h : Sweeps setup s a t) : s.PassFrame t := by
  cases h <;> constructor <;> rfl

end State

end Lchfs.Reclaim
