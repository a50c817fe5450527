import Lchfs.Reclaim.Marking

/-!
# The location cache under a pass

As long as every cached location is the primary's, the cache names records that are
there: a pass repoints the entries of the records it keeps, takes out those of the dead
ones, and puts them back if it backs off. From the generation check on, no cached
location lies in the segment that is about to go.
-/

set_option linter.unusedSectionVars false

namespace Lchfs.Reclaim

open Lchfs.Format (Ino ShardId SegmentId)
open Lchfs.Library
open List Option Function

variable {Dev Hash : Type} [DecidableEq Dev] [DecidableEq Hash]

namespace State

variable {setup : Setup Dev} {s t : State Dev Hash} {p : Pass Dev Hash} {r : Repack Dev Hash}
  {hash : Hash} {todo : List Hash} {removed : List (Hash × Location × Dev)} {stage : Stage Dev Hash}

/-- The entry does not point into the segment on its device. -/
def CacheOut (s : State Dev Hash) (r : Repack Dev Hash) (hash : Hash) : Prop :=
  ∀ loc dev, s.cache hash = some (loc, dev) → ¬(loc.segmentId = r.oldId ∧ dev = r.dev)

/-- What a pass has taken out is still there. -/
def RemovedSound (setup : Setup Dev) (s : State Dev Hash) (removed : List (Hash × Location × Dev)) :
    Prop :=
  ∀ entry ∈ removed, entry.2.2 = setup.primary ∧ s.HasAt false setup.primary entry.2.1 entry.1

/-- What holds of the cache in each stage of a pass. -/
def CacheStage (setup : Setup Dev) (s : State Dev Hash) : Stage Dev Hash → Prop
  | .removeCache r todo removed =>
    (∀ hash ∈ r.kept, s.CacheOut r hash) ∧ (∀ hash ∈ r.dead, hash ∈ todo ∨ s.CacheOut r hash) ∧
      s.RemovedSound setup removed
  | .loadGeneration r removed =>
    (∀ hash, hash ∈ r.kept ∨ hash ∈ r.dead → s.CacheOut r hash) ∧ s.RemovedSound setup removed
  | .checkPins r _ removed =>
    (∀ hash, hash ∈ r.kept ∨ hash ∈ r.dead → s.CacheOut r hash) ∧ s.RemovedSound setup removed
  | .restore _ removed => s.RemovedSound setup removed
  | .forget r => ∀ hash, hash ∈ r.kept ∨ hash ∈ r.dead → s.CacheOut r hash
  | .delete r => ∀ hash, hash ∈ r.kept ∨ hash ∈ r.dead → s.CacheOut r hash
  | _ => True

structure CacheInv (setup : Setup Dev) (s : State Dev Hash) : Prop where
  sound : ∀ hash loc dev, s.cache hash = some (loc, dev) →
    dev = setup.primary ∧ s.HasAt false setup.primary loc hash
  stage : ∀ p, s.pass = some p → s.CacheStage setup p.stage

/-- Removed entries stay sound as long as no copy goes, and entries stay outside the segment as
long as no new one points into it. -/
theorem CacheStage.mono (h : s.CacheStage setup stage)
    (hout : ∀ r, stage.repack = some r → ∀ hash, s.CacheOut r hash → t.CacheOut r hash)
    (hasAt : ∀ loc hash, s.HasAt false setup.primary loc hash → t.HasAt false setup.primary loc hash) :
    t.CacheStage setup stage := by
  have hremoved : ∀ {removed}, s.RemovedSound setup removed → t.RemovedSound setup removed :=
    fun hr entry he ↦ ⟨(hr entry he).1, hasAt _ _ (hr entry he).2⟩
  cases stage
  case removeCache r todo removed =>
    exact ⟨fun hash hk ↦ hout r rfl hash (h.1 hash hk),
      fun hash hd ↦ (h.2.1 hash hd).imp_right (hout r rfl hash), hremoved h.2.2⟩
  case loadGeneration r removed | checkPins r todo removed =>
    exact ⟨fun hash hk ↦ hout r rfl hash (h.1 hash hk), hremoved h.2⟩
  case restore => exact hremoved h
  case forget r | delete r => exact fun hash hk ↦ hout r rfl hash (h hash hk)
  all_goals trivial

/-- The stages that follow one another pass on what is known of the cache. -/
theorem CacheStage.turns {stage' : Stage Dev Hash} (h : s.CacheStage setup stage)
    (hst : s.Turns p stage stage') : s.CacheStage setup stage' := by
  cases hst with
  | allDead hkept => exact ⟨by simp [hkept], fun hash ↦ .inl, by simp [RemovedSound]⟩
  | outside hout =>
    obtain ⟨hkept, hdead, hremoved⟩ := h
    refine ⟨hkept, fun hash' hd ↦ ?_, hremoved⟩
    rcases hdead hash' hd with hmem | hout'
    · rcases mem_cons.1 hmem with rfl | hmem
      · exact .inr hout
      · exact .inl hmem
    · exact .inr hout'
  | removed =>
    obtain ⟨hkept, hdead, hremoved⟩ := h
    exact ⟨fun hash' hmem ↦ hmem.elim (hkept hash') fun hd ↦ (hdead hash' hd).resolve_left (by simp), hremoved⟩
  | stale | pinned => exact h.2
  | current | unpinned => exact h
  | checked => exact h.1
  | _ => trivial

section

variable (h : s.CacheInv setup) {entry : Location × Dev}

include h

namespace CacheInv

theorem grows (hcopies : t.Copies) (hinv : PassInv false t)
    (hst : Grows setup s t) : t.CacheInv setup := by
  refine ⟨fun hash loc dev hcache ↦ ?_, fun p hp ↦ ?_⟩
  · rcases hst.cache hash with heq | ⟨_, hloc', hat, _⟩
    · obtain ⟨hdev, hat⟩ := h.sound hash loc dev (heq ▸ hcache)
      exact ⟨hdev, hst.hasAt _ _ _ _ hat⟩
    · cases hloc'.symm.trans hcache
      exact ⟨rfl, hat⟩
  · refine (h.stage p (hst.pass ▸ hp)).mono (fun r hr hash hout loc dev hcache hcase ↦ ?_)
      fun loc hash ↦ hst.hasAt _ _ _ _
    rcases hst.cache hash with heq | ⟨_, hloc', _, ho⟩
    · exact hout loc dev (heq ▸ hcache) hcase
    · cases hloc'.symm.trans hcache
      exact ((hinv p hp).old hr).not_isOpen hcopies (hcase.1 ▸ ho)

theorem setStage (hstage : s.CacheStage setup stage) : (s.setStage p stage).CacheInv setup := by
  refine ⟨h.sound, fun _ hp' ↦ ?_⟩
  cases hp'
  exact hstage.mono (fun _ _ _ h ↦ h) fun _ _ h ↦ h

/-- The kept records' entries follow them into the new segment. -/
theorem repointCache {newId : SegmentId} (hnew : s.NewSegment r newId) :
    (s.repointCache setup p r newId).CacheInv setup := by
  set t := s.repointCache setup p r newId with ht
  have hcache : ∀ hash loc dev, t.cache hash = some (loc, dev) →
      (r.dev = setup.primary ∧ dev = r.dev ∧ loc.segmentId = newId ∧ r.kept[loc.offset]? = some hash) ∨
        (hash ∈ r.kept → r.dev ≠ setup.primary) ∧ s.cache hash = some (loc, dev) := by
    intro hash _ _ hcache
    by_cases hdev : r.dev = setup.primary
    · simp only [ht, State.repointCache, hdev, if_true, State.setStage] at hcache
      rcases foldl_read (fun (cache : Hash → Option (Location × Dev)) (entry : Hash × Nat) ↦
          update cache entry.1 (some (⟨newId, entry.2⟩, setup.primary)))
        (fun cache ↦ cache hash) (·.1 = hash) (fun entry ↦ some (⟨newId, entry.2⟩, setup.primary))
        (fun cache entry heq ↦ by simp [← heq]) (fun _ entry hne ↦ by simp [Ne.symm hne])
        r.kept.zipIdx s.cache with ⟨entry, hentry, rfl, heq⟩ | ⟨hnone, heq⟩
      · cases hcache.symm.trans heq
        exact .inl ⟨hdev, hdev.symm, rfl, mem_zipIdx_iff_getElem?.1 hentry⟩
      · refine .inr ⟨fun hk ↦ ?_, heq ▸ hcache⟩
        obtain ⟨i, hi, rfl⟩ := getElem_of_mem hk
        exact absurd rfl (hnone (r.kept[i], i) (mem_zipIdx_iff_getElem?.2 (by simp [hi])))
    · exact .inr ⟨fun _ ↦ hdev, by simpa [ht, State.repointCache, hdev, State.setStage] using hcache⟩
  refine ⟨fun hash loc dev hloc ↦ ?_, fun _ hp' ↦ ?_⟩
  · rcases hcache hash loc dev hloc with ⟨hdev, rfl, rfl, hrecord⟩ | ⟨_, hloc⟩
    · exact ⟨hdev, _, hdev ▸ hnew.2, hrecord, by simp⟩
    · exact h.sound hash loc dev hloc
  · cases hp'
    refine ⟨fun hash hk loc dev hloc hcase ↦ ?_, fun hash ↦ .inl, by simp [RemovedSound]⟩
    rcases hcache hash loc dev hloc with ⟨_, _, hid, _⟩ | ⟨hne, hloc⟩
    · exact hnew.1 (hid ▸ hcase.1)
    · exact hne hk (hcase.2 ▸ (h.sound hash loc dev hloc).1)

theorem remove (hstage : s.CacheStage setup (.removeCache r (hash :: todo) removed))
    (hcache : s.cache hash = some entry) :
    ({ s with cache := update s.cache hash none }.setStage p
      (.removeCache r todo ((hash, entry) :: removed))).CacheInv setup := by
  obtain ⟨hkept, hdead, hremoved⟩ := hstage
  have hout : ∀ hash', s.CacheOut r hash' →
      ∀ loc dev, update s.cache hash none hash' = some (loc, dev) →
        ¬(loc.segmentId = r.oldId ∧ dev = r.dev) := by
    intro _ hout loc dev hupdate
    rcases of_update hupdate with ⟨-, ⟨⟩⟩ | ⟨-, hcache⟩
    exact hout loc dev hcache
  refine ⟨fun hash' loc' dev' hcache' ↦ ?_, fun _ hp' ↦ ?_⟩
  · rcases of_update hcache' with ⟨-, ⟨⟩⟩ | ⟨-, hcache'⟩
    exact h.sound hash' loc' dev' hcache'
  · cases hp'
    refine ⟨fun hash' hk ↦ hout hash' (hkept hash' hk), fun hash' hd ↦ ?_, ?_⟩
    · rcases hdead hash' hd with hmem | hout'
      · rcases mem_cons.1 hmem with rfl | hmem
        · exact .inr fun _ _ hupdate ↦ by simp [State.setStage] at hupdate
        · exact .inl hmem
      · exact .inr (hout hash' hout')
    · exact forall_mem_cons.2 ⟨h.sound hash _ _ hcache, hremoved⟩

theorem restore (hstage : s.CacheStage setup (.restore r ((hash, entry) :: removed))) :
    ({ s with cache := update s.cache hash ((s.cache hash).or (some entry)) }.setStage p
      (.restore r removed)).CacheInv setup := by
  obtain ⟨hentry, hremoved⟩ := forall_mem_cons.1 hstage
  refine ⟨fun hash' loc' dev' hcache ↦ ?_, fun _ hp' ↦ ?_⟩
  · rcases of_update hcache with ⟨rfl, hor⟩ | ⟨-, hcache⟩
    · rcases or_eq_some_iff.1 hor with hold | ⟨-, ⟨⟩⟩
      · exact h.sound hash' loc' dev' hold
      · exact hentry
    · exact h.sound hash' loc' dev' hcache
  · cases hp'
    exact hremoved

/-- Deleting the segment leaves no cached location behind. -/
theorem removeSegment (hstage : s.CacheStage setup (.delete r))
    (hrepointed : Repointed false s p.live r)
    (hasAt : ∀ dur dev loc hash, s.HasAt dur dev loc hash → dev = r.dev ∧ loc.segmentId = r.oldId ∨
      (s.removeSegment p r).HasAt dur dev loc hash) : (s.removeSegment p r).CacheInv setup := by
  refine ⟨fun hash loc dev hcache ↦ ?_, fun _ hp' ↦ ?_⟩
  · obtain ⟨rfl, hat⟩ := h.sound hash loc dev hcache
    refine ⟨rfl, (hasAt _ _ _ _ hat).resolve_left fun hcase ↦ ?_⟩
    obtain ⟨id, offset⟩ := loc
    obtain ⟨hdev, rfl⟩ : setup.primary = r.dev ∧ id = r.oldId := hcase
    have hin : s.InOld r hash offset := by rwa [InOld, ← hdev]
    exact hstage hash (hrepointed.listed hash offset hin) _ _ hcache ⟨rfl, hdev⟩
  · cases hp'
    trivial

theorem sweeps {a : Action Dev Hash} (hcopies : s.Copies) (hinv : PassInv false s)
    (hst : Sweeps setup s a t) : t.CacheInv setup := by
  have hcached : ∀ {p stage}, s.pass = some p → p.stage = stage → s.CacheStage setup stage :=
    fun hp hstage ↦ hstage ▸ h.stage _ hp
  have hrepack : ∀ {p stage}, s.pass = some p → p.stage = stage → RepackInv false s p.live stage :=
    fun hp hstage ↦ hstage ▸ hinv _ hp
  cases hst with
  | begin | mark | markPin | repointIndex =>
    refine ⟨h.sound, fun p' hp' ↦ ?_⟩
    cases hp'
    trivial
  | stop => exact ⟨h.sound, by simp⟩
  | beginDevice | beginRepack => exact h.setStage trivial
  | turn hp hstage hturns => exact h.setStage ((hcached hp hstage).turns hturns)
  | copy hp hstage =>
    obtain ⟨_, _, hasAt, _⟩ := copyKept_spec (hrepack hp hstage) hcopies
    refine ⟨fun hash loc dev hcache ↦ ?_, fun p' hp' ↦ ?_⟩
    · obtain ⟨hdev, hat⟩ := h.sound hash loc dev hcache
      exact ⟨hdev, hasAt _ _ _ _ hat⟩
    · cases hp'
      trivial
  | repointCache hp hstage => exact h.repointCache (hrepack hp hstage).2
  | remove hp hstage hcache => exact h.remove (hcached hp hstage) hcache
  | restore hp hstage => exact h.restore (hcached hp hstage)
  | forget hp hstage =>
    refine ⟨h.sound, fun _ hp' ↦ ?_⟩
    cases hp'
    exact hcached hp hstage
  | delete hp hstage =>
    obtain ⟨hrepointed, hforgotten⟩ := hrepack hp hstage
    exact h.removeSegment (hcached hp hstage) hrepointed (removeSegment_spec hrepointed hforgotten hcopies).2

end CacheInv

end

end State

end Lchfs.Reclaim
