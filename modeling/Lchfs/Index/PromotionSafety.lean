import Lchfs.Index.Promotion

/-!
# What a promotion keeps reachable

A record that lands while the devices are scanned is found if the scan has still to read its
segment on one of the devices it lands on; one that lands after its bucket of the cache was
emptied keeps its cache entry. What lands between the two is in no scan and loses its entry:
it is left in a batch, where no read looks for it. The entry also has to name a device that is
online, and a committer whose open segment still fans out to the failed primary names that one.
-/

set_option linter.unusedSectionVars false

namespace Lchfs.Index

open Lchfs.Format (ShardId SegmentId)
open Lchfs.Library
open List Option State Segment Entries

variable {Hash : Type} [DecidableEq Hash] {tag : Tag}

namespace Entries

variable {t : Entries Hash} {hash : Hash}

theorem mem_preferredLocations (h : t.has hash = true) : ∃ entry ∈ t.preferredLocations, entry.1 = hash := by
  obtain ⟨entry, hentry⟩ := isSome_iff_exists.1 (isSome_preferred h)
  obtain ⟨key, hkey, hhash⟩ := any_eq_true.1 h
  refine ⟨(hash, entry), mem_filterMap.2 ⟨hash, ?_, by simp [hentry]⟩, rfl⟩
  exact mem_dedup.2 (mem_map.2 ⟨key, hkey, of_decide_eq_true hhash⟩)

theorem lookup_of_mem_preferredLocations {loc : Location}
    (h : (hash, loc, tag) ∈ t.preferredLocations) : t.lookup (hash, tag) = some loc := by
  obtain ⟨_, -, hpreferred⟩ := mem_filterMap.1 h
  obtain ⟨⟨_, _⟩, hpreferred, heq⟩ := map_eq_some_iff.1 hpreferred
  cases heq
  exact lookup_of_preferred hpreferred

theorem has_putAll {entries : List ((Hash × Tag) × Location)} :
    (putAll t entries).has hash = true ↔ t.has hash = true ∨ ∃ entry ∈ entries, entry.1.1 = hash := by
  have hlookup : ∀ t' : Entries Hash, t'.has hash = true ↔ ∃ tag, (t'.lookup (hash, tag)).isSome := by
    intro _
    simp only [has_iff, isSome_iff_exists]
  simp only [hlookup, isSome_lookup_putAll]
  constructor
  · rintro ⟨tag, ⟨entry, hentry, heq⟩ | hold⟩
    · exact .inr ⟨entry, hentry, by rw [heq]⟩
    · exact .inl ⟨tag, hold⟩
  · rintro (⟨tag, hold⟩ | ⟨entry, hentry, rfl⟩)
    · exact ⟨tag, .inr hold⟩
    · exact ⟨entry.1.2, .inl ⟨entry, hentry, rfl⟩⟩

end Entries

namespace Promoting

variable {firstByte : Hash → Nat} {d t : Promoting Hash}

/-- A place where a read finds the record: an online device, or a stripe that can be read. -/
def Good (d : Promoting Hash) (hash : Hash) (tag : Tag) (loc : Location) : Prop :=
  d.pool.recordAt tag loc = some hash ∧
    match tag with
    | .vdev v => v ∈ d.pool.online
    | .striped => loc.segmentId ∉ d.unreadable

def Copied (d : Promoting Hash) (hash : Hash) : Prop :=
  ∃ tag loc, d.Good hash tag loc

end Promoting

/-- What the scan has still to read. -/
def PromotePhase.Ahead : PromotePhase Hash → Tag → SegmentId → Prop
  | .list _ _, .striped, _ => True
  | .list vdevs _, .vdev v, _ => v ∈ vdevs
  | .scan _ _ _ _, .striped, _ => True
  | .scan u todo vdevs _, .vdev v, id => v ∈ vdevs ∨ v = u ∧ id ∈ todo
  | _, _, _ => False

namespace Promoting

variable {firstByte : Hash → Nat} {d t : Promoting Hash}
variable {landed : List Hash} {hash : Hash} {s : State Hash} {v : VdevId} {loc : Location}
  {failed vdevs : List VdevId} {stream : Stream} {phase : PromotePhase Hash} {c : PromoteCall Hash}
  {f : Segment Hash → Segment Hash} {w : Writer}

/-- Every copy is found by the scan, and from when its bucket is emptied the cache names good
places only. -/
def PhaseSafe (firstByte : Hash → Nat) (d : Promoting Hash) (phase : PromotePhase Hash) : Prop :=
  match phase with
  | .list _ rebuilt | .scan _ _ _ rebuilt =>
    (∀ hash tag loc, rebuilt.lookup (hash, tag) = some loc → d.Good hash tag loc) ∧
      (∀ v id, phase.Ahead (.vdev v) id → v ∈ d.pool.online) ∧
      ∀ hash, d.Copied hash → rebuilt.has hash = true ∨
        ∃ tag loc, d.Good hash tag loc ∧ phase.Ahead tag loc.segmentId
  | .clear todo rebuilt =>
    (∀ hash tag loc, rebuilt.lookup (hash, tag) = some loc → d.Good hash tag loc) ∧
      (∀ hash, d.Copied hash → rebuilt.has hash = true ∨
        bucketFor firstByte hash ∉ todo ∧ (d.pool.cache hash).isSome) ∧
      ∀ hash, bucketFor firstByte hash ∉ todo → ∀ loc tag, d.pool.cache hash = some (loc, tag) → d.Good hash tag loc
  | .extend todo _ =>
    (∀ entry ∈ todo, d.Good entry.1 entry.2.2 entry.2.1) ∧
      (∀ hash, d.Copied hash → (d.pool.cache hash).isSome ∨ ∃ entry ∈ todo, entry.1 = hash) ∧
      ∀ hash loc tag, d.pool.cache hash = some (loc, tag) → d.Good hash tag loc
  | .role =>
    (∀ hash, d.Copied hash → (d.pool.cache hash).isSome) ∧
      ∀ hash loc tag, d.pool.cache hash = some (loc, tag) → d.Good hash tag loc

/-- A step of a writer or a reader: good places stay, and a hash that gets its first copy is one
that lands and is cached there. -/
structure Grows (landed : List Hash) (d t : Promoting Hash) : Prop where
  call : t.call = d.call
  primary : t.pool.primary = d.pool.primary
  online : t.pool.online = d.pool.online
  acked : ∀ hash ∈ t.pool.acked, hash ∈ d.pool.acked ∨ hash ∈ landed
  written : ∀ hash ∈ t.written, hash ∈ d.written ∨ hash ∈ landed
  good : ∀ hash tag loc, d.Good hash tag loc → t.Good hash tag loc
  news : ∀ hash, t.Copied hash → d.Copied hash ∨ hash ∈ landed
  cache : ∀ hash, hash ∉ landed → t.pool.cache hash = d.pool.cache hash
  landed : ∀ hash ∈ landed, ∃ loc tag, t.pool.cache hash = some (loc, tag) ∧ t.Good hash tag loc

/-- Where a record lands in time to be found. -/
def InView (firstByte : Hash → Nat) (t : Promoting Hash) (phase : PromotePhase Hash) (hash : Hash) : Prop :=
  match phase with
  | .list _ _ | .scan _ _ _ _ => ∃ tag loc, t.Good hash tag loc ∧ phase.Ahead tag loc.segmentId
  | .clear todo _ => bucketFor firstByte hash ∉ todo
  | _ => True

theorem Grows.copied (h : Grows landed d t) (hd : d.Copied hash) : t.Copied hash := by
  obtain ⟨tag, loc, hgood⟩ := hd
  exact ⟨tag, loc, h.good hash tag loc hgood⟩

theorem Grows.isSome (h : Grows landed d t) (hd : (d.pool.cache hash).isSome) : (t.pool.cache hash).isSome := by
  by_cases hmem : hash ∈ landed
  · obtain ⟨_, _, hcache, -⟩ := h.landed hash hmem
    simp [hcache]
  · rw [h.cache hash hmem]
    exact hd

theorem Grows.cache_good (h : Grows landed d t)
    (hd : ∀ loc tag, d.pool.cache hash = some (loc, tag) → d.Good hash tag loc) (loc : Location) (tag : Tag)
    (hcache : t.pool.cache hash = some (loc, tag)) : t.Good hash tag loc := by
  by_cases hmem : hash ∈ landed
  · obtain ⟨_, _, hcache', hgood⟩ := h.landed hash hmem
    cases hcache.symm.trans hcache'
    exact hgood
  · exact h.good hash tag loc (hd loc tag (h.cache hash hmem ▸ hcache))

/-- What the call relies on stands if what lands is in its view. -/
theorem PhaseSafe.grow (hsafe : d.PhaseSafe firstByte phase) (h : Grows landed d t)
    (hview : ∀ hash ∈ landed, t.InView firstByte phase hash) : t.PhaseSafe firstByte phase := by
  have hscan : ∀ {rebuilt : Entries Hash}, (∀ hash, d.Copied hash → rebuilt.has hash = true ∨
        ∃ tag loc, d.Good hash tag loc ∧ phase.Ahead tag loc.segmentId) →
      (∀ hash ∈ landed, ∃ tag loc, t.Good hash tag loc ∧ phase.Ahead tag loc.segmentId) →
      ∀ hash, t.Copied hash → rebuilt.has hash = true ∨
        ∃ tag loc, t.Good hash tag loc ∧ phase.Ahead tag loc.segmentId := by
    intro _ hfound hlanded hash hcopied
    rcases h.news hash hcopied with hold | hnew
    · rcases hfound hash hold with hhas | ⟨tag, loc, hgood, hahead⟩
      · exact .inl hhas
      · exact .inr ⟨tag, loc, h.good hash tag loc hgood, hahead⟩
    · exact .inr (hlanded hash hnew)
  cases phase with
  | list vdevs rebuilt | scan u todo vdevs rebuilt =>
    obtain ⟨hsound, honline, hfound⟩ := hsafe
    exact ⟨fun hash tag loc hlookup ↦ h.good hash tag loc (hsound hash tag loc hlookup),
      fun v id hahead ↦ h.online ▸ honline v id hahead, hscan hfound hview⟩
  | clear =>
    obtain ⟨hsound, hfound, hcache⟩ := hsafe
    refine ⟨fun hash tag loc hlookup ↦ h.good hash tag loc (hsound hash tag loc hlookup), fun hash hcopied ↦ ?_,
      fun hash hbucket ↦ h.cache_good (hcache hash hbucket)⟩
    rcases h.news hash hcopied with hold | hnew
    · exact (hfound hash hold).imp_right (And.imp_right h.isSome)
    · obtain ⟨_, _, hcached, -⟩ := h.landed hash hnew
      exact .inr ⟨hview hash hnew, by simp [hcached]⟩
  | extend =>
    obtain ⟨hgood, hfound, hcache⟩ := hsafe
    refine ⟨fun entry hentry ↦ h.good _ _ _ (hgood entry hentry), fun hash hcopied ↦ ?_,
      fun hash ↦ h.cache_good (hcache hash)⟩
    rcases h.news hash hcopied with hold | hnew
    · exact (hfound hash hold).imp_left h.isSome
    · obtain ⟨_, _, hcached, -⟩ := h.landed hash hnew
      exact .inl (by simp [hcached])
  | role =>
    obtain ⟨hfound, hcache⟩ := hsafe
    refine ⟨fun hash hcopied ↦ ?_, fun hash ↦ h.cache_good (hcache hash)⟩
    rcases h.news hash hcopied with hold | hnew
    · exact h.isSome (hfound hash hold)
    · obtain ⟨_, _, hcached, -⟩ := h.landed hash hnew
      simp [hcached]

/-! ## The call -/

structure Tracked (firstByte : Hash → Nat) (d : Promoting Hash) : Prop where
  follows : d.pool.Follows
  stripes : ∀ id, d.pool.nextSegmentId ≤ id → d.pool.stripes id = none
  call : ∀ c, d.call = some c → d.pool.primary ∉ d.pool.online ∧ (∀ hash ∈ d.pool.acked, d.Copied hash) ∧
    (∀ hash ∈ d.written, d.Copied hash) ∧ d.PhaseSafe firstByte c.phase

theorem mem_scan (h : s.recordAt (.vdev v) loc = some hash) : ((hash, .vdev v), loc) ∈ s.scan v [loc.segmentId] := by
  obtain ⟨_, hseg, hget⟩ := recordAt_vdev.1 h
  refine mem_flatMap.2 ⟨loc.segmentId, mem_singleton_self _, ?_⟩
  rw [hseg]
  exact mem_map.2 ⟨(hash, loc), mem_entries.2 ⟨rfl, hget⟩, rfl⟩

theorem mem_scanStripes {unreadable : List SegmentId}
    (hstripes : ∀ id, s.nextSegmentId ≤ id → s.stripes id = none) :
    ((hash, tag), loc) ∈ s.scanStripes unreadable ↔
      tag = .striped ∧ s.recordAt .striped loc = some hash ∧ loc.segmentId ∉ unreadable := by
  constructor
  · intro h
    obtain ⟨_, -, hentry⟩ := mem_flatMap.1 h
    split at hentry
    next records hrecords =>
      split_ifs at hentry with hread
      · cases hentry
      · obtain ⟨⟨_, _⟩, hrecord, heq⟩ := mem_map.1 hentry
        cases heq
        obtain ⟨rfl, hget⟩ := mem_entries.1 hrecord
        exact ⟨rfl, bind_eq_some_iff.2 ⟨records, hrecords, hget⟩, hread⟩
    · cases hentry
  · rintro ⟨rfl, hrecord, hread⟩
    obtain ⟨_, hrecords, hget⟩ := bind_eq_some_iff.1 hrecord
    have hlt : loc.segmentId < s.nextSegmentId := by
      by_contra hge
      rw [hstripes _ (Nat.le_of_not_lt hge)] at hrecords
      cases hrecords
    refine mem_flatMap.2 ⟨loc.segmentId, mem_range.2 hlt, ?_⟩
    rw [hrecords]
    simp only [if_neg hread]
    exact mem_map.2 ⟨(hash, loc), mem_entries.2 ⟨rfl, hget⟩, rfl⟩

/-- A phase of the call that changes nothing but the cache. -/
theorem Tracked.setPhase (h : d.Tracked firstByte) (hc : d.call = some c)
    (cache : Hash → Option (Location × Tag))
    (hsafe : (d.setPool { d.pool with cache := cache }).PhaseSafe firstByte phase) :
    ((d.setPool { d.pool with cache := cache }).setPhase c phase).Tracked firstByte := by
  obtain ⟨hprimary, hacked, hwritten, -⟩ := h.call c hc
  refine ⟨{ h.follows with }, h.stripes, ?_⟩
  rintro _ ⟨⟩
  exact ⟨hprimary, hacked, hwritten, hsafe⟩

/-- Every step of the call but the last. -/
theorem Tracked.advance (h : d.Tracked firstByte) (hc : d.call = some c) {order : List SegmentId}
    (hphase : c.phase ≠ .role) (hstep : d.advance firstByte order c = some t) :
    t.Tracked firstByte := by
  obtain ⟨hprimary, hacked, hwritten, hsafe⟩ := h.call c hc
  unfold Promoting.advance at hstep
  split at hstep
  case h_1 v vdevs rebuilt heq =>
    obtain ⟨horder, ⟨⟩⟩ := ite_none_right_eq_some.1 hstep
    rw [heq] at hsafe
    obtain ⟨hsound, honline, hfound⟩ := hsafe
    refine h.setPhase hc d.pool.cache ⟨hsound, fun u id hahead ↦ ?_, fun hash hcopied ↦ (hfound hash hcopied).imp_right ?_⟩
    · rcases hahead with hmem | ⟨rfl, -⟩
      · exact honline u id (mem_cons_of_mem v hmem)
      · exact honline u id mem_cons_self
    · rintro ⟨tag, loc, hgood, hahead⟩
      refine ⟨tag, loc, hgood, ?_⟩
      cases tag with
      | striped => trivial
      | vdev u =>
        rcases mem_cons.1 hahead with rfl | hmem
        · obtain ⟨_, hseg, -⟩ := recordAt_vdev.1 hgood.1
          refine .inr ⟨rfl, horder loc.segmentId ?_ (by simp [hseg])⟩
          by_contra hge
          rw [h.follows.fresh u _ (Nat.le_of_not_lt hge)] at hseg
          cases hseg
        · exact .inl hmem
  case h_2 v id todo vdevs rebuilt heq =>
    cases hstep
    rw [heq] at hsafe
    obtain ⟨hsound, honline, hfound⟩ := hsafe
    refine h.setPhase hc d.pool.cache ⟨fun hash tag loc hlookup ↦ ?_, fun u i hahead ↦ ?_, fun hash hcopied ↦ ?_⟩
    · rcases lookup_putAll hlookup with hentry | ⟨hold, -⟩
      · obtain ⟨rfl, hrecord⟩ := recordAt_of_mem_scan hentry
        exact ⟨hrecord, honline v id (.inr ⟨rfl, mem_cons_self⟩)⟩
      · exact hsound hash tag loc hold
    · exact honline u i (hahead.imp_right (And.imp_right (mem_cons_of_mem id)))
    · rw [has_putAll]
      rcases hfound hash hcopied with hhas | ⟨tag, loc, hgood, hahead⟩
      · exact .inl (.inl hhas)
      · cases tag with
        | striped => exact .inr ⟨.striped, loc, hgood, trivial⟩
        | vdev u =>
          rcases hahead with hmem | ⟨rfl, hmem⟩
          · exact .inr ⟨.vdev u, loc, hgood, .inl hmem⟩
          · rcases mem_cons.1 hmem with rfl | hmem
            · exact .inl (.inr ⟨_, mem_scan hgood.1, rfl⟩)
            · exact .inr ⟨.vdev u, loc, hgood, .inr ⟨rfl, hmem⟩⟩
  case h_3 v vdevs rebuilt heq =>
    cases hstep
    rw [heq] at hsafe
    obtain ⟨hsound, honline, hfound⟩ := hsafe
    refine h.setPhase hc d.pool.cache ⟨hsound, fun u id hahead ↦ honline u id (.inl hahead), fun hash hcopied ↦
      (hfound hash hcopied).imp_right ?_⟩
    rintro ⟨tag, loc, hgood, hahead⟩
    refine ⟨tag, loc, hgood, ?_⟩
    cases tag with
    | striped => trivial
    | vdev => exact hahead.resolve_right fun hmem ↦ not_mem_nil hmem.2
  case h_4 rebuilt heq =>
    cases hstep
    rw [heq] at hsafe
    obtain ⟨hsound, -, hfound⟩ := hsafe
    refine h.setPhase hc d.pool.cache ⟨fun hash tag loc hlookup ↦ ?_, fun hash hcopied ↦ .inl ?_, fun hash hbucket ↦ ?_⟩
    · rcases lookup_putAll hlookup with hentry | ⟨hold, -⟩
      · obtain ⟨rfl, hrecord, hread⟩ := (mem_scanStripes h.stripes).1 hentry
        exact ⟨hrecord, hread⟩
      · exact hsound hash tag loc hold
    · rw [has_putAll]
      rcases hfound hash hcopied with hhas | ⟨tag, _, hgood, hahead⟩
      · exact .inl hhas
      · cases tag with
        | striped => exact .inr ⟨_, (mem_scanStripes h.stripes).2 ⟨rfl, hgood.1, hgood.2⟩, rfl⟩
        | vdev => exact absurd hahead not_mem_nil
    · exact absurd (mem_range.2 (Nat.mod_lt _ (by decide))) hbucket
  case h_5 b todo rebuilt heq =>
    cases hstep
    rw [heq] at hsafe
    obtain ⟨hsound, hfound, hcache⟩ := hsafe
    refine h.setPhase hc _ ⟨hsound, fun hash hcopied ↦ (hfound hash hcopied).imp_right ?_, fun hash hbucket loc tag ↦ ?_⟩
    · rintro ⟨hbucket, hcached⟩
      rw [mem_cons, not_or] at hbucket
      exact ⟨hbucket.2, by simpa [setPool, hbucket.1] using hcached⟩
    · by_cases hb : bucketFor firstByte hash = b
      · simp [setPool, hb]
      · intro hcached
        refine hcache hash (fun hmem ↦ (mem_cons.1 hmem).elim hb hbucket) loc tag ?_
        simpa [setPool, hb] using hcached
  case h_6 rebuilt heq =>
    cases hstep
    rw [heq] at hsafe
    obtain ⟨hsound, hfound, hcache⟩ := hsafe
    refine h.setPhase hc d.pool.cache ⟨fun entry hentry ↦ ?_, fun hash hcopied ↦ ?_, fun hash ↦
      hcache hash not_mem_nil⟩
    · exact hsound _ _ _ (lookup_of_mem_preferredLocations hentry)
    · rcases hfound hash hcopied with hhas | ⟨-, hcached⟩
      · exact .inr (mem_preferredLocations hhas)
      · exact .inl hcached
  case h_7 hash loc tag todo rebuilt heq =>
    cases hstep
    rw [heq] at hsafe
    obtain ⟨hgood, hfound, hcache⟩ := hsafe
    refine h.setPhase hc _ ⟨fun entry hentry ↦ hgood entry (mem_cons_of_mem _ hentry), fun hash' hcopied ↦ ?_,
      fun hash' loc' tag' hcached ↦ ?_⟩
    · by_cases heq' : hash' = hash
      · exact .inl (by simp [setPool, heq'])
      · rcases hfound hash' hcopied with hcached | ⟨entry, hentry, hentryHash⟩
        · exact .inl (by simpa [setPool, heq'] using hcached)
        · rcases mem_cons.1 hentry with rfl | hmem
          · exact absurd hentryHash.symm heq'
          · exact .inr ⟨entry, hmem, hentryHash⟩
    · by_cases heq' : hash' = hash
      · simp only [setPool, heq', if_true, some.injEq, Prod.mk.injEq] at hcached
        obtain ⟨rfl, rfl⟩ := hcached
        exact heq' ▸ hgood _ mem_cons_self
      · exact hcache hash' loc' tag' (by simpa [setPool, heq'] using hcached)
  case h_8 rebuilt heq =>
    cases hstep
    rw [heq] at hsafe
    obtain ⟨-, hfound, hcache⟩ := hsafe
    refine ⟨{ h.follows with }, h.stripes, ?_⟩
    rintro _ ⟨⟩
    exact ⟨hprimary, hacked, hwritten, fun hash hcopied ↦ (hfound hash hcopied).resolve_right (by simp), hcache⟩
  case h_9 heq => exact absurd heq hphase

/-! ## Writers and readers -/

theorem Grows.of_pool (hcall : t.call = d.call) (hunreadable : t.unreadable = d.unreadable)
    (hprimary : t.pool.primary = d.pool.primary) (honline : t.pool.online = d.pool.online)
    (hstripes : t.pool.stripes = d.pool.stripes) (hacked : ∀ hash ∈ t.pool.acked, hash ∈ d.pool.acked ∨ hash ∈ landed)
    (hwritten : ∀ hash ∈ t.written, hash ∈ d.written ∨ hash ∈ landed)
    (hrecords : ∀ v loc hash, d.pool.recordAt (.vdev v) loc = some hash → t.pool.recordAt (.vdev v) loc = some hash)
    (hnews : ∀ v loc hash, t.pool.recordAt (.vdev v) loc = some hash →
      d.pool.recordAt (.vdev v) loc = some hash ∨ d.Copied hash ∨ hash ∈ landed)
    (hcache : ∀ hash, hash ∉ landed → t.pool.cache hash = d.pool.cache hash)
    (hlanded : ∀ hash ∈ landed, ∃ loc tag, t.pool.cache hash = some (loc, tag) ∧ t.Good hash tag loc) :
    Grows landed d t := by
  refine ⟨hcall, hprimary, honline, hacked, hwritten, fun hash tag loc hgood ↦ ?_, fun hash hcopied ↦ ?_, hcache, hlanded⟩
  · obtain ⟨hrecord, hplace⟩ := hgood
    cases tag with
    | striped => exact ⟨by simpa [recordAt, hstripes] using hrecord, hunreadable ▸ hplace⟩
    | vdev v => exact ⟨hrecords v loc hash hrecord, honline ▸ hplace⟩
  · obtain ⟨tag, loc, hrecord, hplace⟩ := hcopied
    cases tag with
    | striped =>
      exact .inl ⟨.striped, loc, by simpa [recordAt, hstripes] using hrecord, hunreadable ▸ hplace⟩
    | vdev v =>
      rcases hnews v loc hash hrecord with hold | hnew
      · exact .inl ⟨.vdev v, loc, hold, honline ▸ hplace⟩
      · exact hnew

theorem Tracked.grow (h : d.Tracked firstByte) (hfollows : t.pool.Follows)
    (hstripes : ∀ id, t.pool.nextSegmentId ≤ id → t.pool.stripes id = none) (hcall : t.call = d.call)
    (hgrows : ∀ c, d.call = some c → ∃ landed, Grows landed d t ∧ ∀ hash ∈ landed, t.InView firstByte c.phase hash) :
    t.Tracked firstByte := by
  refine ⟨hfollows, hstripes, fun c hc ↦ ?_⟩
  rw [hcall] at hc
  obtain ⟨hprimary, hacked, hwritten, hsafe⟩ := h.call c hc
  obtain ⟨landed, hgrow, hview⟩ := hgrows c hc
  have hlanded : ∀ hash ∈ landed, t.Copied hash := by
    intro hash hmem
    obtain ⟨loc, tag, -, hgood⟩ := hgrow.landed hash hmem
    exact ⟨tag, loc, hgood⟩
  refine ⟨by rw [hgrow.primary, hgrow.online]; exact hprimary, fun hash hmem ↦ ?_, fun hash hmem ↦ ?_,
    hsafe.grow hgrow hview⟩
  · exact (hgrow.acked hash hmem).elim (fun hold ↦ hgrow.copied (hacked hash hold)) (hlanded hash)
  · exact (hgrow.written hash hmem).elim (fun hold ↦ hgrow.copied (hwritten hash hold)) (hlanded hash)

theorem online_fault (h : ∀ v ∈ failed, v ∉ s.online) : (s.fault (vdevs.filter (· ∈ failed))).online = s.online := by
  refine filter_eq_self.2 fun v hv ↦ ?_
  simp only [mem_filter, not_and, decide_eq_true_eq]
  exact fun _ hfailed ↦ h v hfailed hv

theorem recordAt_createSegment_news {seg : Segment Hash}
    (h : (s.createSegment vdevs seg).recordAt (.vdev v) loc = some hash) :
    s.recordAt (.vdev v) loc = some hash ∨ hash ∈ seg.records := by
  obtain ⟨seg', hseg, hget⟩ := recordAt_vdev.1 h
  simp only [createSegment] at hseg
  split_ifs at hseg
  · cases hseg
    exact .inr (mem_of_getElem? hget)
  · exact .inl (recordAt_vdev.2 ⟨seg', hseg, hget⟩)

theorem recordAt_updateSegment_news {id : SegmentId} (landed : List Hash)
    (hf : ∀ (seg : Segment Hash) (i : Nat) hash, (f seg).records[i]? = some hash →
      seg.records[i]? = some hash ∨ hash ∈ landed)
    (h : (s.updateSegment vdevs id f).recordAt (.vdev v) loc = some hash) :
    s.recordAt (.vdev v) loc = some hash ∨ hash ∈ landed := by
  obtain ⟨seg', hseg, hget⟩ := recordAt_vdev.1 h
  rcases segments_updateSegment hseg with ⟨hseg, -⟩ | ⟨hid, -, old, hold, rfl⟩
  · exact .inl (recordAt_vdev.2 ⟨seg', hseg, hget⟩)
  · exact (hf old loc.offset hash hget).imp_left fun hget ↦ recordAt_vdev.2 ⟨old, hid ▸ hold, hget⟩

/-- A record lands in view of the call: on an online device first, on a device where the scan has
still to read the segment, or after its bucket of the cache was emptied. -/
def LandsInView (firstByte : Hash → Nat) (d : Promoting Hash) (phase : PromotePhase Hash) (w : Writer) (hash : Hash)
    (taken : List VdevId) : Prop :=
  (∀ v ∈ taken.head?, v ∈ d.pool.online) ∧
    match phase with
    | .list _ _ | .scan _ _ _ _ => taken = [] ∨ ∃ v ∈ taken, phase.Ahead (.vdev v) w.segmentId
    | .clear todo _ => bucketFor firstByte hash ∉ todo
    | _ => True

/-- At the start, every acknowledged record has a copy that can be read, and what the new primary
has of an index names such copies. While the call runs, no online device fails, records land in
its view, and no heal of the failed primary gets to its cache entry. -/
def PromotesInView (firstByte : Hash → Nat) (d : Promoting Hash) : PromoteAction Hash → Prop
  | .promotePrimary =>
    (∀ hash ∈ d.pool.acked, d.pool.hasCopy d.pool.online d.unreadable hash = true) ∧
      ∀ v ∈ d.pool.online.head?, ∀ file ∈ d.pool.indexFiles v, ∀ entry ∈ file.entries.toList,
        d.Good entry.1.1 entry.1.2 entry.2
  | .append stream hash failed =>
    ∀ c ∈ d.call, (∀ v ∈ failed, v ∉ d.pool.online) ∧
      ∀ w ∈ d.pool.writers stream, d.LandsInView firstByte c.phase w hash (w.vdevs.filter (· ∉ failed))
  | .putWaiting i _ => d.call.isSome → ∀ x ∈ d.waiting[i]?, x.heals = true → d.pool.primary ∉ x.entry.vdevs
  | a => d.call.isSome → ∀ v ∈ a.failed, v ∉ d.pool.online

theorem Tracked.openSegment (h : d.Tracked firstByte)
    (hC : d.call.isSome → ∀ v ∈ failed, v ∉ d.pool.online) {pool : State Hash}
    (hstep : d.pool.openSegment stream failed = some pool) : (d.setPool pool).Tracked firstByte := by
  obtain ⟨-, -, hsame⟩ := openSegment_eq_some hstep
  obtain ⟨-, ⟨⟩⟩ := ite_none_right_eq_some.1 hstep
  refine h.grow (hsame.follows (h.follows.openOn stream _)) (fun id hid ↦ h.stripes id (Nat.le_of_succ_le hid)) rfl
    fun c hc ↦ ⟨[], .of_pool rfl rfl rfl ?_ rfl (fun _ h ↦ .inl h) (fun _ h ↦ .inl h)
      (records_createSegment h.follows _ _) (fun v _ _ hrecord ↦ ?_) (fun _ _ ↦ rfl) (by simp), by simp⟩
  · refine filter_eq_self.2 fun v hv ↦ ?_
    simpa using fun hfailed ↦ hC (by simp [hc]) v hfailed hv
  · exact (recordAt_createSegment_news hrecord).imp_right (by simp)

/-- A sync or a seal. -/
theorem Tracked.update (h : d.Tracked firstByte)
    (hC : d.call.isSome → ∀ v ∈ failed, v ∉ d.pool.online) {w' : Option Writer}
    (hfollows : ((d.pool.updateSegment (w.vdevs.filter (· ∉ failed)) w.segmentId f).setWriter stream w').Follows)
    (hf : ∀ seg : Segment Hash, (f seg).records = seg.records) :
    (d.setPool (((d.pool.updateSegment (w.vdevs.filter (· ∉ failed)) w.segmentId f).setWriter stream w').fault
      (w.vdevs.filter (· ∈ failed)))).Tracked firstByte := by
  refine h.grow ((sameWriters_fault _).follows hfollows) h.stripes rfl fun c hc ↦ ⟨[], .of_pool rfl rfl rfl
    (online_fault (s := d.pool) (hC (by simp [hc]))) rfl (fun _ h ↦ .inl h) (fun _ h ↦ .inl h)
    (fun v loc hash hrecord ↦ ?_) (fun v _ hash hrecord ↦ ?_) (fun _ _ ↦ rfl) (by simp), by simp⟩
  · obtain ⟨seg, hseg, hget⟩ := recordAt_vdev.1 hrecord
    refine recordAt_vdev.2 ?_
    simp only [setPool, fault, setWriter, updateSegment, hseg]
    split_ifs
    · exact ⟨f seg, rfl, (hf seg).symm ▸ hget⟩
    · exact ⟨seg, rfl, hget⟩
  · have hnews := recordAt_updateSegment_news [] (fun seg i _ hget ↦ .inl (hf seg ▸ hget)) hrecord
    exact hnews.imp_right (by simp)

theorem getElem?_append_singleton {l : List Hash} {hash' : Hash} {i : Nat}
    (h : (l ++ [hash])[i]? = some hash') : l[i]? = some hash' ∨ hash' ∈ [hash] := by
  by_cases hi : i < l.length
  · rw [getElem?_append_left hi] at h
    exact .inl h
  · rw [getElem?_append_right (Nat.le_of_not_lt hi)] at h
    exact .inr (mem_of_getElem? h)

/-- A record that lands, with what becomes of its index entry. -/
theorem Tracked.land (h : d.Tracked firstByte) (hw : d.pool.writers stream = some w)
    {first : VdevId} {rest : List VdevId} (htaken : w.vdevs.filter (· ∉ failed) = first :: rest)
    (hC : ∀ c ∈ d.call, (∀ v ∈ failed, v ∉ d.pool.online) ∧
      d.LandsInView firstByte c.phase w hash (w.vdevs.filter (· ∉ failed))) {landed : State Hash}
    (hlanded : landed = ((d.pool.fault (w.vdevs.filter (· ∈ failed))).land stream w (first :: rest)
      first hash).acknowledge hash)
    (hpool : t.pool = { landed with pendingIndex := t.pool.pendingIndex }) (hcall : t.call = d.call)
    (hunreadable : t.unreadable = d.unreadable) (hwritten : t.written = hash :: d.written) :
    t.Tracked firstByte := by
  have hsub : ∀ v ∈ first :: rest, v ∈ w.vdevs := fun v hv ↦ mem_of_mem_filter (htaken ▸ hv)
  have hfollows := h.follows.appendTo hw hsub hash
  have hsame : SameWriters (d.pool.appendTo stream w (first :: rest) hash) t.pool := by
    rw [hpool, hlanded]
    exact ⟨rfl, rfl, rfl⟩
  have honline : t.pool.online = (d.pool.fault (w.vdevs.filter (· ∈ failed))).online := by rw [hpool, hlanded]; rfl
  have hstripes : t.pool.stripes = d.pool.stripes := by rw [hpool, hlanded]; rfl
  have hnext : t.pool.nextSegmentId = d.pool.nextSegmentId := by rw [hpool, hlanded]; rfl
  have hcache : ∀ hash', t.pool.cache hash' =
      if hash' = hash then some (⟨w.segmentId, w.cursor⟩, .vdev first) else d.pool.cache hash' := by
    intro _
    rw [hpool, hlanded]
    rfl
  -- The record is at the cursor of every device that takes it.
  have hrecord : ∀ v ∈ first :: rest, t.pool.recordAt (.vdev v) ⟨w.segmentId, w.cursor⟩ = some hash := by
    intro v hv
    rw [hsame.recordAt]
    exact recordAt_append hash hv (h.follows.cursor stream w hw v (hsub v hv))
  refine h.grow (hsame.follows hfollows) (fun id hid ↦ hstripes ▸ h.stripes id (hnext ▸ hid)) hcall fun c hc ↦ ?_
  obtain ⟨hfailed, hfirst, hview⟩ := hC c hc
  have honline : t.pool.online = d.pool.online := honline.trans (online_fault hfailed)
  rw [htaken] at hfirst hview
  have hgood : t.Good hash (.vdev first) ⟨w.segmentId, w.cursor⟩ :=
    ⟨hrecord first mem_cons_self, honline.symm ▸ hfirst first rfl⟩
  refine ⟨[hash], .of_pool hcall hunreadable (by rw [hpool, hlanded]; rfl) honline hstripes (fun hash' hmem ↦ ?_)
    (fun hash' hmem ↦ ?_) (fun v loc hash' hold ↦ ?_) (fun v loc hash' hnew ↦ ?_) (fun hash' hne ↦ ?_) ?_, ?_⟩
  · rw [hpool, hlanded] at hmem
    exact (mem_cons.1 hmem).elim (fun heq ↦ .inr (mem_singleton.2 heq)) .inl
  · rw [hwritten] at hmem
    exact (mem_cons.1 hmem).elim (fun heq ↦ .inr (mem_singleton.2 heq)) .inl
  · rw [hsame.recordAt]
    exact records_of_extends (fun seg ↦ seg.extends_append hash) v loc hash' hold
  · rw [hsame.recordAt] at hnew
    exact (recordAt_updateSegment_news [hash] (fun _ i _ ↦ getElem?_append_singleton) hnew).imp_right .inr
  · rw [hcache, if_neg fun heq ↦ hne (mem_singleton.2 heq)]
  · intro _ hmem
    obtain rfl := mem_singleton.1 hmem
    exact ⟨_, _, by rw [hcache, if_pos rfl], hgood⟩
  · intro hash' hmem
    obtain rfl := mem_singleton.1 hmem
    have hahead : (first :: rest = [] ∨ ∃ v ∈ first :: rest, c.phase.Ahead (.vdev v) w.segmentId) →
        (∀ v id, c.phase.Ahead (.vdev v) id → v ∈ d.pool.online) →
        ∃ tag loc, t.Good hash' tag loc ∧ c.phase.Ahead tag loc.segmentId := by
      rintro (hnil | ⟨v, hv, hahead⟩) honline'
      · cases hnil
      · exact ⟨.vdev v, ⟨w.segmentId, w.cursor⟩, ⟨hrecord v hv, honline.symm ▸ honline' v _ hahead⟩, hahead⟩
    obtain ⟨-, -, -, hsafe⟩ := h.call c hc
    generalize c.phase = phase at hsafe hview hahead ⊢
    cases phase with
    | list vdevs rebuilt | scan u todo vdevs rebuilt => exact hahead hview hsafe.2.1
    | clear => exact hview
    | extend | role => trivial

theorem Tracked.append (h : d.Tracked firstByte)
    (hC : d.PromotesInView firstByte (.append stream hash failed)) (hstep : d.append stream hash failed = some t) :
    t.Tracked firstByte := by
  obtain ⟨w, hw, rfl⟩ := map_eq_some_iff.1 hstep
  have hlands : ∀ c ∈ d.call, (∀ v ∈ failed, v ∉ d.pool.online) ∧
      d.LandsInView firstByte c.phase w hash (w.vdevs.filter (· ∉ failed)) :=
    fun c hc ↦ ⟨(hC c hc).1, (hC c hc).2 w hw⟩
  have hfailed : d.call.isSome → ∀ v ∈ failed, v ∉ d.pool.online := by
    intro hsome
    obtain ⟨c, hc⟩ := isSome_iff_exists.1 hsome
    exact (hlands c hc).1
  have hsub : ∀ v ∈ w.vdevs.filter (· ∉ failed), v ∈ w.vdevs := fun v hv ↦ mem_of_mem_filter hv
  split
  next hnil =>
    have hclose := h.update (w := w) hfailed (h.follows.closeOn hw hsub) (fun _ ↦ rfl)
    rw [hnil, updateSegment_nil] at hclose
    exact hclose
  next hnil =>
    have hsync := h.update (w := w) hfailed (h.follows.syncOn hw hsub) (fun _ ↦ rfl)
    rw [hnil, updateSegment_nil] at hsync
    exact hsync
  next hvdevs =>
    dsimp only
    split
    · exact h.land hw hvdevs hlands rfl rfl rfl rfl rfl
    · exact h.land hw hvdevs hlands rfl rfl rfl rfl rfl

/-- A step that touches neither the segments nor the cache. -/
theorem Tracked.of_same (h : d.Tracked firstByte) (hsame : SameWriters d.pool t.pool) (hcall : t.call = d.call)
    (hunreadable : t.unreadable = d.unreadable) (hprimary : t.pool.primary = d.pool.primary)
    (honline : d.call.isSome → t.pool.online = d.pool.online) (hstripes : t.pool.stripes = d.pool.stripes)
    (hacked : t.pool.acked = d.pool.acked) (hwritten : t.written = d.written)
    (hcache : d.call.isSome → t.pool.cache = d.pool.cache) : t.Tracked firstByte := by
  refine h.grow (hsame.follows h.follows) (fun id hid ↦ hstripes ▸ h.stripes id (hsame.next ▸ hid)) hcall fun c hc ↦
    ⟨[], .of_pool hcall hunreadable hprimary (honline (by simp [hc])) hstripes (fun _ hmem ↦ .inl (hacked ▸ hmem))
      (fun _ hmem ↦ .inl (hwritten ▸ hmem)) (fun v loc hash hrecord ↦ ?_) (fun v _ hash hrecord ↦ .inl ?_)
      (fun _ _ ↦ by rw [hcache (by simp [hc])]) (by simp), by simp⟩
  · rw [hsame.recordAt]
    exact hrecord
  · rw [hsame.recordAt] at hrecord
    exact hrecord

theorem copied_of_hasCopy (h : d.pool.hasCopy d.pool.online d.unreadable hash = true) : d.Copied hash := by
  obtain ⟨id, -, hcopy⟩ := any_eq_true.1 h
  rcases Bool.or_eq_true_iff.1 hcopy with hdevice | hstripe
  · obtain ⟨v, hv, hany⟩ := any_eq_true.1 hdevice
    obtain ⟨seg, hseg, hmem⟩ := (any_eq_true _ _).1 hany
    obtain ⟨i, hget⟩ := mem_iff_getElem?.1 (of_decide_eq_true hmem)
    exact ⟨.vdev v, ⟨id, i⟩, recordAt_vdev.2 ⟨seg, hseg, hget⟩, hv⟩
  · obtain ⟨hread, hany⟩ := Bool.and_eq_true_iff.1 hstripe
    obtain ⟨records, hrecords, hmem⟩ := (any_eq_true _ _).1 hany
    obtain ⟨i, hget⟩ := mem_iff_getElem?.1 (of_decide_eq_true hmem)
    exact ⟨.striped, ⟨id, i⟩, bind_eq_some_iff.2 ⟨records, hrecords, hget⟩, of_decide_eq_true hread⟩

theorem Tracked.heal (h : d.Tracked firstByte) {kind : StreamKind}
    (hstep : d.heal v kind hash = some t) : t.Tracked firstByte := by
  obtain ⟨⟨-, hcopy⟩, ⟨⟩⟩ := ite_none_right_eq_some.1 hstep
  refine h.grow (h.follows.createSegment [v] _) (fun id hid ↦ h.stripes id (Nat.le_of_succ_le hid)) rfl fun c _ ↦
    ⟨[], .of_pool rfl rfl rfl rfl rfl (fun _ h ↦ .inl h) (fun _ h ↦ .inl h)
      (records_createSegment h.follows _ _) (fun u _ _ hrecord ↦ ?_) (fun _ _ ↦ rfl) (by simp), by simp⟩
  rcases recordAt_createSegment_news hrecord with hold | hnew
  · exact .inl hold
  · obtain rfl := mem_singleton.1 hnew
    exact .inr (.inl (copied_of_hasCopy hcopy))

theorem Tracked.promotePrimary (h : d.Tracked firstByte) (hC : d.PromotesInView firstByte .promotePrimary)
    (hstep : d.promotePrimary = some t) : t.Tracked firstByte := by
  obtain ⟨hacked, hfile⟩ := hC
  unfold Promoting.promotePrimary at hstep
  split at hstep
  · cases hstep
  next v _ honline =>
    obtain ⟨⟨-, hprimary⟩, ⟨⟩⟩ := ite_none_right_eq_some.1 hstep
    refine ⟨h.follows, h.stripes, ?_⟩
    rintro c ⟨⟩
    refine ⟨hprimary, fun hash hmem ↦ copied_of_hasCopy (hacked hash hmem), by simp, fun hash tag loc hlookup ↦ ?_,
      fun u _ hu ↦ hu, fun hash hcopied ↦ .inr ?_⟩
    · cases hindex : d.pool.indexFiles v with
      | none => simp [hindex] at hlookup
      | some file =>
        rw [hindex] at hlookup
        refine hfile v (by simp [honline]) file hindex ((hash, tag), loc) (Table.mem_toList.2 hlookup)
    · obtain ⟨tag, loc, hgood⟩ := hcopied
      refine ⟨tag, loc, hgood, ?_⟩
      cases tag with
      | striped => trivial
      | vdev => exact hgood.2

theorem Tracked.step (h : d.Tracked firstByte) {a : PromoteAction Hash} (hC : d.PromotesInView firstByte a)
    (hstep : d.step firstByte a = some t) : t.Tracked firstByte := by
  cases a with
  | openSegment =>
    obtain ⟨_, hpool, rfl⟩ := map_eq_some_iff.1 hstep
    exact h.openSegment hC hpool
  | append => exact h.append hC hstep
  | fsync =>
    obtain ⟨w, hw, rfl⟩ := map_eq_some_iff.1 hstep
    exact h.update hC (h.follows.syncOn hw fun v hv ↦ mem_of_mem_filter hv) fun _ ↦ rfl
  | sealSegment =>
    obtain ⟨-, hstep⟩ := ite_none_right_eq_some.1 hstep
    obtain ⟨w, hw, rfl⟩ := map_eq_some_iff.1 hstep
    exact h.update hC (h.follows.closeOn hw fun v hv ↦ mem_of_mem_filter hv) fun _ ↦ rfl
  | flush _ ok =>
    obtain ⟨-, ⟨⟩⟩ := ite_none_left_eq_some.1 hstep
    cases ok with
    | false | true => exact h.of_same (sameWriters_flush _ _) rfl rfl rfl (fun _ ↦ rfl) rfl rfl rfl fun _ ↦ rfl
  | heal => exact h.heal hstep
  | putWaiting =>
    obtain ⟨-, hput⟩ := ite_none_left_eq_some.1 hstep
    obtain ⟨x, hx, rfl⟩ := map_eq_some_iff.1 hput
    split_ifs with hheals
    · refine h.of_same ⟨rfl, rfl, rfl⟩ rfl rfl rfl (fun _ ↦ rfl) rfl rfl rfl fun hsome ↦ ?_
      exact absurd hheals.2 (hC hsome x hx hheals.1)
    · exact h.of_same ⟨rfl, rfl, rfl⟩ rfl rfl rfl (fun _ ↦ rfl) rfl rfl rfl fun _ ↦ rfl
  | fault v =>
    cases hstep
    refine h.of_same ⟨rfl, rfl, rfl⟩ rfl rfl rfl (fun hsome ↦ ?_) rfl rfl rfl fun _ ↦ rfl
    refine filter_eq_self.2 fun u hu ↦ ?_
    have hne : u ≠ v := fun heq ↦ hC hsome v (mem_singleton_self v) (heq ▸ hu)
    simpa using hne
  | promotePrimary => exact h.promotePrimary hC hstep
  | advance =>
    obtain ⟨c, hc, hadvance⟩ := bind_eq_some_iff.1 hstep
    by_cases hphase : c.phase = .role
    · unfold Promoting.advance at hadvance
      rw [hphase] at hadvance
      cases hadvance
      exact ⟨{ h.follows with }, h.stripes, by simp⟩
    · exact h.advance hc hphase hadvance

instance (d : Promoting Hash) (hash : Hash) (tag : Tag) (loc : Location) : Decidable (d.Good hash tag loc) := by
  unfold Good
  cases tag with
  | vdev => infer_instance
  | striped => infer_instance

instance (phase : PromotePhase Hash) (tag : Tag) (id : SegmentId) : Decidable (phase.Ahead tag id) := by
  unfold PromotePhase.Ahead
  split <;> infer_instance

instance (d : Promoting Hash) (phase : PromotePhase Hash) (w : Writer) (hash : Hash) (taken : List VdevId) :
    Decidable (d.LandsInView firstByte phase w hash taken) := by
  unfold LandsInView
  refine @instDecidableAnd _ _ inferInstance ?_
  split <;> infer_instance

instance (d : Promoting Hash) (a : PromoteAction Hash) : Decidable (d.PromotesInView firstByte a) := by
  unfold PromotesInView
  split <;> infer_instance

theorem tracked_of_reachable (h : (promoting Hash firstByte).ReachableUnder (PromotesInView firstByte) d) :
    d.Tracked firstByte :=
  h.invariant (fun _ hinit ↦ ⟨hinit.1, hinit.2.1, by simp [hinit.2.2]⟩) fun _ _ _ _ hinv hC hstep ↦ hinv.step hC hstep

def createdPromoting : Promoting Nat where
  pool := State.created
  unreadable := []
  waiting := []
  written := []
  call := none

theorem createdPromoting_init : (promoting Nat id).init createdPromoting := by
  refine ⟨⟨fun _ _ _ ↦ rfl, ?_, ?_, ?_, ?_⟩, fun _ _ ↦ rfl, rfl⟩ <;> simp [createdPromoting, created]

/-- A promotion to device 1, with records that land before its segment is scanned, after that, and
after the cache was emptied. -/
def promoteRun (unscanned scanned cleared : List Nat) : List (PromoteAction Nat) :=
  let append := map fun hash ↦ PromoteAction.append (.shard 0) hash []
  [.promotePrimary, .advance [0]] ++ append unscanned ++ [.advance []] ++ append scanned ++
    [.advance [], .advance []] ++ replicate 65 (.advance []) ++ append cleared

end Promoting

end Lchfs.Index
