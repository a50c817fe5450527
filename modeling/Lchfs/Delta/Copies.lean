import Lchfs.Delta.Log

/-!
# The copies of a delta segment

Seen from the devices, a step of the log shortens or removes copies, starts the next segment, or
appends one record to the segment that is open. As long as a segment is started under an id that
no device holds, present or not, all copies of an id are beginnings of one list of records.
-/

namespace Lchfs.Delta

open Lchfs.Library
open List Option State Table

variable {n : Nat} {s t : State n} {a : Action n} {p : Pool n} {w : SegmentWriter n} {v : Fin n} {id : SegmentId}
variable {c : Copy} {i : SegmentId} {r : Record}

namespace Pool

variable {dropped : List (Fin n)}

@[simp]
theorem writer_reportFaults : (p.reportFaults w dropped).log.writer = some w := by
  unfold reportFaults setWriter
  split_ifs <;> rfl

@[simp]
theorem nextSegmentId_reportFaults : (p.reportFaults w dropped).log.nextSegmentId = p.log.nextSegmentId := by
  unfold reportFaults setWriter
  split_ifs <;> rfl

end Pool

namespace State

def writer (s : State n) : Option (SegmentWriter n) := s.pool.bind (·.log.writer)

theorem copy_setPool : (s.setPool p).copy = s.copy := rfl

theorem writer_setPool : (s.setPool p).writer = p.log.writer := rfl

theorem copy_onDevices (vdevs : List (Fin n)) (f : Device → Device) (v : Fin n) (id : SegmentId) :
    (s.onDevices vdevs f).copy v id = if v ∈ vdevs then (f (s.devices v)).segments.lookup id else s.copy v id := by
  unfold onDevices copy
  split_ifs <;> simp_all

theorem copy_onSegment (vdevs : List (Fin n)) (i : SegmentId) (f : Copy → Copy) (v : Fin n) (id : SegmentId) :
    (s.onSegment vdevs i f).copy v id = if v ∈ vdevs ∧ id = i then (s.copy v id).map f else s.copy v id := by
  rw [onSegment, copy_onDevices, lookup_modify]
  unfold copy
  split_ifs <;> simp_all

theorem copy_startSegment (x : Failures n) (v : Fin n) (i : SegmentId) : (s.startSegment p x).copy v i =
    if v ∈ x.reached p.online ∧ i = p.log.nextSegmentId then some ⟨[], 0⟩ else s.copy v i := by
  have hcreated : (s.onDevices (x.reached p.online) fun d ↦
      { d with segments := d.segments.insert p.log.nextSegmentId ⟨[], 0⟩ }).copy v i =
        if v ∈ x.reached p.online ∧ i = p.log.nextSegmentId then some ⟨[], 0⟩ else s.copy v i := by
    rw [copy_onDevices, lookup_insert_eq]
    unfold copy
    split_ifs <;> simp_all
  unfold startSegment
  dsimp only
  split_ifs at hcreated ⊢ <;> exact hcreated

theorem writer_startSegment {x : Failures n} (h : (s.startSegment p x).writer = some w) :
    w = ⟨p.log.nextSegmentId, x.left p.online, []⟩ := by
  unfold startSegment at h
  dsimp only at h
  split_ifs at h
  · simp [writer_setPool] at h
  · simpa [writer_setPool] using h.symm

variable {vdevs : List (Fin n)}

theorem copy_deleteNext (h :
    (s.onDevices vdevs fun d ↦ { d with segments := d.segments.erase i }).copy v id = some c) :
    s.copy v id = some c := by
  rw [copy_onDevices, lookup_erase_eq] at h
  split_ifs at h
  · exact h
  · exact h

/-! ## What a step does to the copies -/

/-- Copies get shorter or go, and none does under an open segment; the writer keeps what it has. -/
structure Shrinks (s t : State n) : Prop where
  copy : ∀ v id c', t.copy v id = some c' → ∃ c, s.copy v id = some c ∧ c'.records <+: c.records ∧
    (t.writer ≠ none → c'.records = c.records)
  writer : ∀ w', t.writer = some w' → ∃ w, s.writer = some w ∧ w'.segmentId = w.segmentId ∧ w'.records = w.records ∧
    ∀ v ∈ w'.vdevs, v ∈ w.vdevs
  serial : t.serial = s.serial

/-- An empty segment appears under the next id. -/
structure Starts (p : Pool n) (s t : State n) : Prop where
  pool : s.pool = some p
  copy : ∀ v id c', t.copy v id = some c' → id = p.log.nextSegmentId ∧ c'.records = [] ∨
    ∃ c, s.copy v id = some c ∧ c'.records = c.records
  writer : ∀ w, t.writer = some w → w.segmentId = p.log.nextSegmentId ∧ w.records = []
  next : ∀ p', t.pool = some p' → p'.log.nextSegmentId = p.log.nextSegmentId + 1
  serial : t.serial = s.serial

/-- A record is added to copies of the open segment, those of the devices it goes on with among
them. -/
structure Appends (w : SegmentWriter n) (r : Record) (s t : State n) : Prop where
  before : s.writer = some w
  copy : ∀ v id c', t.copy v id = some c' → ∃ c, s.copy v id = some c ∧
    (c'.records = c.records ∧ (id = w.segmentId → ∀ w', t.writer = some w' → v ∉ w'.vdevs) ∨
      id = w.segmentId ∧ v ∈ w.vdevs ∧ c'.records = c.records ++ [r])
  writer : ∀ w', t.writer = some w' → w'.segmentId = w.segmentId ∧
    (w'.vdevs ≠ [] → w'.records = w.records ++ [r]) ∧ ∀ v ∈ w'.vdevs, v ∈ w.vdevs
  entry : ∀ e, r.deltaEntry = some e → e.serial = s.serial ∧ t.serial = s.serial + 1 ∧ ∃ p ino, s.pool = some p ∧
    p.commit = some (.content ino [] e.newObjectHash) ∧ e.epoch = p.log.localEpoch + 1
  serial : s.serial ≤ t.serial

/-- The records stay where they are, and the writer goes on with devices it had, or is gone. -/
theorem Shrinks.of_records (hcopy : ∀ v id c', t.copy v id = some c' → ∃ c, s.copy v id = some c ∧ c'.records = c.records)
    (hwriter : ∀ w', t.writer = some w' → ∃ w, s.writer = some w ∧ w'.segmentId = w.segmentId ∧ w'.records = w.records ∧
      ∀ v ∈ w'.vdevs, v ∈ w.vdevs) (hserial : t.serial = s.serial) : Shrinks s t := by
  refine ⟨fun v id c' hc' ↦ ?_, hwriter, hserial⟩
  obtain ⟨c, hc, heq⟩ := hcopy v id c' hc'
  exact ⟨c, hc, heq ▸ prefix_refl _, fun _ ↦ heq⟩

theorem starts_startSegment (hp : s.pool = some p) {u : State n} (hu : ∀ v id c', u.copy v id = some c' →
    ∃ c, s.copy v id = some c ∧ c'.records = c.records) (hserial : u.serial = s.serial) {q : Pool n}
    (hq : q.log.nextSegmentId = p.log.nextSegmentId) (x : Failures n) : Starts p s (u.startSegment q x) := by
  refine ⟨hp, fun v id c' hc' ↦ ?_, fun w hw ↦ ?_, ?_, ?_⟩
  · rw [copy_startSegment] at hc'
    split_ifs at hc' with hnew
    · cases hc'
      exact .inl ⟨hnew.2.trans hq, rfl⟩
    · exact .inr (hu v id c' hc')
  · obtain rfl := writer_startSegment hw
    exact ⟨hq, rfl⟩
  · unfold startSegment
    dsimp only
    split_ifs <;> (rintro p' ⟨⟩; simp [hq])
  · unfold startSegment
    dsimp only
    split_ifs <;> exact hserial

theorem copy_fsync (h : (s.onSegment vdevs i Copy.fsync).copy v id = some c) :
    ∃ c₀, s.copy v id = some c₀ ∧ c.records = c₀.records := by
  rw [copy_onSegment] at h
  split_ifs at h
  · obtain ⟨c₀, hc₀, rfl⟩ := map_eq_some_iff.1 h
    exact ⟨c₀, hc₀, rfl⟩
  · exact ⟨c, h, rfl⟩

theorem appends_append (hp : s.pool = some p) (hw : p.log.writer = some w) {serial : Nat}
    (x : Failures n) (next : Commit) (hserial : s.serial ≤ serial)
    (hentry : ∀ e, r.deltaEntry = some e → e.serial = s.serial ∧ serial = s.serial + 1 ∧ ∃ p ino, s.pool = some p ∧
      p.commit = some (.content ino [] e.newObjectHash) ∧ e.epoch = p.log.localEpoch + 1) :
    Appends w r s { s.append p w r x next with serial := serial } := by
  have hwriter : ∀ w', (s.append p w r x next).writer = some w' → w'.segmentId = w.segmentId ∧
      w'.vdevs = x.left w.vdevs ∧ w'.records = if x.succeeds w.vdevs then w.records ++ [r] else w.records := by
    intro _ hw'
    simp only [append, writer_setPool, Pool.writer_reportFaults, some.injEq] at hw'
    subst hw'
    exact ⟨rfl, rfl, rfl⟩
  refine ⟨by simp [writer, hp, hw], fun v id c' hc' ↦ ?_, fun w' hw' ↦ ?_, hentry, hserial⟩
  · change (s.append p w r x next).copy v id = some c' at hc'
    rw [append, copy_setPool, copy_onSegment] at hc'
    split_ifs at hc' with hreached
    · obtain ⟨c, hc, rfl⟩ := map_eq_some_iff.1 hc'
      exact ⟨c, hc, .inr ⟨hreached.2, mem_of_mem_filter hreached.1, rfl⟩⟩
    · refine ⟨c', hc', .inl ⟨rfl, fun hid w' hw' hv ↦ hreached ⟨?_, hid⟩⟩⟩
      rw [(hwriter w' hw').2.1] at hv
      obtain ⟨hv, hleft⟩ := mem_filter.1 hv
      exact mem_filter.2 ⟨hv, by simpa using Or.inl (of_decide_eq_true hleft)⟩
  · obtain ⟨hid, hvdevs, hrecords⟩ := hwriter w' hw'
    refine ⟨hid, fun hne ↦ ?_, fun v hv ↦ mem_of_mem_filter (hvdevs ▸ hv)⟩
    rw [hrecords, if_pos]
    simpa [Failures.succeeds] using Or.inl (hvdevs ▸ hne)

/-- What a step does to the copies and to the writer. -/
theorem step_effect (hstep : s.step a = some t) : Shrinks s t ∨
    (∃ p x, (a = .startSegment x ∨ a = .rollOver x) ∧ Starts p s t) ∨ ∃ w r x rest, a = .append x rest ∧ Appends w r s t := by
  cases hp : s.pool with
  | none =>
    simp only [step, hp] at hstep
    cases a <;> simp only [downStep, reduceCtorEq] at hstep
    case mount =>
      obtain ⟨-, ⟨⟩⟩ := ite_none_right_eq_some.1 hstep
      refine .inl (.of_records (fun v id c' hc' ↦ ?_) (by simp [writer, openOn]) rfl)
      obtain ⟨c, hc, rfl⟩ := map_eq_some_iff.1 ((lookup_mapVal _ _ _).symm.trans hc')
      exact ⟨c, hc, rfl⟩
    case lose v id keep =>
      have hnone : t.writer = none := by
        cases hstep
        simp [writer, onSegment, onDevices, hp]
      cases hstep
      refine .inl ⟨fun v id c' hc' ↦ ?_, by simp [hnone], rfl⟩
      rw [copy_onSegment] at hc'
      split_ifs at hc'
      · obtain ⟨c, hc, rfl⟩ := map_eq_some_iff.1 hc'
        exact ⟨c, hc, take_prefix _ _, fun hne ↦ absurd hnone hne⟩
      · exact ⟨c', hc', prefix_refl _, fun _ ↦ rfl⟩
  | some p =>
    have hkeep : ∀ {u : State n} {q : Pool n}, u.pool = some q → q.log.writer = p.log.writer → ∀ w', u.writer = some w' →
        ∃ w, s.writer = some w ∧ w'.segmentId = w.segmentId ∧ w'.records = w.records ∧ ∀ v ∈ w'.vdevs, v ∈ w.vdevs := by
      intro u q hu hq w' hw'
      refine ⟨w', ?_, rfl, rfl, fun _ hv ↦ hv⟩
      simpa [writer, hp, hu, hq] using hw'
    have hsame : ∀ {q : Pool n} {slots}, q.log.writer = p.log.writer → Shrinks s { s with slots := slots, pool := some q } :=
      fun hq ↦ .of_records (fun _ _ c hc ↦ ⟨c, hc, rfl⟩) (hkeep rfl hq) rfl
    simp only [step, hp] at hstep
    cases a <;> simp only [mountedStep, reduceCtorEq] at hstep
    case crash =>
      cases hstep
      exact .inl (.of_records (fun _ _ c hc ↦ ⟨c, hc, rfl⟩) (by simp [writer]) rfl)
    case beginCommit | readWatermark =>
      obtain ⟨-, ⟨⟩⟩ := ite_none_right_eq_some.1 hstep
      exact .inl (hsame rfl)
    case fault | join | failCheckpoint =>
      cases hstep
      exact .inl (hsame rfl)
    case writeSlot | finishCheckpoint | readThrough =>
      simp only [writeSlot, finishCheckpoint, readThrough] at hstep
      split at hstep
      next =>
        cases hstep
        exact .inl (hsame rfl)
      · cases hstep
    case lockLog =>
      obtain ⟨-, hstep⟩ := ite_none_right_eq_some.1 hstep
      unfold lockLog at hstep
      split at hstep
      next =>
        cases hstep
        exact .inl (hsame rfl)
      · cases hstep
    case deleteNext removed =>
      unfold deleteNext at hstep
      split at hstep
      next =>
        split at hstep
        next =>
          cases hstep
          exact .inl (.of_records (fun _ _ c hc ↦ ⟨c, copy_deleteNext hc, rfl⟩) (hkeep rfl rfl) rfl)
        next =>
          cases hstep
          exact .inl (hsame rfl)
      next =>
        cases hstep
        exact .inl (hsame rfl)
      · cases hstep
    case startSegment x =>
      unfold startStep at hstep
      split at hstep
      next =>
        cases hstep
        exact .inr (.inl ⟨p, x, .inl rfl, starts_startSegment hp (fun _ _ c' hc' ↦ ⟨c', hc', rfl⟩) rfl rfl x⟩)
      · cases hstep
    case rollOver x =>
      obtain ⟨-, ⟨⟩⟩ := ite_none_right_eq_some.1 hstep
      unfold rollOver
      split
      next _ => exact .inl (hsame rfl)
      · exact .inr (.inl ⟨p, x, .inr rfl, starts_startSegment hp (fun _ _ _ ↦ copy_fsync) rfl rfl x⟩)
    case append x rest =>
      unfold appendStep at hstep
      split at hstep
      next w _ hw =>
        cases hstep
        exact .inr (.inr ⟨w, _, x, rest, rfl, appends_append hp hw x _ (Nat.le_refl _) (by rintro e ⟨⟩)⟩)
      next ino _ w hcommit hw =>
        cases hstep
        refine .inr (.inr ⟨w, _, x, rest, rfl, appends_append hp hw x _ (Nat.le_succ _) ?_⟩)
        rintro e ⟨⟩
        exact ⟨rfl, rfl, p, ino, hp, hcommit, rfl⟩
      · cases hstep
    case sync x =>
      unfold syncStep at hstep
      split at hstep
      next w _ hw =>
        cases hstep
        have hwriter : (s.sync p w x).writer = some { w with vdevs := x.left w.vdevs } := by
          unfold sync
          dsimp only
          split_ifs <;> simp [writer_setPool]
        refine .inl (.of_records (fun v id c hc ↦ ?_) (fun w' hw' ↦ ⟨w, by simp [writer, hp, hw], ?_⟩) ?_)
        · have hc : (s.onSegment (x.reached w.vdevs) w.segmentId Copy.fsync).copy v id = some c := by
            unfold sync at hc
            dsimp only at hc
            split_ifs at hc <;> exact hc
          exact copy_fsync hc
        · cases hwriter.symm.trans hw'
          exact ⟨rfl, rfl, fun v hv ↦ mem_of_mem_filter hv⟩
        · unfold sync
          dsimp only
          split_ifs <;> rfl
      · cases hstep
    case writeShardSuperblock x =>
      unfold superblockStep at hstep
      split at hstep
      next =>
        cases hstep
        refine .inl (.of_records (fun v _ c hc ↦ ⟨c, ?_, rfl⟩) (hkeep rfl rfl) rfl)
        rw [writeShardSuperblock, copy_setPool, copy_onDevices] at hc
        split_ifs at hc <;> exact hc
      · cases hstep

/-! ## The copies agree -/

/-- The copies of one id are beginnings of one another. Those of the open segment are beginnings of
what its writer has, the devices it goes to have all of it, and no other id is above it. -/
structure Agree (s : State n) : Prop where
  agree : ∀ v v' id c c', s.copy v id = some c → s.copy v' id = some c' →
    c.records <+: c'.records ∨ c'.records <+: c.records
  whole : ∀ w, s.writer = some w → ∀ v ∈ w.vdevs, ∀ c, s.copy v w.segmentId = some c → c.records = w.records
  behind : ∀ w, s.writer = some w → w.vdevs ≠ [] → ∀ v id c, s.copy v id = some c →
    id ≤ w.segmentId ∧ (id = w.segmentId → c.records <+: w.records)

/-- The next id is above those of all devices, the absent ones too. -/
def ClearsIds (s : State n) (p : Pool n) : Prop :=
  ∀ v, ∀ id ∈ (s.devices v).segments.keys, id < p.log.nextSegmentId

instance (s : State n) (p : Pool n) : Decidable (s.ClearsIds p) := by
  unfold ClearsIds
  infer_instance

theorem mem_keys_of_copy (h : s.copy v id = some c) : id ∈ (s.devices v).segments.keys := by
  rw [← AList.mem_keys, ← AList.lookup_isSome]
  exact isSome_iff_exists.2 ⟨c, h⟩

theorem Agree.shrink (h : s.Agree) (hst : Shrinks s t) : t.Agree := by
  refine ⟨fun v v' id c c' hc hc' ↦ ?_, fun w' hw' v hv c' hc' ↦ ?_, fun w' hw' hne v id c' hc' ↦ ?_⟩
  · obtain ⟨c₀, hc₀, hinitial, -⟩ := hst.copy v id c hc
    obtain ⟨c₁, hc₁, hinitial', -⟩ := hst.copy v' id c' hc'
    rcases h.agree v v' id c₀ c₁ hc₀ hc₁ with hle | hle
    · exact prefix_or_prefix_of_prefix (hinitial.trans hle) hinitial'
    · exact prefix_or_prefix_of_prefix hinitial (hinitial'.trans hle)
  · obtain ⟨w, hw, hid, hrecords, hsub⟩ := hst.writer w' hw'
    obtain ⟨c, hc, -, heq⟩ := hst.copy v _ c' hc'
    rw [heq (by simp [hw']), hrecords]
    exact h.whole w hw v (hsub v hv) c (hid ▸ hc)
  · obtain ⟨w, hw, hid, hrecords, hsub⟩ := hst.writer w' hw'
    obtain ⟨v₀, hv₀⟩ := exists_mem_of_ne_nil _ hne
    obtain ⟨c, hc, hinitial, -⟩ := hst.copy v id c' hc'
    obtain ⟨hle, hbehind⟩ := h.behind w hw (ne_nil_of_mem (hsub v₀ hv₀)) v id c hc
    rw [hid, hrecords]
    exact ⟨hle, fun heq ↦ hinitial.trans (hbehind heq)⟩

theorem Agree.start (h : s.Agree) (hids : s.ClearsIds p) (hst : Starts p s t) : t.Agree := by
  refine ⟨fun v v' id c c' hc hc' ↦ ?_, fun w hw v _ c hc ↦ ?_, fun w hw _ v id c hc ↦ ?_⟩
  · rcases hst.copy v id c hc with ⟨-, hnil⟩ | ⟨c₀, hc₀, heq⟩
    · exact .inl (hnil ▸ nil_prefix)
    · rcases hst.copy v' id c' hc' with ⟨-, hnil⟩ | ⟨c₁, hc₁, heq'⟩
      · exact .inr (hnil ▸ nil_prefix)
      · rw [heq, heq']
        exact h.agree v v' id c₀ c₁ hc₀ hc₁
  · obtain ⟨hid, hrecords⟩ := hst.writer w hw
    rcases hst.copy v _ c hc with ⟨-, hnil⟩ | ⟨_, hc₀, -⟩
    · exact hnil.trans hrecords.symm
    · exact absurd (hids v _ (mem_keys_of_copy hc₀)) (hid ▸ Nat.lt_irrefl _)
  · obtain ⟨hid, hrecords⟩ := hst.writer w hw
    rw [hid, hrecords]
    rcases hst.copy v id c hc with ⟨hnew, hnil⟩ | ⟨_, hc₀, -⟩
    · exact ⟨Nat.le_of_eq hnew, fun _ ↦ hnil ▸ prefix_refl _⟩
    · have hlt := hids v id (mem_keys_of_copy hc₀)
      exact ⟨Nat.le_of_lt hlt, fun heq ↦ absurd heq (Nat.ne_of_lt hlt)⟩

theorem Agree.append (h : s.Agree) (hst : Appends w r s t) : t.Agree := by
  have hnew : ∀ {v c}, v ∈ w.vdevs → s.copy v w.segmentId = some c → c.records ++ [r] = w.records ++ [r] :=
    fun hv hc ↦ by rw [h.whole w hst.before _ hv _ hc]
  have hold : ∀ {v₀ v c}, v₀ ∈ w.vdevs → s.copy v w.segmentId = some c → c.records <+: w.records ++ [r] :=
    fun hv₀ hc ↦ ((h.behind w hst.before (ne_nil_of_mem hv₀) _ _ _ hc).2 rfl).trans (prefix_append _ _)
  refine ⟨fun v v' id c c' hc hc' ↦ ?_, fun w' hw' v hv c' hc' ↦ ?_, fun w' hw' hne v id c' hc' ↦ ?_⟩
  · obtain ⟨c₀, hc₀, ⟨heq, -⟩ | ⟨rfl, hv, heq⟩⟩ := hst.copy v id c hc
    · obtain ⟨c₁, hc₁, ⟨heq', -⟩ | ⟨rfl, hv', heq'⟩⟩ := hst.copy v' id c' hc'
      · rw [heq, heq']
        exact h.agree v v' id c₀ c₁ hc₀ hc₁
      · rw [heq, heq', hnew hv' hc₁]
        exact .inl (hold hv' hc₀)
    · obtain ⟨_, hc₁, ⟨heq', -⟩ | ⟨-, hv', heq'⟩⟩ := hst.copy v' _ c' hc'
      · rw [heq, heq', hnew hv hc₀]
        exact .inr (hold hv hc₁)
      · rw [heq, heq', hnew hv hc₀, hnew hv' hc₁]
        exact .inl (prefix_refl _)
  · obtain ⟨hid, hrecords, hsub⟩ := hst.writer w' hw'
    obtain ⟨c, hc, ⟨-, hgone⟩ | ⟨-, -, heq⟩⟩ := hst.copy v _ c' hc'
    · exact absurd hv (hgone hid w' hw')
    · rw [heq, hrecords (ne_nil_of_mem hv)]
      exact hnew (hsub v hv) (hid ▸ hc)
  · obtain ⟨hid, hrecords, hsub⟩ := hst.writer w' hw'
    obtain ⟨v₀, hv₀⟩ := exists_mem_of_ne_nil _ hne
    obtain ⟨c, hc, hcase⟩ := hst.copy v id c' hc'
    rw [hid, hrecords hne]
    refine ⟨(h.behind w hst.before (ne_nil_of_mem (hsub v₀ hv₀)) v id c hc).1, ?_⟩
    rintro rfl
    rcases hcase with ⟨heq, -⟩ | ⟨-, hv, heq⟩
    · exact heq ▸ hold (hsub v₀ hv₀) hc
    · rw [heq, hnew hv hc]

/-- The copies agree after a step that starts no segment under an id some device holds. -/
theorem Agree.step (h : s.Agree) (hids : ∀ p x, s.pool = some p → a = .startSegment x ∨ a = .rollOver x → s.ClearsIds p)
    (hstep : s.step a = some t) : t.Agree := by
  rcases step_effect hstep with hst | ⟨p, x, ha, hst⟩ | ⟨w, r, -, -, -, hst⟩
  · exact h.shrink hst
  · exact h.start (hids p x hst.pool ha) hst
  · exact h.append hst

theorem Agree.of_empty (hempty : ∀ v id, s.copy v id = none) : s.Agree :=
  ⟨by simp [hempty], by simp [hempty], by simp [hempty]⟩

/-! ## What the devices hold together -/

theorem scanFrom_append (offset : Nat) (xs ys : List Record) :
    scanFrom offset (xs ++ ys) = scanFrom offset xs ++ scanFrom (offset + (xs.map Record.len).sum) ys := by
  induction xs generalizing offset with
  | nil => rfl
  | cons x _ ih => simp [scanFrom, ih, Nat.add_assoc]

theorem map_snd_scanFrom (offset : Nat) (xs : List Record) : (scanFrom offset xs).map (·.2) = xs := by
  induction xs generalizing offset with
  | nil => rfl
  | cons x _ ih => simp [scanFrom, ih]

variable {xs : List Record}

theorem offset_bounds {offset : Nat} {y : Nat × Record} (h : y ∈ scanFrom offset xs) :
    offset ≤ y.1 ∧ y.1 < offset + (xs.map Record.len).sum := by
  induction xs generalizing offset with
  | nil => simp [scanFrom] at h
  | cons x _ ih =>
    simp only [map_cons, sum_cons, Record.len] at ih ⊢
    rcases mem_cons.1 h with rfl | h
    · dsimp only
      omega
    · have hbounds := ih h
      simp only [Record.len] at hbounds
      omega

variable {ys : List Record}

/-- A longer copy adds what lies beyond a shorter one. -/
theorem unseen_scan_of_prefix (h : xs <+: ys) : unseen (scan xs) (scan ys) = scan ys := by
  obtain ⟨_, rfl⟩ := h
  unfold unseen scan
  rw [scanFrom_append, List.filter_append, List.filter_eq_nil_iff.2, List.filter_eq_self.2, List.nil_append]
  · intro y hy
    simp only [decide_eq_true_eq, List.mem_map, not_exists, not_and]
    intro z hz heq
    have hlow := (offset_bounds hy).1
    have hhigh := (offset_bounds hz).2
    omega
  · intro y hy
    simpa using ⟨y.2, hy⟩

/-- A copy that an earlier one contains adds nothing. -/
theorem unseen_scan_of_le (h : ys <+: xs) : unseen (scan xs) (scan ys) = scan xs := by
  obtain ⟨zs, rfl⟩ := h
  unfold unseen
  rw [filter_eq_nil_iff.2, append_nil]
  intro y hy
  have hmem : y ∈ scan (ys ++ zs) := by
    rw [scan, scanFrom_append]
    exact mem_append_left _ hy
  simpa using ⟨y.2, hmem⟩

/-- Copies that agree are read as the longest of them. -/
theorem Agree.merged (h : s.Agree) (roots : List (Fin n)) (id : SegmentId) : ∃ records,
    s.merged roots id = scan records ∧ (∀ v ∈ roots, ∀ c, s.copy v id = some c → c.records <+: records) ∧
      (records = [] ∨ ∃ v ∈ roots, ∃ c, s.copy v id = some c ∧ c.records = records) := by
  induction roots using reverseRecOn with
  | nil => exact ⟨[], rfl, by simp, .inl rfl⟩
  | append_singleton roots u ih =>
    obtain ⟨records, hmerged, hall, hone⟩ := ih
    have hfold : s.merged (roots ++ [u]) id =
        (s.copy u id).elim (scan records) fun c ↦ unseen (scan records) (scan c.records) := by
      simp [State.merged, ← hmerged]
    cases hu : s.copy u id with
    | none =>
      refine ⟨records, by simp [hfold, hu], fun v hv c hc ↦ ?_, hone.imp_right ?_⟩
      · rcases mem_append.1 hv with hv | hv
        · exact hall v hv c hc
        · rw [mem_singleton.1 hv, hu] at hc
          cases hc
      · rintro ⟨v, hv, hc⟩
        exact ⟨v, mem_append_left _ hv, hc⟩
    | some c =>
      have hcases : c.records <+: records ∨ records <+: c.records := by
        rcases hone with rfl | ⟨v, -, c', hc', rfl⟩
        · exact .inr nil_prefix
        · exact h.agree u v id c c' hu hc'
      rcases hcases with hle | hle
      · refine ⟨records, by simp [hfold, hu, unseen_scan_of_le hle], fun v hv c' hc' ↦ ?_, hone.imp_right ?_⟩
        · rcases mem_append.1 hv with hv | hv
          · exact hall v hv c' hc'
          · rw [mem_singleton.1 hv] at hc'
            exact some.inj (hu.symm.trans hc') ▸ hle
        · rintro ⟨v, hv, hc⟩
          exact ⟨v, mem_append_left _ hv, hc⟩
      · refine ⟨c.records, by simp [hfold, hu, unseen_scan_of_prefix hle], fun v hv c' hc' ↦ ?_,
          .inr ⟨u, by simp, c, hu, rfl⟩⟩
        rcases mem_append.1 hv with hv | hv
        · exact (hall v hv c' hc').trans hle
        · rw [mem_singleton.1 hv] at hc'
          exact some.inj (hu.symm.trans hc') ▸ prefix_refl _

end State

end Lchfs.Delta
