import Lchfs.Delta.Copies

/-!
# Replay across devices

`replay_since` reads each segment id from all devices it is given and counts a record once per
offset. That is right when a commit knows what every device of the pool holds, also those that
are away: its segment ids are above theirs, and its epochs are not below theirs. A mount knows
only the devices it was given. When the segments of those are all truncated, the ids start again
at zero, and a device that was away comes back with other segments under the same ids.
-/

namespace Lchfs.Delta

open Lchfs.Library
open List Option

variable {n : Nat} {s t : State n} {a : Action n} {p : Pool n} {w : SegmentWriter n} {v : Fin n} {id : SegmentId}
variable {c : Copy}

/-- Committed earlier, at an epoch that is not later. -/
def DeltaLogEntry.Before (e e' : DeltaLogEntry) : Prop := e.serial < e'.serial ∧ e.epoch ≤ e'.epoch

namespace State

/-- The next epoch is not below that of an entry on any device, the absent ones too. -/
def ClearsEpochs (s : State n) (p : Pool n) : Prop :=
  ∀ v, ∀ x ∈ (s.devices v).segments.toList, ∀ e ∈ x.2.entries, e.epoch ≤ p.log.localEpoch + 1

instance (s : State n) (p : Pool n) : Decidable (s.ClearsEpochs p) := by
  unfold ClearsEpochs
  infer_instance

/-- Segments are started and entries appended with regard to all devices of the pool. -/
def Informed (s : State n) : Action n → Prop
  | .startSegment _ | .rollOver _ => ∀ p ∈ s.pool, s.ClearsIds p
  | .append _ _ => ∀ p ∈ s.pool, s.ClearsEpochs p
  | _ => True

instance (s : State n) (a : Action n) : Decidable (s.Informed a) := by
  cases a <;> simp only [Informed] <;> infer_instance

/-- The copies agree, and their entries are in the order of their commits. -/
structure Ordered (s : State n) : Prop where
  agree : s.Agree
  sorted : ∀ v id c, s.copy v id = some c → c.entries.Pairwise DeltaLogEntry.Before
  across : ∀ v v' id id' c c', id < id' → s.copy v id = some c → s.copy v' id' = some c' →
    ∀ e ∈ c.entries, ∀ e' ∈ c'.entries, e.Before e'
  serial : ∀ v id c, s.copy v id = some c → ∀ e ∈ c.entries, e.serial < s.serial

theorem entries_sublist {c c' : Copy} (h : c'.records <+: c.records) : c'.entries.Sublist c.entries :=
  h.sublist.filterMap _

/-- Copies that only lose records keep their order. -/
theorem Ordered.of_copies (h : s.Ordered) (hagree : t.Agree) (hserial : t.serial = s.serial)
    (hcopy : ∀ v id c', t.copy v id = some c' → c'.entries = [] ∨ ∃ c, s.copy v id = some c ∧ c'.entries.Sublist c.entries) :
    t.Ordered := by
  refine ⟨hagree, fun v id c' hc' ↦ ?_, fun v v' id id' c c' hlt hc hc' e he e' he' ↦ ?_, fun v id c' hc' e he ↦ ?_⟩
  · rcases hcopy v id c' hc' with hnil | ⟨c, hc, hsub⟩
    · simp [hnil]
    · exact (h.sorted v id c hc).sublist hsub
  · rcases hcopy v id c hc with hnil | ⟨c₀, hc₀, hsub⟩
    · simp [hnil] at he
    · rcases hcopy v' id' c' hc' with hnil | ⟨c₁, hc₁, hsub'⟩
      · simp [hnil] at he'
      · exact h.across v v' id id' c₀ c₁ hlt hc₀ hc₁ e (hsub.subset he) e' (hsub'.subset he')
  · rcases hcopy v id c' hc' with hnil | ⟨c, hc, hsub⟩
    · simp [hnil] at he
    · exact hserial ▸ h.serial v id c hc e (hsub.subset he)

/-- A new entry comes after all others. -/
theorem Ordered.append (h : s.Ordered) {r : Record} (hst : Appends w r s t)
    (hepochs : ∀ p, s.pool = some p → s.ClearsEpochs p) : t.Ordered := by
  have hlast : ∀ e, r.deltaEntry = some e → ∀ v id c, s.copy v id = some c → ∀ e' ∈ c.entries, e'.Before e := by
    intro e he v id c hc e' he'
    obtain ⟨hserial, -, p, -, hp, -, hepoch⟩ := hst.entry e he
    exact ⟨hserial ▸ h.serial v id c hc e' he', hepoch ▸ hepochs p hp v (id, c) (Table.mem_toList.2 hc) e' he'⟩
  -- What a copy has after the step is what it had, or that and the new entry.
  have hcases : ∀ v id c', t.copy v id = some c' → ∃ c, s.copy v id = some c ∧
      (c'.entries = c.entries ∨ id = w.segmentId ∧ v ∈ w.vdevs ∧ ∃ e, r.deltaEntry = some e ∧ c'.entries = c.entries ++ [e]) := by
    intro v id c' hc'
    obtain ⟨c, hc, ⟨heq, -⟩ | ⟨rfl, hv, heq⟩⟩ := hst.copy v id c' hc'
    · exact ⟨c, hc, .inl (by simp [Copy.entries, heq])⟩
    · cases he : r.deltaEntry with
      | none => exact ⟨c, hc, .inl (by simp [Copy.entries, heq, he])⟩
      | some e => exact ⟨c, hc, .inr ⟨rfl, hv, e, rfl, by simp [Copy.entries, heq, he]⟩⟩
  refine ⟨h.agree.append hst, fun v id c' hc' ↦ ?_, fun v v' id id' c c' hlt hc hc' e he e' he' ↦ ?_,
    fun v id c' hc' e he ↦ ?_⟩
  · obtain ⟨c, hc, heq | ⟨-, -, e, he, heq⟩⟩ := hcases v id c' hc'
    · exact heq ▸ h.sorted v id c hc
    · rw [heq, pairwise_append]
      refine ⟨h.sorted v id c hc, pairwise_singleton _ _, fun e' he' _ he'' ↦ ?_⟩
      exact mem_singleton.1 he'' ▸ hlast e he v id c hc e' he'
  · obtain ⟨c₀, hc₀, hcase⟩ := hcases v id c hc
    obtain ⟨c₁, hc₁, hcase'⟩ := hcases v' id' c' hc'
    rcases hcase with heq | ⟨rfl, hv, -⟩
    · rw [heq] at he
      rcases hcase' with heq' | ⟨-, -, e₁, he₁, heq'⟩
      · exact h.across v v' id id' c₀ c₁ hlt hc₀ hc₁ e he e' (heq' ▸ he')
      · rw [heq'] at he'
        rcases mem_append.1 he' with he' | he'
        · exact h.across v v' id id' c₀ c₁ hlt hc₀ hc₁ e he e' he'
        · exact mem_singleton.1 he' ▸ hlast e₁ he₁ v id c₀ hc₀ e he
    · -- No copy has an id above the open segment's.
      exact absurd hlt (Nat.not_lt.2 (h.agree.behind w hst.before (ne_nil_of_mem hv) v' id' c₁ hc₁).1)
  · obtain ⟨c, hc, heq | ⟨-, -, e₁, he₁, heq⟩⟩ := hcases v id c' hc'
    · exact Nat.lt_of_lt_of_le (h.serial v id c hc e (heq ▸ he)) hst.serial
    · obtain ⟨hserial, hnext, -⟩ := hst.entry e₁ he₁
      rw [heq] at he
      rcases mem_append.1 he with he | he
      · exact Nat.lt_of_lt_of_le (h.serial v id c hc e he) hst.serial
      · rw [mem_singleton.1 he, hserial, hnext]
        exact Nat.lt_succ_self _

theorem Ordered.step (h : s.Ordered) (hC : s.Informed a) (hstep : s.step a = some t) : t.Ordered := by
  have hids : ∀ p x, s.pool = some p → a = .startSegment x ∨ a = .rollOver x → s.ClearsIds p := by
    rintro p x hp (rfl | rfl)
    · exact hC p hp
    · exact hC p hp
  have hagree := h.agree.step hids hstep
  rcases step_effect hstep with hst | ⟨p, x, -, hst⟩ | ⟨w, r, x, _, rfl, hst⟩
  · refine h.of_copies hagree hst.serial fun v id c' hc' ↦ .inr ?_
    obtain ⟨c, hc, hprefix, -⟩ := hst.copy v id c' hc'
    exact ⟨c, hc, entries_sublist hprefix⟩
  · refine h.of_copies hagree hst.serial fun v id c' hc' ↦ ?_
    rcases hst.copy v id c' hc' with ⟨-, hnil⟩ | ⟨c, hc, heq⟩
    · exact .inl (by simp [Copy.entries, hnil])
    · exact .inr ⟨c, hc, entries_sublist (heq ▸ prefix_refl _)⟩
  · exact h.append hst hC

theorem ordered_of_reachable (h : (deltaLog n).ReachableUnder Informed s) : s.Ordered :=
  h.invariant (fun _ hinit ↦ ⟨.of_empty hinit.2, by simp [hinit.2], by simp [hinit.2], by simp [hinit.2]⟩)
    fun _ _ _ _ hinv hC hstep ↦ hinv.step hC hstep

theorem mem_deltaSegmentIds {roots : List (Fin n)} :
    id ∈ s.deltaSegmentIds roots ↔ ∃ v ∈ roots, ∃ c, s.copy v id = some c := by
  simp only [deltaSegmentIds, mem_insertionSort, mem_dedup, mem_flatMap, ← AList.mem_keys,
    ← AList.lookup_isSome, isSome_iff_exists, copy]

theorem deltaSegmentIds_ascending (roots : List (Fin n)) : (s.deltaSegmentIds roots).Pairwise (· < ·) := by
  have hsorted := pairwise_insertionSort (· ≤ ·) (roots.flatMap fun v ↦ (s.devices v).segments.keys).dedup
  have hnodup : (s.deltaSegmentIds roots).Nodup := (perm_insertionSort _ _).nodup_iff.2 (nodup_dedup _)
  exact (hsorted.and hnodup).imp fun h ↦ Nat.lt_of_le_of_ne h.1 h.2

/-- The entries a replay reads of one segment. -/
def held (s : State n) (given : List (Fin n)) (id : SegmentId) : List DeltaLogEntry :=
  (s.merged given id).filterMap (·.2.deltaEntry)

theorem Ordered.held (h : s.Ordered) (given : List (Fin n)) (id : SegmentId) :
    (s.held given id).Pairwise DeltaLogEntry.Before ∧
      ∀ e, e ∈ s.held given id ↔ ∃ v ∈ given, ∃ c, s.copy v id = some c ∧ e ∈ c.entries := by
  obtain ⟨records, hmerged, hall, hone⟩ := h.agree.merged given id
  have hheld : s.held given id = records.filterMap Record.deltaEntry := by
    rw [State.held, hmerged, ← map_snd_scanFrom segmentHeaderPageSize records, filterMap_map]
    rw [map_snd_scanFrom]
    rfl
  rw [hheld]
  refine ⟨?_, fun e ↦ ⟨fun he ↦ ?_, ?_⟩⟩
  · rcases hone with rfl | ⟨v, -, c, hc, rfl⟩
    · exact List.Pairwise.nil
    · exact h.sorted v id c hc
  · rcases hone with rfl | ⟨v, hv, c, hc, rfl⟩
    · cases he
    · exact ⟨v, hv, c, hc, he⟩
  · rintro ⟨v, hv, c, hc, he⟩
    exact ((hall v hv c hc).sublist.filterMap _).subset he

/-- A replay returns every entry above the watermark that one of the devices has, in the order in
which they were committed, and none twice. -/
theorem replay_is_complete {n : Nat} {s : State n} (h : (deltaLog n).ReachableUnder Informed s) (given : List (Fin n))
    (watermark : Nat) :
    (∀ e, e ∈ (s.replaySince given watermark).entries ↔ watermark < e.epoch ∧ ∃ v ∈ given, ∃ id c,
      s.copy v id = some c ∧ e ∈ c.entries) ∧
      (s.replaySince given watermark).entries.Pairwise fun e e' ↦ e.serial < e'.serial := by
  have hordered := ordered_of_reachable h
  set all := (s.deltaSegmentIds given).flatMap (s.held given) with hdef
  have hall : all.Pairwise DeltaLogEntry.Before := by
    refine pairwise_flatMap.2 ⟨fun id _ ↦ (hordered.held given id).1, ?_⟩
    refine (deltaSegmentIds_ascending given).imp fun {id id'} hlt e he e' he' ↦ ?_
    obtain ⟨v, -, c, hc, he⟩ := ((hordered.held given id).2 e).1 he
    obtain ⟨v', -, c', hc', he'⟩ := ((hordered.held given id').2 e').1 he'
    exact hordered.across v v' id id' c c' hlt hc hc' e he e' he'
  -- The entries are read in the order of their epochs, so that the sort changes nothing.
  have hentries : (s.replaySince given watermark).entries = all.filter (watermark < ·.epoch) := by
    have hread : (s.replaySince given watermark).entries =
        (all.filter (watermark < ·.epoch)).insertionSort (·.epoch ≤ ·.epoch) := by
      simp only [replaySince, filterMap_flatMap, filterMap_map, hdef]
      rfl
    rw [hread]
    exact ((hall.imp fun hbefore ↦ hbefore.2).sublist filter_sublist).insertionSort_eq
  rw [hentries]
  refine ⟨fun e ↦ ?_, (hall.imp fun hbefore ↦ hbefore.1).sublist filter_sublist⟩
  rw [mem_filter, and_comm, decide_eq_true_eq, hdef, mem_flatMap]
  refine and_congr_right fun _ ↦ ⟨?_, ?_⟩
  · rintro ⟨id, -, he⟩
    obtain ⟨v, hv, c, hc, he⟩ := ((hordered.held given id).2 e).1 he
    exact ⟨v, hv, id, c, hc, he⟩
  · rintro ⟨v, hv, id, c, hc, he⟩
    exact ⟨id, mem_deltaSegmentIds.2 ⟨v, hv, c, hc⟩, ((hordered.held given id).2 e).2 ⟨v, hv, c, hc, he⟩⟩

/-! ## Runs -/

def blank (n : Nat) : State n := ⟨fun _ ↦ ⟨∅, none⟩, [0], 0, none⟩

theorem blank_init (n : Nat) : (deltaLog n).init (blank n) := ⟨rfl, fun _ _ ↦ rfl⟩

/-- An fsync of a small file, on the devices that are online. -/
def fsyncRun : List (Action 2) :=
  [.beginCommit 2 none (7, 100), .startSegment ⟨[], []⟩, .append ⟨[], []⟩ 60, .append ⟨[], []⟩ 60, .sync ⟨[], []⟩,
    .writeShardSuperblock ⟨[], []⟩]

def checkpointRun : List (Action 2) := [.readWatermark, .writeSlot, .finishCheckpoint]

/-- One device is away for a commit and comes back. -/
theorem replay_is_complete_rejoined : ∃ s, (deltaLog 2).ReachableUnder Informed s ∧
    (s.replaySince [0, 1] 1).entries = [⟨2, 7, 2, 1⟩] ∧
    (s.replaySince [0, 1] 1).entries.Pairwise fun e e' ↦ e.serial < e'.serial := by
  obtain ⟨s, hs, hentries⟩ : ∃ s, (deltaLog 2).ReachableUnder Informed s ∧
      (s.replaySince [0, 1] 1).entries = [⟨2, 7, 2, 1⟩] :=
    Machine.exists_of_run (blank_init 2) (.mount [0, 1] :: fsyncRun ++ [.crash, .mount [0]] ++ fsyncRun ++ [.crash])
      (by decide +kernel)
  exact ⟨s, hs, hentries, (replay_is_complete hs [0, 1] 1).2⟩

/-- Whatever devices a mount is given, it reads of a segment what one of them has, which is all that any
of them has; and the devices the writer goes to have what it has written. -/
theorem merge_reads_longest_copy (h : (deltaLog n).ReachableUnder Informed s) (given : List (Fin n)) (id : SegmentId) :
    (∃ records, s.merged given id = scan records ∧ (∀ v ∈ given, ∀ c, s.copy v id = some c → c.records <+: records) ∧
      (records = [] ∨ ∃ v ∈ given, ∃ c, s.copy v id = some c ∧ c.records = records)) ∧
      ∀ w, s.writer = some w → ∀ v ∈ w.vdevs, ∀ c, s.copy v w.segmentId = some c → c.records = w.records := by
  have hagree := (ordered_of_reachable h).agree
  exact ⟨hagree.merged given id, hagree.whole⟩

theorem merge_reads_longest_copy_rejoined : ∃ s records, (deltaLog 2).ReachableUnder Informed s ∧
    s.merged [0, 1] 1 = scan records ∧ (s.merged [0, 1] 1).length = 2 := by
  obtain ⟨s, hs, hlength⟩ : ∃ s, (deltaLog 2).ReachableUnder Informed s ∧ (s.merged [0, 1] 1).length = 2 :=
    Machine.exists_of_run (blank_init 2) (.mount [0, 1] :: fsyncRun ++ [.crash, .mount [0]] ++ fsyncRun ++ [.crash])
      (by decide +kernel)
  obtain ⟨⟨records, hmerged, -⟩, -⟩ := merge_reads_longest_copy hs [0, 1] 1
  exact ⟨s, records, hs, hmerged, hlength⟩

/-- Device 0 is away while the log on device 1 is truncated whole and mounted again: ids start at
zero. The new entry is durable on device 1 at the offset where device 0 has an old one, so a mount
of both does not replay it. -/
theorem returned_device_hides_entry : ∃ s c, (deltaLog 2).Reachable s ∧ s.pool = none ∧ s.slots.head? = some 1 ∧
    s.copy 1 0 = some c ∧ c.durable = c.records.length ∧ c.entries = [⟨2, 7, 2, 1⟩] ∧
    (s.replaySince [0, 1] 1).entries = [] := by
  obtain ⟨s, hs, hpool, hslot, hreplay, c, hc, hdurable, hentries⟩ : ∃ s, (deltaLog 2).Reachable s ∧ s.pool = none ∧
      s.slots.head? = some 1 ∧ (s.replaySince [0, 1] 1).entries = [] ∧
      ∃ c ∈ s.copy 1 0, c.durable = c.records.length ∧ c.entries = [⟨2, 7, 2, 1⟩] :=
    Machine.exists_of_run (blank_init 2) (.mount [0, 1] :: fsyncRun ++ [.crash, .mount [1]] ++ checkpointRun ++
      checkpointRun ++ [.readThrough, .lockLog, .deleteNext 1, .crash, .mount [1]] ++ fsyncRun ++ [.crash])
      (by decide +kernel)
  exact ⟨s, c, hs, hpool, hslot, hc, hdurable, hentries, hreplay⟩

end State

end Lchfs.Delta
