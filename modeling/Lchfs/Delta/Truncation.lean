import Lchfs.Delta.Replay

/-!
# Truncation is safe while the devices stay

A truncation deletes the segments whose entries are all at or below the older of the last two
watermarks this mount has published. The epoch counter only grows while the pool is mounted, so
no superblock written since has a lower one. The records an entry names are before it in its own
segment, since a commit does not roll between them.
-/

namespace Lchfs.Delta

open Lchfs.Library
open List Option State

variable {n : Nat} {s t : State n} {a : Action n} {p p' : Pool n} {w : SegmentWriter n} {v : Fin n} {id : SegmentId}
variable {c : Copy} {object : Hash32} {k mark : Nat} {l : List Nat}

/-- The object is among the records, with the chunk list it names. -/
def Carries (records : List Record) (object : Hash32) : Prop :=
  ∃ x : Content, x.hash = object ∧ x.record ∈ records ∧ ∀ hash ∈ x.names, ∃ y : Content, y.hash = hash ∧ y.record ∈ records

theorem Carries.mono {xs ys : List Record} (h : Carries xs object) (hsub : xs ⊆ ys) : Carries ys object := by
  obtain ⟨x, hx, hmem, hnames⟩ := h
  refine ⟨x, hx, hsub hmem, fun hash hhash ↦ ?_⟩
  obtain ⟨y, hy, hmem⟩ := hnames hash hhash
  exact ⟨y, hy, hsub hmem⟩

theorem carries_commitRecords (chunkList : Option (Hash32 × Nat)) (object : Hash32 × Nat) :
    Carries ((commitRecords chunkList object).map Content.record) object.1 := by
  refine ⟨⟨object.1, chunkList.map (·.1), object.2⟩, rfl, by simp [commitRecords], fun _ hhash ↦ ?_⟩
  obtain ⟨x, rfl, rfl⟩ := map_eq_some_iff.1 hhash
  exact ⟨⟨x.1, none, x.2⟩, rfl, by simp [commitRecords]⟩

/-- Every entry comes after the records it names. -/
def Copy.Named (c : Copy) : Prop :=
  ∀ pre r e, pre ++ [r] <+: c.records → r.deltaEntry = some e → Carries pre e.newObjectHash

theorem Copy.Named.carries (h : c.Named) {e : DeltaLogEntry} (he : e ∈ c.entries) : Carries c.records e.newObjectHash := by
  obtain ⟨r, hr, hentry⟩ := mem_filterMap.1 he
  obtain ⟨pre, post, hrecords⟩ := append_of_mem hr
  have hle : pre ++ [r] <+: c.records := ⟨post, by simp [hrecords]⟩
  exact (h pre r e hle hentry).mono (hrecords ▸ subset_append_left _ _)

def Truncation.watermark : Truncation n → Nat
  | .through w => w
  | .deleting w _ _ => w

namespace Pool

def recorded (p : Pool n) : List Record := p.log.writer.elim [] (·.records)

/-- What a commit has appended and what it still has to append are all its entry names. -/
def Ready (p : Pool n) : Prop :=
  ∀ ino todo object, p.commit = some (.content ino todo object) → Carries (p.recorded ++ todo.map Content.record) object

/-- The one of the last superblocks at place `k` has at least this watermark. -/
def Reaches (l : List Nat) (k mark : Nat) : Prop := ∃ x, l[k]? = some x ∧ mark ≤ x

/-- The watermarks of a mount never go back, and those it goes by are among its last two. -/
structure Marked (slots : List Nat) (p : Pool n) : Prop where
  slots : p.written <+: slots
  sorted : p.written.Pairwise (· ≥ ·)
  counter : ∀ x ∈ p.written, x ≤ p.log.localEpoch
  reading : ∀ w, p.checkpoint = some (.read w) → w ≤ p.log.localEpoch ∧ ∀ x ∈ p.written, x ≤ w
  publishing : ∀ w, p.checkpoint = some (.written w) → p.written.head? = some w ∧
    ∀ w', p.published.2 = some w' → Reaches p.written 1 w'
  newer : ∀ w, p.published.2 = some w → Reaches p.written 0 w
  older : ∀ w, p.published.1 = some w → Reaches p.written 1 w
  truncating : ∀ x, p.truncation = some x → Reaches p.written 1 x.watermark

theorem Reaches.cons {x : Nat} (h : Reaches l k mark) (hsorted : (x :: l).Pairwise (· ≥ ·)) :
    Reaches (x :: l) k mark := by
  obtain ⟨y, hy, hle⟩ := h
  obtain ⟨hk, rfl⟩ := List.getElem?_eq_some_iff.1 hy
  have hlt : k < (x :: l).length := Nat.lt_succ_of_lt hk
  refine ⟨(x :: l)[k], List.getElem?_eq_getElem hlt, Nat.le_trans hle ?_⟩
  exact List.pairwise_iff_getElem.1 hsorted k (k + 1) hlt (Nat.succ_lt_succ hk) (Nat.lt_succ_self k)

/-- What every step of a mounted pool does to the log. -/
structure Moves (p p' : Pool n) : Prop where
  next : p.log.nextSegmentId ≤ p'.log.nextSegmentId
  epoch : p.log.localEpoch ≤ p'.log.localEpoch
  ready : p.Ready → p'.Ready

def SameMarks (p p' : Pool n) : Prop :=
  p'.checkpoint = p.checkpoint ∧ p'.published = p.published ∧ p'.truncation = p.truncation ∧ p'.written = p.written

theorem Moves.of_log (hlog : p'.log = p.log) (hcommit : p'.commit = p.commit ∨ p'.commit = none) : Moves p p' := by
  refine ⟨hlog ▸ Nat.le_refl _, hlog ▸ Nat.le_refl _, fun h ino todo object heq ↦ ?_⟩
  rcases hcommit with hcommit | hcommit
  · simpa [recorded, hlog] using h ino todo object (hcommit ▸ heq)
  · simp [hcommit] at heq

theorem kept_reportFaults (dropped : List (Fin n)) : SameMarks p (p.reportFaults w dropped) ∧
    (p.reportFaults w dropped).log.localEpoch = p.log.localEpoch ∧ (p.reportFaults w dropped).commit = p.commit := by
  unfold reportFaults setWriter
  split_ifs <;> exact ⟨⟨rfl, rfl, rfl, rfl⟩, rfl, rfl⟩

end Pool

/-- The steps that read the counter, publish it, and truncate. -/
def Action.marks : Action n → Bool
  | .readWatermark | .writeSlot | .finishCheckpoint | .failCheckpoint | .readThrough | .lockLog | .deleteNext _ => true
  | _ => false

namespace State

open Pool

variable {x : Failures n}

theorem moves_startSegment {q : Pool n} (hq : q.log.nextSegmentId = p.log.nextSegmentId)
    (hepoch : q.log.localEpoch = p.log.localEpoch) (hmarks : SameMarks p q)
    (hready : p.Ready → ∀ ino todo object, q.commit = some (.content ino todo object) →
      Carries (todo.map Content.record) object) (hpool : (s.startSegment q x).pool = some p') :
    (s.startSegment q x).slots = s.slots ∧ Moves p p' ∧ SameMarks p p' := by
  unfold startSegment at hpool ⊢
  dsimp only at hpool ⊢
  split_ifs at hpool ⊢
  · cases hpool
    exact ⟨rfl, ⟨hq ▸ Nat.le_succ _, Nat.le_of_eq hepoch.symm, by simp [Ready]⟩, hmarks⟩
  · cases hpool
    set onSet : Pool n := { q with log := ⟨q.online, none, q.log.nextSegmentId + 1, q.log.localEpoch⟩ } with honSet
    obtain ⟨hsame, hlocal, hcommit⟩ := kept_reportFaults (p := onSet)
      (w := ⟨q.log.nextSegmentId, x.left q.online, []⟩) (x.dropped q.online)
    refine ⟨rfl, ⟨?_, ?_, fun h ino todo object heq ↦ ?_⟩, hsame.1.trans hmarks.1, hsame.2.1.trans hmarks.2.1,
      hsame.2.2.1.trans hmarks.2.2.1, hsame.2.2.2.trans hmarks.2.2.2⟩
    · simp [honSet, hq]
    · exact Nat.le_of_eq (hepoch.symm.trans hlocal.symm)
    · simpa [recorded] using hready h ino todo object (hcommit ▸ heq)

theorem moves_append {r : Record} {next : Commit}
    (hready : p.Ready → ∀ ino todo object, next = .content ino todo object →
      Carries (w.records ++ [r] ++ todo.map Content.record) object)
    (hpool : (s.append p w r x next).pool = some p') : Moves p p' ∧ SameMarks p p' := by
  cases hpool
  obtain ⟨hsame, hlocal, -⟩ := kept_reportFaults (p := p) (w := ⟨w.segmentId, x.left w.vdevs,
    if x.succeeds w.vdevs then w.records ++ [r] else w.records⟩) (x.dropped w.vdevs)
  refine ⟨⟨by simp, Nat.le_of_eq hlocal.symm, fun h ino todo object heq ↦ ?_⟩, hsame⟩
  dsimp only at heq
  split_ifs at heq with hok
  simpa [recorded, hok] using hready h ino todo object (some.inj heq)

/-- The steps that are not marks. -/
theorem work_step (ha : a.marks = false) (hp : s.pool = some p) (hstep : s.step a = some t) (ht : t.pool = some p') :
    t.slots = s.slots ∧ Moves p p' ∧ SameMarks p p' := by
  simp only [step, hp] at hstep
  cases a <;> simp only [Action.marks, Bool.true_eq_false] at ha <;> simp only [mountedStep, reduceCtorEq] at hstep
  case crash =>
    cases hstep
    cases ht
  case beginCommit ino chunkList object =>
    obtain ⟨-, ⟨⟩⟩ := ite_none_right_eq_some.1 hstep
    cases ht
    refine ⟨rfl, ⟨Nat.le_refl _, Nat.le_refl _, ?_⟩, rfl, rfl, rfl, rfl⟩
    rintro - _ _ _ ⟨⟩
    exact (carries_commitRecords chunkList _).mono (subset_append_right _ _)
  case fault | join =>
    cases hstep
    cases ht
    exact ⟨rfl, .of_log rfl (.inl rfl), rfl, rfl, rfl, rfl⟩
  case startSegment x =>
    unfold startStep at hstep
    split at hstep
    next hw =>
      cases hstep
      exact moves_startSegment rfl rfl ⟨rfl, rfl, rfl, rfl⟩
        (fun h ino todo object heq ↦ by simpa [recorded, hw] using h ino todo object heq) ht
    · cases hstep
  case rollOver x =>
    obtain ⟨hnone, ⟨⟩⟩ := ite_none_right_eq_some.1 hstep
    have hnone := isNone_iff_eq_none.1 hnone
    unfold rollOver at ht ⊢
    split at ht
    next hw =>
      cases ht
      exact ⟨rfl, ⟨Nat.le_refl _, Nat.le_refl _, by simp [Ready, hnone]⟩, rfl, rfl, rfl, rfl⟩
    next w _ =>
      exact moves_startSegment (q := p.setWriter none) rfl rfl ⟨rfl, rfl, rfl, rfl⟩ (by simp [Pool.setWriter, hnone]) ht
  case append x rest =>
    unfold appendStep at hstep
    split at hstep
    next ino y _ object w hcommit hw =>
      cases hstep
      refine ⟨rfl, moves_append (fun h _ _ _ heq ↦ ?_) ht⟩
      cases heq
      simpa [recorded, hw] using h ino _ object hcommit
    next w _ _ =>
      cases hstep
      exact ⟨rfl, moves_append (s := s) (by simp) ht⟩
    · cases hstep
  case sync x =>
    unfold syncStep at hstep
    split at hstep
    next w _ _ =>
      cases hstep
      obtain ⟨hsame, hlocal, -⟩ := kept_reportFaults (p := p) (w := { w with vdevs := x.left w.vdevs })
        (x.dropped w.vdevs)
      unfold sync at ht ⊢
      dsimp only at ht ⊢
      split_ifs at ht ⊢
      · cases ht
        exact ⟨rfl, ⟨by simp, Nat.le_succ _, by simp [Ready]⟩, hsame⟩
      · cases ht
        exact ⟨rfl, ⟨by simp, Nat.le_of_eq hlocal.symm, by simp [Ready]⟩, hsame⟩
    · cases hstep
  case writeShardSuperblock x =>
    unfold superblockStep at hstep
    split at hstep
    next =>
      cases hstep
      cases ht
      exact ⟨rfl, .of_log rfl (.inr rfl), rfl, rfl, rfl, rfl⟩
    · cases hstep

/-! ## The marks -/

theorem mark_step (ha : a.marks = true) (h : p.Marked s.slots) (hp : s.pool = some p) (hstep : s.step a = some t)
    (ht : t.pool = some p') : Moves p p' ∧ p'.Marked t.slots := by
  simp only [step, hp] at hstep
  cases a <;> simp only [Action.marks, Bool.false_eq_true] at ha <;> clear ha <;> simp only [mountedStep] at hstep
  case readWatermark =>
    obtain ⟨-, ⟨⟩⟩ := ite_none_right_eq_some.1 hstep
    cases ht
    exact ⟨.of_log rfl (.inl rfl), { h with
      reading := by rintro _ ⟨⟩; exact ⟨Nat.le_refl _, h.counter⟩
      publishing := by simp }⟩
  case writeSlot =>
    unfold writeSlot at hstep
    split at hstep
    next w hread =>
      cases hstep
      cases ht
      obtain ⟨hle, hall⟩ := h.reading w hread
      have hsorted : (w :: p.written).Pairwise (· ≥ ·) := pairwise_cons.2 ⟨hall, h.sorted⟩
      exact ⟨.of_log rfl (.inl rfl), {
        slots := cons_prefix_cons.2 ⟨rfl, h.slots⟩
        sorted := hsorted
        counter := forall_mem_cons.2 ⟨hle, h.counter⟩
        reading := by simp
        -- the superblock that was newest is now the second
        publishing := by rintro _ ⟨⟩; exact ⟨rfl, h.newer⟩
        newer := fun w' hw' ↦ (h.newer w' hw').cons hsorted
        older := fun w' hw' ↦ (h.older w' hw').cons hsorted
        truncating := fun x hx ↦ (h.truncating x hx).cons hsorted }⟩
    · cases hstep
  case finishCheckpoint =>
    unfold finishCheckpoint at hstep
    split at hstep
    next w hwritten =>
      cases hstep
      cases ht
      obtain ⟨hhead, holder⟩ := h.publishing w hwritten
      exact ⟨.of_log rfl (.inl rfl), { h with
        reading := by simp
        publishing := by simp
        newer := by rintro _ ⟨⟩; exact ⟨w, head?_eq_getElem? .. ▸ hhead, Nat.le_refl w⟩
        older := holder }⟩
    · cases hstep
  case failCheckpoint =>
    cases hstep
    cases ht
    exact ⟨.of_log rfl (.inl rfl), { h with reading := by simp, publishing := by simp }⟩
  case readThrough =>
    unfold readThrough at hstep
    split at hstep
    next w _ hpublished =>
      cases hstep
      cases ht
      exact ⟨.of_log rfl (.inl rfl), { h with truncating := by rintro _ ⟨⟩; exact h.older w hpublished }⟩
    · cases hstep
  case lockLog =>
    obtain ⟨-, hstep⟩ := ite_none_right_eq_some.1 hstep
    unfold lockLog at hstep
    split at hstep
    next w hthrough =>
      have hreaches := h.truncating _ hthrough
      cases hstep
      cases ht
      exact ⟨.of_log rfl (.inl rfl), { h with truncating := by rintro _ ⟨⟩; exact hreaches }⟩
    · cases hstep
  case deleteNext removed =>
    unfold deleteNext at hstep
    split at hstep
    next w _ _ _ hdeleting =>
      have hreaches := h.truncating _ hdeleting
      split at hstep
      · cases hstep
        cases ht
        refine ⟨.of_log rfl (.inl rfl), { h with truncating := fun x hx ↦ ?_ }⟩
        dsimp only at hx
        split_ifs at hx
        cases hx
        exact hreaches
      · cases hstep
        cases ht
        exact ⟨.of_log rfl (.inl rfl), { h with truncating := by rintro _ ⟨⟩; exact hreaches }⟩
    next =>
      cases hstep
      cases ht
      exact ⟨.of_log rfl (.inl rfl), { h with truncating := by simp }⟩
    · cases hstep

theorem marked_step (h : p.Marked s.slots) (hp : s.pool = some p) (hstep : s.step a = some t) (ht : t.pool = some p') :
    Moves p p' ∧ p'.Marked t.slots := by
  cases ha : a.marks
  · obtain ⟨hslots, hmoves, hcheckpoint, hpublished, htruncation, hwritten⟩ := work_step ha hp hstep ht
    obtain ⟨_, _, counter, reading, _, _, _, _⟩ := h
    refine ⟨hmoves, ?_⟩
    constructor <;> simp only [hslots, hcheckpoint, hpublished, htruncation, hwritten] <;> try assumption
    · exact fun x hx ↦ (counter x hx).trans hmoves.epoch
    · exact fun w hw ↦ ⟨(reading w hw).1.trans hmoves.epoch, (reading w hw).2⟩
  · exact mark_step ha h hp hstep ht

/-! ## Runs without a device that leaves or returns -/

end State

/-- Mounts have every device, and no call fails on one. -/
def Action.Undisturbed : Action n → Prop
  | .mount given => ∀ v, v ∈ given
  | .startSegment x | .append x _ | .sync x | .writeShardSuperblock x | .rollOver x => x.failed = []
  | .fault _ | .join _ => False
  | _ => True

instance (a : Action n) : Decidable a.Undisturbed := by
  induction a using Action.casesOn <;> unfold Action.Undisturbed <;> infer_instance

namespace State

open Pool

theorem clearsIds_iff : s.ClearsIds p ↔ ∀ v id c, s.copy v id = some c → id < p.log.nextSegmentId := by
  refine ⟨fun h v id c hc ↦ h v id (mem_keys_of_copy hc), fun h v id hid ↦ ?_⟩
  rw [← AList.mem_keys, ← AList.lookup_isSome] at hid
  obtain ⟨c, hc⟩ := isSome_iff_exists.1 hid
  exact h v id c hc

/-- A mount that has every device takes its next id above all segments. -/
theorem clearsIds_openOn {given : List (Fin n)} (h : ∀ v, v ∈ given) : s.ClearsIds (s.openOn given) := by
  refine clearsIds_iff.2 fun v id c hc ↦ ?_
  have hmem : id ∈ s.deltaSegmentIds given := mem_deltaSegmentIds.2 ⟨v, h v, c, hc⟩
  have hsorted : (s.deltaSegmentIds given).Pairwise (· < ·) := deltaSegmentIds_ascending given
  obtain ⟨last, hlast⟩ := isSome_iff_exists.1 (getLast?_isSome.2 (ne_nil_of_mem hmem))
  obtain ⟨_, hids⟩ := getLast?_eq_some_iff.1 hlast
  simp only [openOn, hlast, elim_some]
  rw [hids] at hmem hsorted
  rcases mem_append.1 hmem with hmem | hmem
  · exact Nat.lt_succ_of_lt ((pairwise_append.1 hsorted).2.2 id hmem last (mem_singleton_self last))
  · exact Nat.lt_succ_of_le (Nat.le_of_eq (mem_singleton.1 hmem))

/-- What holds of the pool while it is mounted. -/
structure Sound (s : State n) (p : Pool n) : Prop where
  clear : s.ClearsIds p
  ready : p.Ready
  marked : p.Marked s.slots

theorem sound_step (h : ∀ p, s.pool = some p → s.Sound p) (ha : a.Undisturbed) (hstep : s.step a = some t) :
    ∀ p', t.pool = some p' → t.Sound p' := by
  intro p' ht
  cases hp : s.pool with
  | none =>
    simp only [step, hp] at hstep
    cases a <;> simp only [downStep, reduceCtorEq] at hstep
    case mount given =>
      obtain ⟨-, ⟨⟩⟩ := ite_none_right_eq_some.1 hstep
      cases ht
      refine ⟨clearsIds_iff.2 fun v id c' hc' ↦ ?_, by simp [openOn, Ready], ?_⟩
      · obtain ⟨c, hc, -⟩ := map_eq_some_iff.1 ((Table.lookup_mapVal _ _ _).symm.trans hc')
        have hgiven : ∀ v, v ∈ given.insertionSort (· ≤ ·) := fun v ↦ (mem_insertionSort _).2 (ha v)
        exact clearsIds_iff.1 (clearsIds_openOn hgiven) v id c hc
      · constructor <;> simp [openOn]
    case lose =>
      cases hstep
      simp [onSegment, onDevices, hp] at ht
  | some p =>
    obtain ⟨hclear, hready, hmarked⟩ := h p hp
    obtain ⟨hmoves, hmarked'⟩ := marked_step hmarked hp hstep ht
    refine ⟨clearsIds_iff.2 fun v id c' hc' ↦ ?_, hmoves.ready hready, hmarked'⟩
    rw [clearsIds_iff] at hclear
    rcases step_effect hstep with hst | ⟨q, x, -, hst⟩ | ⟨w, r, x, _, -, hst⟩
    · obtain ⟨c, hc, -⟩ := hst.copy v id c' hc'
      exact (hclear v id c hc).trans_le hmoves.next
    · obtain rfl := some.inj (hst.pool.symm.trans hp)
      rcases hst.copy v id c' hc' with ⟨rfl, -⟩ | ⟨c, hc, -⟩
      · exact hst.next p' ht ▸ Nat.lt_succ_self _
      · exact (hclear v id c hc).trans_le hmoves.next
    · obtain ⟨c, hc, -⟩ := hst.copy v id c' hc'
      exact (hclear v id c hc).trans_le hmoves.next

theorem named_step (hagree : s.Agree) (hready : ∀ p, s.pool = some p → p.Ready)
    (h : ∀ v id c, s.copy v id = some c → c.Named) (hstep : s.step a = some t) :
    ∀ v id c, t.copy v id = some c → c.Named := by
  intro v id c' hc' pre r' e hle hentry
  rcases step_effect hstep with hst | ⟨q, x, -, hst⟩ | ⟨w, r, x, _, -, hst⟩
  · obtain ⟨c, hc, hprefix, -⟩ := hst.copy v id c' hc'
    exact h v id c hc pre r' e (hle.trans hprefix) hentry
  · rcases hst.copy v id c' hc' with ⟨-, hnil⟩ | ⟨c, hc, heq⟩
    · simp [hnil] at hle
    · exact h v id c hc pre r' e (heq ▸ hle) hentry
  · obtain ⟨c, hc, ⟨heq, -⟩ | ⟨rfl, hv, heq⟩⟩ := hst.copy v id c' hc'
    · exact h v id c hc pre r' e (heq ▸ hle) hentry
    · rw [heq] at hle
      rcases prefix_concat_iff.1 hle with hnew | hold
      · -- the entry is the record just appended, with nothing left to append before it
        obtain ⟨rfl, ⟨⟩⟩ := append_inj' hnew rfl
        obtain ⟨-, -, p, ino, hp, hcommit, -⟩ := hst.entry e hentry
        have hrecords : p.recorded = w.records := by
          have hw := hst.before
          simp only [writer, hp, bind_some] at hw
          simp [recorded, hw]
        have hcarries := hready p hp ino [] _ hcommit
        rw [hrecords, ← hagree.whole w hst.before v hv c hc] at hcarries
        simpa using hcarries
      · exact h v _ c hc pre r' e hold hentry

/-- What a run without device changes keeps. -/
structure Spared (s : State n) : Prop where
  agree : s.Agree
  sound : ∀ p, s.pool = some p → s.Sound p
  named : ∀ v id c, s.copy v id = some c → c.Named

theorem spared_of_reachable (h : (deltaLog n).ReachableUnder (fun _ a ↦ a.Undisturbed) s) : s.Spared := by
  refine h.invariant (fun s hs ↦ ?_) fun s a t _ h ha hstep ↦ ?_
  · obtain ⟨hpool, hempty⟩ := hs
    exact ⟨.of_empty hempty, by simp [hpool], by simp [hempty]⟩
  · exact ⟨h.agree.step (fun p _ hp _ ↦ (h.sound p hp).clear) hstep, sound_step h.sound ha hstep,
      named_step h.agree (fun p hp ↦ (h.sound p hp).ready) h.named hstep⟩

/-- A dead segment has no entry above the watermark on any of the devices. -/
theorem Agree.epoch_le_of_dead (h : s.Agree) {roots : List (Fin n)} (hdead : s.segmentIsDead roots id mark)
    (hv : v ∈ roots) (hc : s.copy v id = some c) : ∀ e ∈ c.entries, e.epoch ≤ mark := by
  intro e he
  obtain ⟨records, hmerged, hall, -⟩ := h.merged roots id
  obtain ⟨r, hr, hentry⟩ := List.mem_filterMap.1 he
  have hmem : r ∈ (scan records).map (·.2) := by
    rw [scan, map_snd_scanFrom]
    exact (hall v hv c hc).subset hr
  obtain ⟨x, hx, rfl⟩ := List.mem_map.1 hmem
  rw [segmentIsDead, hmerged, List.all_eq_true] at hdead
  simpa [hentry] using hdead x hx

/-- A truncation is never ahead of the two newest superblocks. -/
theorem watermark_le_of_mem_take (h : p.Marked s.slots) {x : Truncation n} (hx : p.truncation = some x) {w : Nat}
    (hw : w ∈ s.slots.take 2) : x.watermark ≤ w := by
  obtain ⟨y, hy, hle⟩ := h.truncating x hx
  obtain ⟨_, hslots⟩ := h.slots
  match hwritten : p.written with
  | [] | [_] => simp [hwritten] at hy
  | newest :: second :: older =>
    have hsorted := h.sorted
    simp only [hwritten, getElem?_cons_succ, getElem?_cons_zero, some.injEq] at hy
    rw [hwritten, pairwise_cons] at hsorted
    rw [← hslots, hwritten] at hw
    have hlt : second ≤ newest := hsorted.1 second (by simp)
    simp at hw
    omega

/-- While no device leaves or returns, a truncation deletes no copy that holds an entry above the
watermark of one of the two newest superblocks, and the copy has the records the entry names. -/
theorem truncation_spares_replay (hs : (deltaLog n).ReachableUnder (fun _ a ↦ a.Undisturbed) s) {removed : Nat}
    (hstep : s.step (.deleteNext removed) = some t) :
    ∀ w ∈ s.slots.take 2, ∀ v id c, s.copy v id = some c → ∀ e ∈ c.entries, w < e.epoch →
      t.copy v id = some c ∧ Carries c.records e.newObjectHash := by
  intro w hw v id c hc e he hlt
  obtain ⟨hagree, hsound, hnamed⟩ := spared_of_reachable hs
  refine ⟨?_, (hnamed v id c hc).carries he⟩
  cases hp : s.pool with
  | none => simp [step, hp, downStep] at hstep
  | some p =>
    simp only [step, hp, mountedStep, deleteNext] at hstep
    split at hstep
    next w' roots i _ hdeleting =>
      split at hstep
      next hdead =>
        cases hstep
        rw [copy_setPool, copy_onDevices, Table.lookup_erase_eq]
        by_cases hv : v ∈ roots.take removed
        · have hne : id ≠ i := by
            rintro rfl
            have hdeadline := hagree.epoch_le_of_dead hdead (mem_of_mem_take hv) hc e he
            have hle : w' ≤ w := watermark_le_of_mem_take (hsound p hp).marked hdeleting hw
            omega
          simpa [hv, hne, copy] using hc
        · simpa [hv] using hc
      next =>
        cases hstep
        exact hc
    next =>
      cases hstep
      exact hc
    · cases hstep

/-- The second segment has an entry that is not yet below both superblocks: the first is deleted
and the second stays. -/
theorem truncation_spares_replay_second : ∃ s t c, (deltaLog 2).ReachableUnder (fun _ a ↦ a.Undisturbed) s ∧
    s.step (.deleteNext 2) = some t ∧ s.slots.take 2 = [2, 1] ∧ (s.copy 0 0).isSome ∧ t.copy 0 0 = none ∧
    s.copy 0 1 = some c ∧ c.entries = [⟨2, 7, 2, 1⟩] ∧ t.copy 0 1 = some c ∧ Carries c.records 7 := by
  obtain ⟨s, t, hs, hstep, hslots, hold, hgone, c, hc, hentries⟩ : ∃ s t,
      (deltaLog 2).ReachableUnder (fun _ a ↦ a.Undisturbed) s ∧ s.step (.deleteNext 2) = some t ∧
      s.slots.take 2 = [2, 1] ∧ (s.copy 0 0).isSome ∧ t.copy 0 0 = none ∧
      ∃ c ∈ s.copy 0 1, c.entries = [⟨2, 7, 2, 1⟩] :=
    Machine.exists_step_of_run (blank_init 2) (.mount [0, 1] :: fsyncRun ++ [.rollOver ⟨[], []⟩] ++ checkpointRun ++
      fsyncRun.eraseIdx 1 ++ checkpointRun ++ [.readThrough, .lockLog]) (by decide +kernel)
  obtain ⟨hstays, hcarries⟩ := truncation_spares_replay hs hstep 1 (by simp [hslots]) 0 1 c hc ⟨2, 7, 2, 1⟩
    (by simp [hentries]) (by decide)
  exact ⟨s, t, c, hs, hstep, hslots, hold, hgone, hc, hentries, hstays, hcarries⟩

end State

end Lchfs.Delta
