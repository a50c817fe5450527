import Lchfs.Recovery.ReplayOrder

/-!
# What a mount takes over

The records stay where the crash left them, and the index only spares the mount a scan.
-/

namespace Lchfs.Store.State

open Lchfs.Format Lchfs.Library Option

variable {params : PoolParams} {s t : State}

/-- Whatever was interrupted, no place an index or the cache holds for a hash has another record, and
a read returns the record that was asked for. -/
theorem known_places_hold_no_other_record (hs : (pool params).Reachable s) :
    (∀ hash loc, s.store.Knows hash loc → ∀ r, s.store.HasRecord loc r → r = hash) ∧
      ∀ hash r, s.store.readVerified hash = some r → r = hash := by
  have hknows := (located_of_reachable hs).store.knows
  refine ⟨fun hash loc hk ↦ (hknows hash loc hk).record, fun hash r hr ↦ ?_⟩
  unfold RecordStore.readVerified at hr
  split at hr
  · cases hr
  · next hc => exact (hknows hash _ (.cached hc)).record r (.inl hr)
  · next hc => exact (hknows hash _ (.cached hc)).record r (.inr hr)

theorem known_places_hold_no_other_record_oneFileRun : ∃ s, (pool (smallPool 1)).Reachable s ∧
    s.store.readVerified s.ns.rootHash = some s.ns.rootHash := by
  obtain ⟨s, hs, hr⟩ : ∃ s, (pool (smallPool 1)).Reachable s ∧ (s.store.readVerified s.ns.rootHash).isSome :=
    Machine.exists_of_run rfl (oneFileRun ++ [.crash, .openPool]) (by decide +kernel)
  obtain ⟨r, hr⟩ := isSome_iff_exists.1 hr
  exact ⟨s, hs, (known_places_hold_no_other_record hs).2 _ r hr ▸ hr⟩

/-- The index decides nothing: a mount of the same devices without it reaches the same state, but for
the locations the store holds. -/
theorem mount_same_without_index {t' : State} (hs : (pool params).Reachable s)
    (hst : s.step params .openPool = some t) (ht : t.mounted = true)
    (hst' : { s with store.durableIndex := none }.step params .openPool = some t') (ht' : t'.mounted = true) :
    t' = { t with store := t'.store } ∧ t'.store.segments = t.store.segments ∧
      t'.store.stripes = t.store.stripes ∧ t'.store.nextSegmentId = t.store.nextSegmentId := by
  have hloc := located_of_reachable hs
  obtain ⟨hm, ⟨_, rfl, -⟩ | ⟨slot, hopens⟩⟩ := hloc.openPool hst
  · simp [hm] at ht
  have hloc' : { s with store.durableIndex := none }.Located := FailsToOpen.located hloc hm ⟨none, rfl, by simp⟩
  obtain ⟨_, ⟨_, rfl, -⟩ | ⟨slot', hopens'⟩⟩ := hloc'.openPool hst'
  · simp [hm] at ht'
  obtain rfl : slot = slot' := some.inj (hopens.published.symm.trans hopens'.published)
  obtain rfl := hopens.eq
  obtain rfl := hopens'.eq
  exact ⟨rfl, rfl, rfl, rfl⟩

theorem mount_same_without_index_oneFileRun : ∃ s t t', (pool (smallPool 1)).Reachable s ∧
    s.step (smallPool 1) .openPool = some t ∧ s.store.durableIndex.isSome ∧
      { s with store.durableIndex := none }.step (smallPool 1) .openPool = some t' ∧
      t' = { t with store := t'.store } := by
  obtain ⟨s, t, hs, ht, hindex, hm, t', ht', hm'⟩ : ∃ s t, (pool (smallPool 1)).Reachable s ∧
      s.step (smallPool 1) .openPool = some t ∧ s.store.durableIndex.isSome ∧ t.mounted = true ∧
      ∃ t' ∈ { s with store.durableIndex := none }.step (smallPool 1) .openPool, t'.mounted = true :=
    Machine.exists_step_of_run rfl (oneFileRun ++ writeRun 2 ++ .beginFsync 2 :: fsyncRun (smallPool 1) 2 ++
      [.crash]) (by decide +kernel)
  exact ⟨s, t, t', hs, ht, hindex, ht', (mount_same_without_index hs ht hm ht' hm').1⟩

end Lchfs.Store.State
