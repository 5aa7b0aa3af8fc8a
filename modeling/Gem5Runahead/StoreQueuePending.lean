import Gem5Runahead.StoreQueueInv

/-!
# StoreQueuePending

A store that the writeback pointer has not passed is not completed, in any run of the store queue.
Unlike the invariant of the whole writeback this does not depend on the ports: a store that the
loop skips is behind the pointer afterwards.

* `PendingAt` — what an entry on this side of the pointer has not done yet.
* `reaches_pending` — every run.
-/

namespace Gem5
namespace Runahead

/-- An entry behind the pointer may write back. One that is not is not completed and has a packet
left to be sent; only the store at the pointer has its packets built. -/
structure SQEntry.PendingAt (e : SQEntry) (wb idx : Nat) : Prop where
  passed : idx < wb → e.canWB = true
  completed : wb ≤ idx → e.completed = false
  request : wb ≤ idx → ∀ r, e.request = some r → r.sentPackets < r.numPackets ∧
    (r.built = true → idx = wb ∧ e.canWB = true) ∧ (r.built = false → r.sent = false)

namespace LSQUnit

variable {cfg : LSQParams} {env : Answers} {s s' t : LSQUnit} {idx wb : Nat} {e : SQEntry}
  {r : LSQRequest}

structure Pending (s : LSQUnit) : Prop where
  entry : ∀ idx e, s.storeQueue.get? idx = some e → e.PendingAt s.storeWBIt idx
  head_le : s.storeQueue.head ≤ s.storeWBIt
  le_end : s.storeWBIt ≤ s.storeQueue.endIdx

theorem init_pending (insts : Insts) : Pending (init insts) := by
  refine ⟨fun idx e h => ?_, Nat.le_refl _, Nat.le_refl _⟩
  simp [init, IndexedQueue.get?] at h

/-- The pointer moves past a store that may write back. -/
theorem PendingAt.advance (h : e.PendingAt wb idx) (hcan : idx = wb → e.canWB = true) :
    e.PendingAt (wb + 1) idx := by
  refine ⟨fun hlt => ?_, fun hle => h.completed (by omega), fun hle r hr => ?_⟩
  · rcases Nat.lt_succ_iff_lt_or_eq.mp hlt with hlt | heq
    · exact h.passed hlt
    · exact hcan heq
  · obtain ⟨hleft, hbuilt, hsent⟩ := h.request (by omega) r hr
    refine ⟨hleft, fun hb => ?_, hsent⟩
    have := (hbuilt hb).1
    omega

/-- Each entry of the new queue stems from one of the old queue. -/
theorem Pending.of_entries (h : Pending s) (hwb : s'.storeWBIt = s.storeWBIt)
    (hhead : s'.storeQueue.head = s.storeQueue.head)
    (hend : s'.storeQueue.endIdx = s.storeQueue.endIdx)
    (hentry : ∀ j a, s'.storeQueue.get? j = some a → ∃ b, s.storeQueue.get? j = some b ∧
      (b.PendingAt s.storeWBIt j → a.PendingAt s.storeWBIt j)) : Pending s' := by
  refine ⟨fun j a ha => ?_, ?_, ?_⟩
  · obtain ⟨b, hb, hkeeps⟩ := hentry j a ha
    rw [hwb]
    exact hkeeps (h.entry j b hb)
  · rw [hwb, hhead]
    exact h.head_le
  · rw [hwb, hend]
    exact h.le_end

theorem Pending.of_same (h : Pending s) (hwb : s'.storeWBIt = s.storeWBIt)
    (hqueue : s'.storeQueue = s.storeQueue) : Pending s' :=
  h.of_entries hwb (hqueue ▸ rfl) (hqueue ▸ rfl) fun _ a ha => ⟨a, hqueue ▸ ha, id⟩

theorem Pending.modify (h : Pending s) (idx : Nat) {f : SQEntry → SQEntry}
    (hf : ∀ e, s.storeQueue.get? idx = some e → e.PendingAt s.storeWBIt idx →
      (f e).PendingAt s.storeWBIt idx)
    (hwb : s'.storeWBIt = s.storeWBIt) (hqueue : s'.storeQueue = s.storeQueue.modify idx f) :
    Pending s' := by
  refine h.of_entries hwb (by simp [hqueue]) (by simp [hqueue]) fun j a ha => ?_
  rw [hqueue, IndexedQueue.get?_modify] at ha
  split at ha
  · rename_i hj
    subst hj
    obtain ⟨b, hb, rfl⟩ := Option.map_eq_some_iff.mp ha
    exact ⟨b, hb, hf b hb⟩
  · exact ⟨a, ha, id⟩

theorem Pending.advance (h : Pending s) (hget : s.storeQueue.get? s.storeWBIt = some e)
    (hcan : e.canWB = true) : Pending s.advance := by
  have hl := IndexedQueue.lt_of_get? hget
  refine ⟨fun j a ha => PendingAt.advance (h.entry j a ha) fun hj => ?_, ?_, hl.2⟩
  · subst hj
    rw [Option.some.inj (ha.symm.trans hget)]
    exact hcan
  · exact Nat.le_succ_of_le h.head_le

/-- A store behind the new pointer is completed. -/
theorem Pending.completes (h : Pending s) (hget : s.storeQueue.get? idx = some e)
    (hcan : e.canWB = true)
    (hwb : idx < wb ∧ (wb = s.storeWBIt ∨ wb = s.storeWBIt + 1 ∧ idx = s.storeWBIt))
    (hco : Completes cfg s idx e wb s') : Pending s' := by
  have hl := IndexedQueue.lt_of_get? hget
  have hentry : ∀ j a, s.storeQueue.get? j = some a → a.PendingAt wb j := by
    intro j a ha
    rcases hwb.2 with rfl | ⟨rfl, rfl⟩
    · exact h.entry j a ha
    · refine PendingAt.advance (h.entry j a ha) fun hj => ?_
      subst hj
      rw [Option.some.inj (ha.symm.trans hget)]
      exact hcan
  have hle : wb ≤ s.storeQueue.endIdx := by
    have := h.le_end
    omega
  refine ⟨fun j a ha => ?_, ?_, ?_⟩
  · rw [hco.queue] at ha
    rw [hco.storeWBIt]
    obtain ⟨b, hb, rfl⟩ := get?_of_completeAt ha
    have hb' := hentry j b hb
    split
    · rename_i hj
      refine ⟨fun _ => ?_, fun hle => ?_, fun hle => ?_⟩
      · subst hj
        rw [Option.some.inj (hb.symm.trans hget)]
        exact hcan
      · omega
      · omega
    · exact hb'
  · rw [hco.queue, hco.storeWBIt]
    refine completeAt_head_le ?_ hle (by omega) fun a ha => (hentry wb a ha).completed (Nat.le_refl _)
    have := h.head_le
    omega
  · rw [hco.queue, hco.storeWBIt, completeAt_endIdx]
    exact hle

/-- A store with packets built is sent whole and passed, or it blocks. -/
theorem Pending.sendBuilt (h : Pending s) (hget : s.storeQueue.get? s.storeWBIt = some e)
    (hreq : e.request = some r) (hbuilt : r.built = true)
    (hst : s.sendAtPointer cfg env = some s') : Pending s' := by
  obtain ⟨hleft, hcan, -⟩ := (h.entry _ e hget).request (Nat.le_refl _) r hreq
  have hcan := (hcan hbuilt).2
  obtain ⟨k, t, r', hs, hout⟩ := sendAtPointer_cases hget hreq hbuilt hleft hst
  have hself := hs.get?_self hget
  have hqueue : t.storeQueue.head = s.storeQueue.head ∧
      t.storeQueue.endIdx = s.storeQueue.endIdx := by
    rw [hs.queue]
    simp
  have hothers : ∀ j a, t.storeQueue.get? j = some a → j ≠ s.storeWBIt →
      a.PendingAt s.storeWBIt j := fun j a ha hj =>
    h.entry j a ((hs.get?_of_ne hj).symm.trans ha)
  rcases hout with ⟨-, -, rfl⟩ | ⟨hblocked, -, rfl⟩
  · have hl := IndexedQueue.lt_of_get? hget
    refine ⟨fun j a ha => ?_, ?_, ?_⟩
    · change a.PendingAt (t.storeWBIt + 1) j
      rw [hs.storeWBIt]
      by_cases hj : j = s.storeWBIt
      · subst hj
        rw [← Option.some.inj (hself.symm.trans ha)]
        exact ⟨fun _ => hcan, fun hle => by omega, fun hle => by omega⟩
      · exact PendingAt.advance (hothers j a ha hj) fun hj' => absurd hj' hj
    · change t.storeQueue.head ≤ t.storeWBIt + 1
      have := h.head_le
      rw [hqueue.1, hs.storeWBIt]
      omega
    · change t.storeWBIt + 1 ≤ t.storeQueue.endIdx
      rw [hqueue.2, hs.storeWBIt]
      exact hl.2
  · refine ⟨fun j a ha => ?_, ?_, ?_⟩
    · rw [hs.storeWBIt]
      by_cases hj : j = s.storeWBIt
      · subst hj
        rw [← Option.some.inj (hself.symm.trans ha)]
        refine ⟨fun _ => hcan, (h.entry _ e hget).completed, fun _ r₁ hr₁ => ?_⟩
        obtain rfl : r' = r₁ := Option.some.inj hr₁
        rw [hs.numPackets, hs.built, hbuilt]
        exact ⟨hblocked, fun _ => ⟨rfl, hcan⟩, by simp⟩
      · exact hothers j a ha hj
    · rw [hqueue.1, hs.storeWBIt]
      exact h.head_le
    · rw [hqueue.2, hs.storeWBIt]
      exact h.le_end

/-- Nothing is sent for a store whose packets are not built. -/
theorem sendAtPointer_unbuilt (hget : s.storeQueue.get? s.storeWBIt = some e)
    (hreq : e.request = some r) (hbuilt : r.built = false) (hsent : r.sent = false)
    (hst : s.sendAtPointer cfg env = some s') : s' = s := by
  simp only [sendAtPointer, Option.bind_eq_bind, Option.bind_eq_some_iff] at hst
  obtain ⟨t, ht, e', he', r', hr', heq⟩ := hst
  have hsame : t = s := by
    simp only [sendPacketToCache, hget, hreq, Option.bind_eq_bind, Option.bind_some, hbuilt] at ht
    split at ht
    · cases ht
    · exact (Option.some.inj ht).symm
  subst hsame
  obtain rfl := Option.some.inj (hget.symm.trans he')
  obtain rfl : r = r' := Option.some.inj (hreq.symm.trans hr')
  rw [hsent] at heq
  exact (Option.some.inj heq).symm

theorem Pending.writebackBlockedStore (h : Pending s)
    (hst : s.writebackBlockedStore cfg env = some s') : Pending s' := by
  unfold LSQUnit.writebackBlockedStore at hst
  split at hst
  · have hst' := hst
    simp only [sendAtPointer, sendPacketToCache, Option.bind_eq_bind,
      Option.bind_eq_some_iff] at hst'
    obtain ⟨t, ⟨e, hget, r, hreq, -⟩, -⟩ := hst'
    cases hbuilt : r.built with
    | true => exact h.sendBuilt hget hreq hbuilt hst
    | false =>
      have hsent := ((h.entry _ e hget).request (Nat.le_refl _) r hreq).2.2 hbuilt
      rw [sendAtPointer_unbuilt hget hreq hbuilt hsent hst]
      exact h
  · cases hst

/-- The writeback of the store at the pointer starts. -/
theorem Pending.startWrite {r' : LSQRequest} (h : Pending s)
    (hget : s.storeQueue.get? s.storeWBIt = some e) (hcan : e.canWB = true)
    (hreq : e.request = some r) (hstarted : Started r r') : Pending (s.startWrite r') := by
  refine h.modify s.storeWBIt (fun a ha hpending => ?_) rfl rfl
  obtain rfl := Option.some.inj (hget.symm.trans ha)
  refine ⟨hpending.passed, hpending.completed, fun hle r₁ hr₁ => ?_⟩
  obtain rfl : r' = r₁ := Option.some.inj hr₁
  rw [hstarted.sentPackets, hstarted.numPackets, hstarted.built]
  exact ⟨(hpending.request hle r hreq).1, fun _ => ⟨rfl, hcan⟩, by simp⟩

theorem Pending.round {goOn : Bool} (h : Pending s)
    (hget : s.storeQueue.get? s.storeWBIt = some e) (hcan : e.canWB = true)
    (hround : Round cfg env s e s' goOn) : Pending s' := by
  cases hround with
  | noPort => exact h.advance hget hcan
  | wait => exact h
  | empty _ _ hco => exact h.completes hget hcan ⟨Nat.lt_succ_self _, .inr ⟨rfl, rfl⟩⟩ hco
  | prefetch => exact h.advance hget hcan
  | @complete r r' x t _ _ hreq hstarted _ _ hco =>
    have hstart := @Pending.of_same _ ((s.startWrite r').emit x)
      (h.startWrite hget hcan hreq hstarted) rfl rfl
    exact hstart.completes (startWrite_get? hget r') hcan ⟨Nat.lt_succ_self _, .inr ⟨rfl, rfl⟩⟩ hco
  | send _ _ hreq hstarted _ hst =>
    exact (h.startWrite hget hcan hreq hstarted).sendBuilt (startWrite_get? hget _) rfl
      hstarted.built hst

theorem Pending.recvTimingResp (h : Pending s)
    (hleg : ∀ e r, s.storeQueue.get? idx = some e → e.request = some r →
      r.received < r.sentPackets)
    (hst : s.recvTimingResp cfg idx = some s') : Pending s' := by
  obtain ⟨e, r, hget, hreq, hout⟩ := recvTimingResp_cases hst
  have hlt := hleg e r hget hreq
  have hcount : Pending (s.modifyRequest idx .countResponse) := by
    refine h.modify idx (fun a _ hpending => ?_) rfl rfl
    refine ⟨hpending.passed, hpending.completed, fun hle r₁ hr₁ => ?_⟩
    obtain ⟨r₀, hr₀, rfl⟩ := Option.map_eq_some_iff.mp hr₁
    exact hpending.request hle r₀ hr₀
  rcases hout with ⟨hlast, hco⟩ | ⟨-, rfl⟩
  · -- every packet was sent, so the pointer has passed the store
    have hpassed : idx < s.storeWBIt := by
      by_contra hle
      have := ((h.entry idx e hget).request (Nat.le_of_not_lt hle) r hreq).1
      omega
    exact hcount.completes (modifyRequest_get?_self hget _) ((h.entry idx e hget).passed hpassed)
      ⟨hpassed, .inl rfl⟩ hco
  · exact hcount

theorem Pending.executeStore {size : StoreSize} (h : Pending s) (hfresh : r.Fresh)
    (hst : s.executeStore idx size r = some s') : Pending s' := by
  obtain ⟨e, w, -, rfl⟩ := executeStore_spec hst
  refine h.modify idx (fun a ha hpending => ?_) rfl rfl
  refine ⟨fun hle => ?_, hpending.completed, fun _ r₁ hr₁ => ?_⟩
  · rw [hpending.passed hle]
    rfl
  · obtain rfl : r = r₁ := Option.some.inj hr₁
    obtain ⟨hsent, hbuilt, hnone, -, hpos⟩ := hfresh
    rw [hsent, hbuilt, hnone]
    exact ⟨hpos, by simp, by simp⟩

theorem Pending.insertStore (h : Pending s) (i : Nat) (inst : DynInst) :
    Pending (s.insertStore i inst) := by
  have hle := h.le_end
  refine ⟨fun j a ha => ?_, h.head_le, ?_⟩
  · change (s.storeQueue.pushBack { inst := i }).get? j = some a at ha
    rw [IndexedQueue.get?_pushBack] at ha
    split at ha
    · rename_i hj
      cases ha
      subst hj
      refine ⟨fun hlt => ?_, fun _ => rfl, by simp⟩
      exact absurd hlt (Nat.not_lt.mpr hle)
    · exact h.entry j a ha
  · change s.storeWBIt ≤ (s.storeQueue.pushBack { inst := i }).endIdx
    rw [IndexedQueue.pushBack_endIdx]
    exact Nat.le_succ_of_le hle

theorem step_pending {op : Op} (h : Pending s) (hleg : op.Legal s)
    (hst : s.step cfg op = some s') : Pending s' := by
  cases op with
  | insertStore i inst =>
    cases hst
    exact h.insertStore i inst
  | executeStore idx size r => exact h.executeStore hleg.1 hst
  | retire i =>
    cases hst
    exact h.of_same rfl rfl
  | commitStores youngest =>
    cases hst
    have hend : (s.commitStores youngest).storeQueue.endIdx = s.storeQueue.endIdx := by
      simp [LSQUnit.commitStores, IndexedQueue.endIdx, commitEntries_length]
    refine h.of_entries rfl rfl hend fun j a ha => ?_
    obtain ⟨b, hb, rfl | rfl⟩ := commitStores_get? youngest ha
    · exact ⟨a, hb, id⟩
    · refine ⟨b, hb, fun hpending => ⟨fun _ => rfl, hpending.completed, fun hle r hr => ?_⟩⟩
      obtain ⟨hleft, hbuilt, hsent⟩ := hpending.request hle r hr
      exact ⟨hleft, fun hb => ⟨(hbuilt hb).1, rfl⟩, hsent⟩
  | enterRunahead =>
    cases hst
    refine h.of_entries rfl (IndexedQueue.map_head ..) (IndexedQueue.map_endIdx ..) fun j a ha => ?_
    rw [LSQUnit.enterRunahead, IndexedQueue.get?_map] at ha
    obtain ⟨b, hb, rfl⟩ := Option.map_eq_some_iff.mp ha
    refine ⟨b, hb, fun hpending => ?_⟩
    split
    · exact hpending
    · refine ⟨hpending.passed, hpending.completed, fun hle r hr => ?_⟩
      obtain ⟨r₀, hr₀, rfl⟩ := Option.map_eq_some_iff.mp hr
      exact hpending.request hle r₀ hr₀
  | exitRunahead =>
    cases hst
    exact h.of_same rfl rfl
  | squash n =>
    cases hst
    refine ⟨fun j a ha => h.entry j a (IndexedQueue.get?_of_dropBack ha), h.head_le, ?_⟩
    refine IndexedQueue.le_dropBack_endIdx h.le_end h.head_le fun j a ha hj => ?_
    have hcan := (h.entry j a ha).passed (Nat.lt_of_succ_le (Nat.le_of_eq hj))
    simp [hcan]
  | tick =>
    cases hst
    exact h.of_same rfl rfl
  | cacheGotBlocked =>
    cases hst
    exact h.of_same rfl rfl
  | recvReqRetry env =>
    have hready : Pending { s with cacheBlocked := false } := h.of_same rfl rfl
    rcases recvReqRetry_cases hst with hst | rfl
    · exact hready.writebackBlockedStore hst
    · exact hready
  | recvTimingResp idx => exact h.recvTimingResp (fun e r he hr => hleg e he r hr) hst
  | writebackBlockedStore env => exact h.writebackBlockedStore hst
  | writebackIter env =>
    simp only [step] at hst
    split at hst
    · rename_i hcond
      obtain ⟨⟨t, goOn⟩, hiter, rfl⟩ := Option.map_eq_some_iff.mp hst
      simp only [writebackCond, Bool.and_eq_true] at hcond
      obtain ⟨e, hget, hcan⟩ := (Option.any_eq_true _ _).mp hcond.1.2
      have hround := writebackIter_round hget
        (fun j a hj ha => (h.entry j a ha).completed (Nat.le_of_lt hj)) hiter
      exact h.round hget hcan hround
    · cases hst

theorem reaches_pending {ops : List Op} (h : (system cfg).Reaches ops s) : Pending s := by
  refine h.invariant (I := Pending) ?_ ?_
  · rintro s ⟨insts, rfl⟩
    exact init_pending insts
  · rintro s op s' hpending ⟨hleg, hst⟩
    exact step_pending hpending hleg hst

end LSQUnit
end Runahead
end Gem5
