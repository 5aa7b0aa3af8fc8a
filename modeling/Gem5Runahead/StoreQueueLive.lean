import Gem5Runahead.StoreQueueWriteback

/-!
# StoreQueueLive

What else holds of the store queue in every state reached, for the calls of the writeback to
return and to get on: the answers of a store count up to its packets and the last one completes
it, a store whose writeback has not started is not marked so, the front of the queue is not
completed, and under total store order a store in flight is one that still waits for answers.

* `LiveAt` / `Live` — the invariant.
* `Live.completes`, `Live.sendAtPointer` — the two ways in which the pointer gets on.
* `step_live` — the step lemma.
-/

namespace Gem5
namespace Runahead
namespace LSQUnit

variable {cfg : LSQParams} {env : Answers} {s s' t : LSQUnit} {idx wb : Nat} {e : SQEntry}
  {r r' : LSQRequest} {goOn : Bool}

structure LiveAt (s : LSQUnit) (idx : Nat) (e : SQEntry) : Prop where
  received_le : ∀ r, e.request = some r → r.received ≤ r.sentPackets
  answered : ∀ r, e.request = some r → r.received = r.numPackets → e.completed = true
  started : s.storeWBIt ≤ idx → e.committed = true →
    s.isStoreBlocked = true ∧ idx = s.storeWBIt
  front : idx = s.storeQueue.head → e.completed = false

/-- The store at `idx` is sent whole and not completed. -/
structure InFlight (s : LSQUnit) (idx : Nat) (e : SQEntry) : Prop where
  get : s.storeQueue.get? idx = some e
  passed : idx < s.storeWBIt
  completed : e.completed = false
  sent : ∃ r, e.request = some r ∧ r.sentPackets = r.numPackets

structure Live (cfg : LSQParams) (s : LSQUnit) : Prop where
  entry : ∀ idx e, s.storeQueue.get? idx = some e → s.LiveAt idx e
  inFlight : s.storeInFlight = true → cfg.needsTSO = true ∧ ∃ idx e, s.InFlight idx e

theorem init_live (insts : Insts) : Live cfg (init insts) := by
  refine ⟨fun idx e h => ?_, fun h => by cases h⟩
  simp [init, IndexedQueue.get?] at h

section Frame

/-- The pointer stays, and the store in flight is still there. -/
theorem Live.of_entries (h : Live cfg s) (hfl : s'.storeInFlight = s.storeInFlight)
    (hwb : s'.storeWBIt = s.storeWBIt)
    (hentry : ∀ j a, s'.storeQueue.get? j = some a → s'.LiveAt j a)
    (hkeep : ∀ j a, s.InFlight j a → ∃ a', s'.storeQueue.get? j = some a' ∧
      a'.completed = a.completed ∧ ∀ r, a.request = some r → ∃ r', a'.request = some r' ∧
        r'.sentPackets = r.sentPackets ∧ r'.numPackets = r.numPackets) : Live cfg s' := by
  refine ⟨hentry, fun hin => ?_⟩
  rw [hfl] at hin
  obtain ⟨htso, idx, e, hflight⟩ := h.inFlight hin
  obtain ⟨r, hreq, hsent⟩ := hflight.sent
  obtain ⟨e', hget', hc, hreq'⟩ := hkeep idx e hflight
  obtain ⟨r', hr', hs', hn'⟩ := hreq' r hreq
  refine ⟨htso, idx, e', hget', ?_, hc.trans hflight.completed, r', hr', ?_⟩
  · rw [hwb]
    exact hflight.passed
  · rw [hs', hn', hsent]

/-- Each entry is what it was, but for marks that `Live` does not speak of. -/
theorem Live.of_map (h : Live cfg s) (hfl : s'.storeInFlight = s.storeInFlight)
    (hwb : s'.storeWBIt = s.storeWBIt) (hblk : s'.isStoreBlocked = s.isStoreBlocked)
    (hhead : s'.storeQueue.head = s.storeQueue.head) {f : SQEntry → SQEntry}
    (hf : ∀ a, (f a).completed = a.completed ∧ (f a).committed = a.committed ∧
      ∃ g : LSQRequest → LSQRequest, (f a).request = a.request.map g ∧
        ∀ r, (g r).sentPackets = r.sentPackets ∧ (g r).received = r.received ∧
          (g r).numPackets = r.numPackets)
    (hget : ∀ j, s'.storeQueue.get? j = s.storeQueue.get? j ∨
      s'.storeQueue.get? j = (s.storeQueue.get? j).map f) : Live cfg s' := by
  refine h.of_entries hfl hwb (fun j a ha => ?_) fun j a hin => ?_
  · rcases hget j with hsame | hmap
    · rw [hsame] at ha
      have hok := h.entry j a ha
      refine ⟨hok.received_le, hok.answered, ?_, ?_⟩
      · rw [hwb, hblk]
        exact hok.started
      · rw [hhead]
        exact hok.front
    · rw [hmap] at ha
      obtain ⟨b, hb, rfl⟩ := Option.map_eq_some_iff.mp ha
      obtain ⟨hc, hcom, g, hreq, hg⟩ := hf b
      have hok := h.entry j b hb
      refine ⟨fun r hr => ?_, fun r hr hlast => ?_, ?_, ?_⟩
      · rw [hreq] at hr
        obtain ⟨r₀, hr₀, rfl⟩ := Option.map_eq_some_iff.mp hr
        rw [(hg r₀).1, (hg r₀).2.1]
        exact hok.received_le r₀ hr₀
      · rw [hreq] at hr
        obtain ⟨r₀, hr₀, rfl⟩ := Option.map_eq_some_iff.mp hr
        rw [(hg r₀).2.1, (hg r₀).2.2] at hlast
        exact hc.trans (hok.answered r₀ hr₀ hlast)
      · rw [hwb, hblk, hcom]
        exact hok.started
      · rw [hhead, hc]
        exact hok.front
  · rcases hget j with hsame | hmap
    · exact ⟨a, hsame.trans hin.get, rfl, fun r hr => ⟨r, hr, rfl, rfl⟩⟩
    · obtain ⟨hc, -, g, hreq, hg⟩ := hf a
      refine ⟨f a, by rw [hmap, hin.get]; rfl, hc, fun r hr => ⟨g r, ?_, (hg r).1, (hg r).2.2⟩⟩
      rw [hreq, hr]
      rfl

theorem Live.of_same (h : Live cfg s) (hq : s'.storeQueue = s.storeQueue)
    (hfl : s'.storeInFlight = s.storeInFlight) (hwb : s'.storeWBIt = s.storeWBIt)
    (hblk : s'.isStoreBlocked = s.isStoreBlocked) : Live cfg s' :=
  h.of_map (f := id) hfl hwb hblk (by rw [hq])
    (fun a => ⟨rfl, rfl, id, (Option.map_id_apply).symm, fun _ => ⟨rfl, rfl, rfl⟩⟩)
    fun j => .inl (by rw [hq])

end Frame

section Pointer

/-- A store behind the new pointer is completed; what `Live` says of it before may be missing. -/
theorem Live.completes (h : ∀ j a, s.storeQueue.get? j = some a → j ≠ idx → s.LiveAt j a)
    (hfl : s.storeInFlight = true → cfg.needsTSO = true)
    (hget : s.storeQueue.get? idx = some e)
    (hrec : ∀ r, e.request = some r → r.received ≤ r.sentPackets)
    (hwb : idx < wb ∧ (wb = s.storeWBIt ∨
      wb = s.storeWBIt + 1 ∧ idx = s.storeWBIt ∧ s.isStoreBlocked = false))
    (hco : Completes cfg s idx e wb s') : Live cfg s' := by
  have hfront' : idx ≠ s.storeQueue.head → ∀ b, s.storeQueue.get? s.storeQueue.head = some b →
      b.completed = false := fun hne b hb => (h _ b hb hne.symm).front rfl
  refine ⟨fun j a ha => ?_, fun hin => ?_⟩
  · have hget' := ha
    rw [hco.queue] at ha
    obtain ⟨b, hb, hab⟩ := get?_of_completeAt ha
    by_cases hj : j = idx
    · subst hj
      obtain rfl : e = b := Option.some.inj (hget.symm.trans hb)
      rw [if_pos rfl] at hab
      subst hab
      refine ⟨hrec, fun _ _ _ => rfl, fun hle => ?_, fun hfront => ?_⟩
      · rw [hco.storeWBIt] at hle
        omega
      · rw [hfront, hco.queue] at hget'
        exact completeAt_front hfront' hget'
    · rw [if_neg hj] at hab
      subst hab
      have hok := h j a hb hj
      refine ⟨hok.received_le, hok.answered, fun hle hcom => ?_, fun hfront => ?_⟩
      · rw [hco.storeWBIt] at hle ⊢
        rw [hco.isStoreBlocked]
        obtain ⟨hblk, hjw⟩ := hok.started (by omega) hcom
        rcases hwb.2 with rfl | ⟨-, -, hno⟩
        · exact ⟨hblk, hjw⟩
        · rw [hno] at hblk
          cases hblk
      · rw [hfront, hco.queue] at hget'
        exact completeAt_front hfront' hget'
  · rw [hco.storeInFlight, Bool.and_eq_true, Bool.not_eq_true'] at hin
    rw [hfl hin.1] at hin
    cases hin.2

/-- The store at the pointer is sent whole and in flight, or it blocks. -/
theorem Live.sendAtPointer
    (h : ∀ j a, s.storeQueue.get? j = some a → j ≠ s.storeWBIt → s.LiveAt j a)
    (hfl : s.storeInFlight = true → cfg.needsTSO = true ∧ ∃ idx e, s.InFlight idx e)
    (hget : s.storeQueue.get? s.storeWBIt = some e) (hc : e.completed = false)
    (hreq : e.request = some r) (hbuilt : r.built = true) (hrec : r.received ≤ r.sentPackets)
    (hlt : r.sentPackets < r.numPackets) (hst : s.sendAtPointer cfg env = some s') :
    Live cfg s' := by
  obtain ⟨k, t, r', hs, hout⟩ := sendAtPointer_cases hget hreq hbuilt hlt hst
  have hself := hs.get?_self hget
  have hhead : t.storeQueue.head = s.storeQueue.head := by rw [hs.queue]; simp
  have hrec' : r'.received ≤ r'.sentPackets := by
    rw [hs.received, hs.sentPackets]
    omega
  have hopen : r'.received ≠ r'.numPackets := by
    rw [hs.received, hs.numPackets]
    omega
  -- an entry that is not at the pointer has not started
  have hother : ∀ j a, t.storeQueue.get? j = some a → j ≠ s.storeWBIt → s.LiveAt j a ∧
      (s.storeWBIt ≤ j → a.committed = false) := by
    intro j a ha hj
    have hok := h j a ((hs.get?_of_ne hj).symm.trans ha) hj
    refine ⟨hok, fun hle => ?_⟩
    cases hcom : a.committed with
    | false => rfl
    | true => exact absurd (hok.started hle hcom).2 hj
  rcases hout with ⟨hsent, -, rfl⟩ | ⟨hsent, hblk, rfl⟩
  · refine ⟨fun j a ha => ?_, fun hin => ?_⟩
    · by_cases hj : j = s.storeWBIt
      · subst hj
        cases hself.symm.trans ha
        refine ⟨fun r1 hr1 => ?_, fun r1 hr1 hlast => ?_, fun hle => ?_, fun _ => hc⟩
        · cases hr1
          exact hrec'
        · cases hr1
          exact absurd hlast hopen
        · have hle' : t.storeWBIt + 1 ≤ s.storeWBIt := hle
          rw [hs.storeWBIt] at hle'
          omega
      · obtain ⟨hok, hcom⟩ := hother j a ha hj
        refine ⟨hok.received_le, hok.answered, fun hle hco => ?_, fun hfront => ?_⟩
        · have hle' : t.storeWBIt + 1 ≤ j := hle
          rw [hs.storeWBIt] at hle'
          rw [hcom (by omega)] at hco
          cases hco
        · exact hok.front (hfront.trans hhead)
    · have hin' : (t.storeInFlight || cfg.needsTSO) = true := hin
      rw [hs.storeInFlight, Bool.or_eq_true] at hin'
      refine ⟨hin'.elim (fun hin => (hfl hin).1) id, s.storeWBIt, _, hself, ?_, hc, r', rfl, ?_⟩
      · show s.storeWBIt < t.storeWBIt + 1
        rw [hs.storeWBIt]
        exact Nat.lt_succ_self _
      · rw [hsent, hs.numPackets]
  · refine ⟨fun j a ha => ?_, fun hin => ?_⟩
    · by_cases hj : j = s.storeWBIt
      · subst hj
        cases hself.symm.trans ha
        refine ⟨fun r1 hr1 => ?_, fun r1 hr1 hlast => ?_, fun _ _ => ⟨hblk, hs.storeWBIt.symm⟩,
          fun _ => hc⟩
        · cases hr1
          exact hrec'
        · cases hr1
          exact absurd hlast hopen
      · obtain ⟨hok, hcom⟩ := hother j a ha hj
        refine ⟨hok.received_le, hok.answered, fun hle hco => ?_, fun hfront => ?_⟩
        · rw [hs.storeWBIt] at hle
          rw [hcom hle] at hco
          cases hco
        · exact hok.front (hfront.trans hhead)
    · rw [hs.storeInFlight] at hin
      obtain ⟨htso, idx, a, hflight⟩ := hfl hin
      refine ⟨htso, idx, a, ?_, ?_, hflight.completed, hflight.sent⟩
      · rw [hs.get?_of_ne (Nat.ne_of_lt hflight.passed)]
        exact hflight.get
      · rw [hs.storeWBIt]
        exact hflight.passed

theorem writebackBlockedStore_live (h : Live cfg s) (hinv : Inv s)
    (hst : s.writebackBlockedStore cfg env = some s') : Live cfg s' := by
  unfold writebackBlockedStore at hst
  split at hst
  · rename_i hb
    obtain ⟨e, r, hat⟩ := hinv.blocked hb
    obtain ⟨hc, hahead⟩ := (hinv.entry _ _ hat.get).ahead (Nat.le_refl _)
    exact Live.sendAtPointer (fun j a ha _ => h.entry j a ha) h.inFlight hat.get hc hat.request
      hat.built ((h.entry _ _ hat.get).received_le r hat.request) (hahead r hat.request).1 hst
  · cases hst

theorem Round.live (h : Live cfg s) (hinv : Inv s)
    (hget : s.storeQueue.get? s.storeWBIt = some e)
    (hfree : s.cachePortAvailable cfg = false → (s.insts e.inst).runahead = true)
    (hround : Round cfg env s e t goOn) : Live cfg t := by
  have hok := h.entry _ _ hget
  obtain ⟨hc, hahead⟩ := (hinv.entry _ _ hget).ahead (Nat.le_refl _)
  have hfl : s.storeInFlight = true → cfg.needsTSO = true := fun hin => (h.inFlight hin).1
  -- once the writeback of the store has started, the others are as they were
  have hothers : ∀ r' : LSQRequest, ∀ j a, (s.startWrite r').storeQueue.get? j = some a →
      j ≠ s.storeWBIt → (s.startWrite r').LiveAt j a := by
    intro r' j a ha hj
    rw [startWrite_get?_of_ne s r' hj] at ha
    have hok := h.entry j a ha
    refine ⟨hok.received_le, hok.answered, hok.started, fun hfront => hok.front ?_⟩
    rw [hfront, startWrite, modifyEntry, IndexedQueue.modify_head]
  cases hround with
  | noPort hport hnormal =>
    rw [hfree hport] at hnormal
    cases hnormal
  | wait => exact h
  | empty hblk hsize hco =>
    exact Live.completes (fun j a ha _ => h.entry j a ha) hfl hget hok.received_le
      ⟨Nat.lt_succ_self _, .inr ⟨rfl, rfl, hblk⟩⟩ hco
  | prefetch hblk hpre =>
    refine ⟨fun j a ha => ?_, fun hin => ?_⟩
    · have hok := h.entry j a ha
      refine ⟨hok.received_le, hok.answered, fun hle hcom => ?_, hok.front⟩
      obtain ⟨hb, -⟩ := hok.started (Nat.le_of_succ_le hle) hcom
      rw [hblk] at hb
      cases hb
    · obtain ⟨htso, idx, a, hflight⟩ := h.inFlight hin
      exact ⟨htso, idx, a, hflight.get, Nat.lt_succ_of_lt hflight.passed, hflight.completed,
        hflight.sent⟩
  | @complete r r' x t hblk hdata hreq hr' hord hx hco =>
    refine Live.completes (s := (s.startWrite r').emit x) (fun j a ha hj => ?_) hfl
      (startWrite_get? hget r') (fun r1 hr1 => ?_) ⟨Nat.lt_succ_self _, .inr ⟨rfl, rfl, hblk⟩⟩ hco
    · have hok := hothers r' j a ha hj
      exact ⟨hok.received_le, hok.answered, hok.started, hok.front⟩
    cases hr1
    rw [hr'.received, hr'.sentPackets]
    exact hok.received_le r hreq
  | @send r r' t hblk hdata hreq hr' hloc hsend =>
    refine Live.sendAtPointer (s := s.startWrite r') (hothers r') (fun hin => ?_)
      (startWrite_get? hget r') hc rfl hr'.built ?_ ?_ hsend
    · obtain ⟨htso, idx, a, hflight⟩ := h.inFlight hin
      refine ⟨htso, idx, a, ?_, hflight.passed, hflight.completed, hflight.sent⟩
      rw [startWrite_get?_of_ne s r' (Nat.ne_of_lt hflight.passed)]
      exact hflight.get
    · rw [hr'.received, hr'.sentPackets]
      exact hok.received_le r hreq
    · rw [hr'.sentPackets, hr'.numPackets]
      exact (hahead r hreq).1

end Pointer

section Operations

theorem Live.insertStore (h : Live cfg s) (i : Nat) (inst : DynInst) :
    Live cfg (s.insertStore i inst) := by
  have hget : ∀ j, (s.insertStore i inst).storeQueue.get? j =
      if j = s.storeQueue.endIdx then some { inst := i } else s.storeQueue.get? j :=
    fun j => IndexedQueue.get?_pushBack ..
  refine h.of_entries rfl rfl (fun j a ha => ?_) fun j a hin => ?_
  · rw [hget] at ha
    split at ha
    · cases ha
      refine ⟨fun r hr => ?_, fun r hr => ?_, fun _ hcom => ?_, fun _ => rfl⟩
      · cases hr
      · cases hr
      · cases hcom
    · have hok := h.entry j a ha
      exact ⟨hok.received_le, hok.answered, hok.started, hok.front⟩
  · refine ⟨a, ?_, rfl, fun r hr => ⟨r, hr, rfl, rfl⟩⟩
    have hne : j ≠ s.storeQueue.endIdx := Nat.ne_of_lt (IndexedQueue.lt_of_get? hin.get).2
    rw [hget, if_neg hne]
    exact hin.get

/-- A store executes before the pointer reaches it. -/
theorem Live.executeStore (h : Live cfg s) (hinv : Inv s) {size : StoreSize} (hfresh : r.Fresh)
    (hclosed : ∀ e, s.storeQueue.get? idx = some e → e.canWB = false)
    (hst : s.executeStore idx size r = some s') : Live cfg s' := by
  obtain ⟨-, -, hsent, hrec, hnum⟩ := hfresh
  obtain ⟨e, w, hget, rfl⟩ := executeStore_spec hst
  have hget' := s.executed_get? idx size r w
  have hcan := hclosed e hget
  have hhead : (s.executed idx size r w).storeQueue.head = s.storeQueue.head :=
    IndexedQueue.modify_head ..
  refine h.of_entries rfl rfl (fun j a ha => ?_) fun j a hin => ?_
  · rw [hget'] at ha
    split at ha
    · rename_i hj
      subst hj
      rw [hget] at ha
      cases ha
      have hok := h.entry j e hget
      refine ⟨fun r1 hr1 => ?_, fun r1 hr1 hlast => ?_, hok.started, ?_⟩
      · cases hr1
        omega
      · cases hr1
        omega
      · rw [hhead]
        exact hok.front
    · have hok := h.entry j a ha
      refine ⟨hok.received_le, hok.answered, hok.started, ?_⟩
      rw [hhead]
      exact hok.front
  · have hne : j ≠ idx := by
      rintro rfl
      obtain rfl : e = a := Option.some.inj (hget.symm.trans hin.get)
      rw [((hinv.entry j e hget).passed hin.passed).1] at hcan
      cases hcan
    refine ⟨a, ?_, rfl, fun r hr => ⟨r, hr, rfl, rfl⟩⟩
    rw [hget', if_neg hne]
    exact hin.get

theorem Live.recvTimingResp (h : Live cfg s) (hinv : Inv s)
    (hleg : ∀ e r, s.storeQueue.get? idx = some e → e.request = some r →
      r.received < r.sentPackets)
    (hst : s.recvTimingResp cfg idx = some s') : Live cfg s' := by
  obtain ⟨e, r, hget, hreq, hout⟩ := recvTimingResp_cases hst
  have hlt := hleg e r hget hreq
  have hrec : ∀ r1, (e.onRequest .countResponse).request = some r1 →
      r1.received ≤ r1.sentPackets := by
    intro r1 hr1
    obtain ⟨r0, hr0, rfl⟩ := Option.map_eq_some_iff.mp hr1
    obtain rfl : r = r0 := Option.some.inj (hreq.symm.trans hr0)
    exact hlt
  have hget1 : ∀ j, (s.modifyRequest idx .countResponse).storeQueue.get? j =
      if j = idx then (s.storeQueue.get? j).map fun e => e.onRequest .countResponse
        else s.storeQueue.get? j := fun j => modifyEntry_get? ..
  have hhead : (s.modifyRequest idx .countResponse).storeQueue.head = s.storeQueue.head := by
    simp [modifyRequest, modifyEntry]
  have hothers : ∀ j a, (s.modifyRequest idx .countResponse).storeQueue.get? j = some a →
      j ≠ idx → (s.modifyRequest idx .countResponse).LiveAt j a := by
    intro j a ha hj
    rw [hget1, if_neg hj] at ha
    have hok := h.entry j a ha
    exact ⟨hok.received_le, hok.answered, hok.started, fun hf => hok.front (hf.trans hhead)⟩
  rcases hout with ⟨hlast, hco⟩ | ⟨hmore, rfl⟩
  · have hpassed := (hinv.lastResponse hget hreq hlt hlast).2.2
    exact Live.completes hothers (fun hin => (h.inFlight hin).1) (modifyRequest_get?_self hget _)
      hrec ⟨hpassed, .inl rfl⟩ hco
  · refine h.of_entries rfl rfl (fun j a ha => ?_) fun j a hin => ?_
    · by_cases hj : j = idx
      · subst hj
        cases (modifyRequest_get?_self hget _).symm.trans ha
        have hok := h.entry j e hget
        refine ⟨hrec, fun r1 hr1 hlast => ?_, hok.started, fun hf => hok.front (hf.trans hhead)⟩
        obtain ⟨r0, hr0, rfl⟩ := Option.map_eq_some_iff.mp hr1
        obtain rfl : r = r0 := Option.some.inj (hreq.symm.trans hr0)
        exact absurd hlast hmore
      · exact hothers j a ha hj
    · rw [hget1, hin.get]
      split
      · refine ⟨_, rfl, rfl, fun r1 hr1 => ⟨r1.countResponse, ?_, rfl, rfl⟩⟩
        simp [SQEntry.onRequest, hr1]
      · exact ⟨a, rfl, rfl, fun r1 hr1 => ⟨r1, hr1, rfl, rfl⟩⟩

/-- Every operation keeps `Live`. -/
theorem step_live {op : Op} (h : Live cfg s) (hinv : Inv s) (hleg : op.Legal s)
    (hfree : PortFree cfg s op) (hst : s.step cfg op = some s') : Live cfg s' := by
  cases op with
  | insertStore i inst =>
    cases hst
    exact h.insertStore i inst
  | executeStore idx size r =>
    exact h.executeStore hinv hleg.1 (fun e he => (hleg.2 e he).1) hst
  | retire | exitRunahead | tick | cacheGotBlocked =>
    cases hst
    exact h.of_same rfl rfl rfl rfl
  | commitStores youngest =>
    cases hst
    refine h.of_map (f := SQEntry.setCanWB) rfl rfl rfl rfl (fun a => ⟨rfl, rfl, id, ?_, ?_⟩)
      fun j => ?_
    · exact (Option.map_id_apply).symm
    · exact fun _ => ⟨rfl, rfl, rfl⟩
    · cases hget : s.storeQueue.get? j with
      | none =>
        refine .inl ?_
        cases hget' : (s.commitStores youngest).storeQueue.get? j with
        | none => rfl
        | some a =>
          obtain ⟨b, hb, -⟩ := commitStores_get? youngest hget'
          rw [hget] at hb
          cases hb
      | some a => exact get?_commitStores youngest hget
  | enterRunahead =>
    cases hst
    refine h.of_map (f := fun e => if (s.insts e.inst).committed then e else
      e.onRequest .setRunahead) rfl rfl rfl (IndexedQueue.map_head ..) (fun a => ?_)
        fun j => .inr (IndexedQueue.get?_map ..)
    split
    · exact ⟨rfl, rfl, id, (Option.map_id_apply).symm, fun _ => ⟨rfl, rfl, rfl⟩⟩
    · exact ⟨rfl, rfl, .setRunahead, rfl, fun _ => ⟨rfl, rfl, rfl⟩⟩
  | squash n =>
    cases hst
    refine h.of_entries rfl rfl (fun j a ha => ?_) fun j a hin => ?_
    · have hok := h.entry j a (IndexedQueue.get?_of_dropBack ha)
      exact ⟨hok.received_le, hok.answered, hok.started, hok.front⟩
    · have hcan := ((hinv.entry j a hin.get).passed hin.passed).1
      exact ⟨a, IndexedQueue.get?_dropBack hin.get (by simp [hcan]), rfl,
        fun r hr => ⟨r, hr, rfl, rfl⟩⟩
  | recvTimingResp idx => exact h.recvTimingResp hinv (fun e r he hr => hleg e he r hr) hst
  | recvReqRetry env =>
    have h1 : Live cfg { s with cacheBlocked := false } := h.of_same rfl rfl rfl rfl
    rcases recvReqRetry_cases hst with hst | rfl
    · exact writebackBlockedStore_live h1 hinv.cacheReady hst
    · exact h1
  | writebackBlockedStore env => exact writebackBlockedStore_live h hinv hst
  | writebackIter env =>
    obtain ⟨e, goOn, hget, -, hround⟩ := round_of_step hinv hst
    exact hround.live h hinv hget fun hport => hfree hport e hget

end Operations

end LSQUnit
end Runahead
end Gem5
