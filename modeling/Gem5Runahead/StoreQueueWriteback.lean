import Gem5Runahead.StoreQueueInv

/-!
# StoreQueueWriteback

The steps of the store queue in runs in which no round of the writeback loop skips a normal store
for want of a port (`PortFree`): a store that may not be dropped waits in the queue until it is the
one being written.

* `Round.inv`, `step_inv` — a round, and every operation, keeps the invariant.
* `Round.pointer`, `step_pointer` — the pointer stays, or passes the store it is at, which is then
  written if it carries data.
* `step_keeps`, `step_insts` — what stays of a store and of its instruction.
* `waits_until_written` — over a whole run.
* `skips_unwritten` — a round outside `PortFree` passes a store that is not written.
-/

namespace Gem5
namespace Runahead
namespace LSQUnit

variable {cfg : LSQParams} {env : Answers} {s s' t : LSQUnit} {idx : Nat} {e : SQEntry}
  {r r' : LSQRequest} {goOn : Bool}

section Rounds

theorem Inv.startWrite (h : Inv s) (hget : s.storeQueue.get? s.storeWBIt = some e)
    (hreq : e.request = some r) (hr' : Started r r') : Inv (s.startWrite r') := by
  have halike : Alike e { e with committed := true, request := some r' } := by
    refine ⟨rfl, rfl, rfl, rfl, ?_⟩
    rw [hreq]
    exact .some ⟨hr'.numPackets, hr'.sentPackets, Nat.le_of_eq hr'.received.symm,
      fun _ => hr'.built, hr'.isLocalAccess⟩
  exact h.of_alike (QueueAlike.modify hget halike) rfl rfl rfl rfl fun _ => rfl

theorem Inv.emit (h : Inv s) (x : Effect) : Inv (s.emit x) :=
  h.of_alike (.refl _) rfl rfl rfl rfl fun _ => rfl

theorem Inv.unblocked_sent (h : Inv s) (hget : s.storeQueue.get? s.storeWBIt = some e)
    (hblk : s.isStoreBlocked = false) (hreq : e.request = some r) : r.sentPackets = 0 := by
  obtain ⟨-, hahead⟩ := (h.entry _ _ hget).ahead (Nat.le_refl _)
  rcases (hahead r hreq).2 with h0 | ⟨hb, -⟩
  · exact h0
  · rw [hblk] at hb
    cases hb

theorem Round.inv (h : Inv s) (hget : s.storeQueue.get? s.storeWBIt = some e)
    (hcan : e.canWB = true)
    (hfree : s.cachePortAvailable cfg = false → (s.insts e.inst).runahead = true)
    (hround : Round cfg env s e t goOn) : Inv t := by
  have hc := ((h.entry _ _ hget).ahead (Nat.le_refl _)).1
  cases hround with
  | noPort hport hnormal =>
    rw [hfree hport] at hnormal
    cases hnormal
  | wait hwait => exact h
  | empty hblk hsize hco =>
    refine h.completeStore hget hcan hc (fun r hr => ?_) (Nat.lt_succ_self _)
      (.inr ⟨rfl, rfl, hblk⟩) hco
    rw [h.unblocked_sent hget hblk hr]
    exact Nat.zero_le _
  | prefetch hblk hpre => exact h.advance hget hcan hpre
  | @complete r r' x t hblk hdata hreq hr' hord hx hco =>
    have h1 := (h.startWrite hget hreq hr').emit x
    have hsent : r'.sentPackets = 0 := hr'.sentPackets.trans (h.unblocked_sent hget hblk hreq)
    refine h1.completeStore (startWrite_get? hget r') hcan hc (fun r1 hr1 => ?_)
      (Nat.lt_succ_self _) (.inr ⟨rfl, rfl, hblk⟩) hco
    cases hr1
    rw [hsent]
    exact Nat.zero_le _
  | @send r r' t hblk hdata hreq hr' hloc hsend =>
    have h1 := h.startWrite hget hreq hr'
    exact h1.sendAtPointer (startWrite_get? hget r') hcan hdata rfl hr'.built hsend

theorem Inv.writebackBlockedStore (h : Inv s)
    (hst : s.writebackBlockedStore cfg env = some s') : Inv s' := by
  unfold LSQUnit.writebackBlockedStore at hst
  split at hst
  · rename_i hb
    obtain ⟨e, r, hat⟩ := h.blocked hb
    exact h.sendAtPointer hat.get hat.canWB hat.carriesData hat.request hat.built hst
  · cases hst

/-- The store that gets its last answer may write back and lies behind the pointer. -/
theorem Inv.lastResponse (h : Inv s) (hget : s.storeQueue.get? idx = some e)
    (hreq : e.request = some r) (hlt : r.received < r.sentPackets)
    (hlast : r.received + 1 = r.numPackets) :
    e.canWB = true ∧ e.completed = false ∧ idx < s.storeWBIt := by
  have hok := h.entry idx e hget
  refine ⟨?_, ?_, ?_⟩
  · cases hcan : e.canWB with
    | true => rfl
    | false =>
      have h0 := (hok.closed hcan).2 r hreq
      omega
  · cases hc : e.completed with
    | false => rfl
    | true =>
      have hq := hok.quiet hc r hreq
      omega
  · by_contra hle
    have hahead := (hok.ahead (Nat.le_of_not_lt hle)).2 r hreq
    omega

theorem Inv.recvTimingResp (h : Inv s)
    (hleg : ∀ e r, s.storeQueue.get? idx = some e → e.request = some r →
      r.received < r.sentPackets)
    (hst : s.recvTimingResp cfg idx = some s') : Inv s' := by
  obtain ⟨e, r, hget, hreq, hout⟩ := recvTimingResp_cases hst
  have hlt := hleg e r hget hreq
  have hok := h.entry idx e hget
  have hcount : ∀ r, RequestAlike r r.countResponse := fun r =>
    ⟨rfl, rfl, Nat.le_succ _, id, rfl⟩
  have h1 : Inv (s.modifyRequest idx .countResponse) :=
    h.of_alike (QueueAlike.modify hget (Alike.onRequest e hcount)) rfl rfl rfl rfl fun _ => rfl
  rcases hout with ⟨hlast, hco⟩ | ⟨-, rfl⟩
  · obtain ⟨hcan, hc, hpassed⟩ := h.lastResponse hget hreq hlt hlast
    have hget1 := modifyRequest_get?_self hget .countResponse
    refine h1.completeStore hget1 hcan hc (fun r1 hr1 => ?_) hpassed (.inl rfl) hco
    have hr1' : r1 = r.countResponse := by
      simpa [SQEntry.onRequest, hreq] using hr1.symm
    rw [hr1', LSQRequest.countResponse]
    have hbound := hok.bound r hreq
    show r.sentPackets ≤ r.received + 1
    omega
  · exact h1

theorem round_of_step (h : Inv s) (hst : s.step cfg (.writebackIter env) = some s') :
    ∃ e goOn, s.storeQueue.get? s.storeWBIt = some e ∧ e.canWB = true ∧
      Round cfg env s e s' goOn := by
  simp only [step] at hst
  split at hst
  · rename_i hcond
    obtain ⟨⟨t, goOn⟩, hiter, rfl⟩ := Option.map_eq_some_iff.mp hst
    simp only [writebackCond, Bool.and_eq_true] at hcond
    obtain ⟨e, hget, hcan⟩ := (Option.any_eq_true _ _).mp hcond.1.2
    refine ⟨e, goOn, hget, hcan, writebackIter_round hget (fun j a hj ha => ?_) hiter⟩
    exact ((h.entry j a ha).ahead (Nat.le_of_lt hj)).1
  · cases hst

/-- Every operation keeps the invariant. -/
theorem step_inv {op : Op} (h : Inv s) (hleg : op.Legal s) (hfree : PortFree cfg s op)
    (hst : s.step cfg op = some s') : Inv s' := by
  cases op with
  | insertStore i inst =>
    cases hst
    exact h.insertStore hleg.1
  | executeStore idx size r =>
    exact h.executeStore hleg.1 (fun e he => (hleg.2 e he).1) hst
  | retire i =>
    cases hst
    refine h.of_alike (.refl _) rfl rfl rfl rfl fun j => ?_
    simp only [Insts.modify_apply]
    split <;> rfl
  | commitStores youngest =>
    cases hst
    exact h.commitStores youngest
  | enterRunahead =>
    cases hst
    refine h.of_alike (QueueAlike.map _ fun e => ?_) rfl rfl rfl rfl fun j => ?_
    · split
      · exact Alike.refl e
      · exact Alike.onRequest e fun r => ⟨rfl, rfl, Nat.le_refl _, id, rfl⟩
    · simp only [LSQUnit.enterRunahead]
      split <;> rfl
  | exitRunahead =>
    cases hst
    exact h.of_alike (.refl _) rfl rfl rfl rfl fun _ => rfl
  | squash n =>
    cases hst
    exact h.squash n
  | tick =>
    cases hst
    exact h.of_alike (.refl _) rfl rfl rfl rfl fun _ => rfl
  | cacheGotBlocked =>
    cases hst
    exact h.of_alike (.refl _) rfl rfl rfl rfl fun _ => rfl
  | recvReqRetry env =>
    rcases recvReqRetry_cases hst with hst | rfl
    · exact h.cacheReady.writebackBlockedStore hst
    · exact h.cacheReady
  | recvTimingResp idx => exact h.recvTimingResp (fun e r he hr => hleg e he r hr) hst
  | writebackBlockedStore env => exact h.writebackBlockedStore hst
  | writebackIter env =>
    obtain ⟨e, goOn, hget, hcan, hround⟩ := round_of_step h hst
    exact hround.inv h hget hcan fun hport => hfree hport e hget

end Rounds

section Pointer

/-- All packets of the store of instruction `i` at `idx`, with request `r`, are sent, or the store
is completed because it is a store conditional that failed or its local accessor was called. -/
def WrittenAt (s : LSQUnit) (idx i : Nat) (r : LSQRequest) : Prop :=
  (∃ e r', s.storeQueue.get? idx = some e ∧ e.inst = i ∧ e.request = some r' ∧
      r'.sentPackets = r.numPackets) ∨
    (s.insts i).completed = true ∧
      (.storeConditionalFailed i ∈ s.effects ∧ (s.insts i).isStoreConditional = true ∨
        .localAccess i ∈ s.effects ∧ r.isLocalAccess = true)

theorem WrittenAt.congr {i : Nat} (h : s.WrittenAt idx i r) (hn : r'.numPackets = r.numPackets)
    (hl : r'.isLocalAccess = r.isLocalAccess) : s.WrittenAt idx i r' := by
  unfold WrittenAt
  rw [hn, hl]
  exact h

/-- The pointer moves past the store `e` it is at, which is then written if it carries data. -/
structure Passes (s : LSQUnit) (e : SQEntry) (s' : LSQUnit) : Prop where
  get : s.storeQueue.get? s.storeWBIt = some e
  canWB : e.canWB = true
  next : s'.storeWBIt = s.storeWBIt + 1
  written : s.CarriesData e →
    ∃ r, e.request = some r ∧ s'.WrittenAt s.storeWBIt e.inst r

def StaysOrPasses (s s' : LSQUnit) : Prop :=
  s'.storeWBIt = s.storeWBIt ∨ ∃ e, Passes s e s'

theorem sendAtPointer_pointer (hget : s.storeQueue.get? s.storeWBIt = some e)
    (hreq : e.request = some r) (hbuilt : r.built = true) (hlt : r.sentPackets < r.numPackets)
    (hst : s.sendAtPointer cfg env = some s') :
    s'.storeWBIt = s.storeWBIt ∨
      s'.storeWBIt = s.storeWBIt + 1 ∧ s'.WrittenAt s.storeWBIt e.inst r := by
  obtain ⟨k, t, r', hs, hout⟩ := sendAtPointer_cases hget hreq hbuilt hlt hst
  rcases hout with ⟨hsent, -, rfl⟩ | ⟨-, -, rfl⟩
  · refine .inr ⟨by simp [storePostSend, hs.storeWBIt], .inl ?_⟩
    exact ⟨_, r', hs.get?_self hget, rfl, rfl, hsent⟩
  · exact .inl hs.storeWBIt

theorem Round.pointer (h : Inv s) (hget : s.storeQueue.get? s.storeWBIt = some e)
    (hcan : e.canWB = true)
    (hfree : s.cachePortAvailable cfg = false → (s.insts e.inst).runahead = true)
    (hround : Round cfg env s e t goOn) : StaysOrPasses s t := by
  cases hround with
  | noPort hport hnormal =>
    rw [hfree hport] at hnormal
    cases hnormal
  | wait hwait => exact .inl rfl
  | empty hblk hsize hco =>
    exact .inr ⟨e, hget, hcan, hco.storeWBIt, fun hdata => absurd hsize hdata.1⟩
  | prefetch hblk hpre =>
    exact .inr ⟨e, hget, hcan, rfl, fun hdata => absurd hpre hdata.not_prefetches⟩
  | @complete r r' x t hblk hdata hreq hr' hord hx hco =>
    refine .inr ⟨e, hget, hcan, hco.storeWBIt, fun _ => ⟨r, hreq, .inr ⟨?_, ?_⟩⟩⟩
    · rw [hco.insts, Insts.modify_self]
      rfl
    · rw [hco.effects]
      rcases hx with ⟨rfl, hsc⟩ | ⟨rfl, -, hloc⟩
      · refine .inl ⟨List.mem_append_right _ List.mem_cons_self, ?_⟩
        rw [hco.insts, Insts.modify_self]
        exact hsc
      · exact .inr ⟨List.mem_append_right _ List.mem_cons_self, hloc⟩
  | @send r r' t hblk hdata hreq hr' hloc hsend =>
    have h1 := h.startWrite hget hreq hr'
    have hget1 := startWrite_get? hget r'
    have hlt := (((h1.entry _ _ hget1).ahead (Nat.le_refl _)).2 r' rfl).1
    rcases sendAtPointer_pointer hget1 rfl hr'.built hlt hsend with hstay | ⟨hnext, hw⟩
    · exact .inl hstay
    · have hw' := hw.congr hr'.numPackets.symm hr'.isLocalAccess.symm
      exact .inr ⟨e, hget, hcan, hnext, fun _ => ⟨r, hreq, hw'⟩⟩

theorem writebackBlockedStore_pointer (h : Inv s)
    (hst : s.writebackBlockedStore cfg env = some s') : StaysOrPasses s s' := by
  unfold writebackBlockedStore at hst
  split at hst
  · rename_i hb
    obtain ⟨e, r, hat⟩ := h.blocked hb
    have hlt := (((h.entry _ _ hat.get).ahead (Nat.le_refl _)).2 r hat.request).1
    rcases sendAtPointer_pointer hat.get hat.request hat.built hlt hst with hstay | ⟨hnext, hw⟩
    · exact .inl hstay
    · exact .inr ⟨e, hat.get, hat.canWB, hnext, fun _ => ⟨r, hat.request, hw⟩⟩
  · cases hst

/-- In every operation the pointer stays, or passes the store it is at. -/
theorem step_pointer {op : Op} (h : Inv s) (hfree : PortFree cfg s op)
    (hst : s.step cfg op = some s') : StaysOrPasses s s' := by
  cases op with
  | insertStore i inst | retire i | commitStores youngest | enterRunahead | exitRunahead
  | squash n | tick | cacheGotBlocked =>
    cases hst
    exact .inl rfl
  | executeStore idx size r =>
    obtain ⟨-, -, -, rfl⟩ := executeStore_spec hst
    exact .inl rfl
  | recvTimingResp idx =>
    obtain ⟨e, r, -, -, ⟨-, hco⟩ | ⟨-, rfl⟩⟩ := recvTimingResp_cases hst
    · exact .inl hco.storeWBIt
    · exact .inl rfl
  | recvReqRetry env =>
    rcases recvReqRetry_cases hst with hst | rfl
    · rcases writebackBlockedStore_pointer h.cacheReady hst with hstay | ⟨e, hp⟩
      · exact .inl hstay
      · exact .inr ⟨e, hp.get, hp.canWB, hp.next, hp.written⟩
    · exact .inl rfl
  | writebackBlockedStore env => exact writebackBlockedStore_pointer h hst
  | writebackIter env =>
    obtain ⟨e, goOn, hget, hcan, hround⟩ := round_of_step h hst
    exact hround.pointer h hget hcan fun hport => hfree hport e hget

end Pointer

section Keeps

/-- `e'` is the store `e` some steps later. -/
structure Keeps (e e' : SQEntry) : Prop where
  inst : e'.inst = e.inst
  size : e'.size = e.size
  canWB : e.canWB = true → e'.canWB = true
  request : ∀ r, e.request = some r → ∃ r', e'.request = some r' ∧
    r'.numPackets = r.numPackets ∧ r'.isLocalAccess = r.isLocalAccess

theorem Keeps.refl (e : SQEntry) : Keeps e e := ⟨rfl, rfl, id, fun r hr => ⟨r, hr, rfl, rfl⟩⟩

theorem Keeps.trans {e₁ e₂ e₃ : SQEntry} (h : Keeps e₁ e₂) (h' : Keeps e₂ e₃) : Keeps e₁ e₃ := by
  refine ⟨h'.inst.trans h.inst, h'.size.trans h.size, fun hc => h'.canWB (h.canWB hc), ?_⟩
  intro r hr
  obtain ⟨r₂, hr₂, hn₂, hl₂⟩ := h.request r hr
  obtain ⟨r₃, hr₃, hn₃, hl₃⟩ := h'.request r₂ hr₂
  exact ⟨r₃, hr₃, hn₃.trans hn₂, hl₃.trans hl₂⟩

theorem Alike.keeps {e e' : SQEntry} (h : Alike e e') : Keeps e e' := by
  refine ⟨h.inst, h.size, fun hc => h.canWB.trans hc, fun r hr => ?_⟩
  obtain ⟨r', hr', hrr⟩ := h.exists_request hr
  exact ⟨r', hr', hrr.numPackets, hrr.isLocalAccess⟩

theorem QueueAlike.keeps {q q' : IndexedQueue SQEntry} (h : QueueAlike q q')
    (hget : q.get? idx = some e) : ∃ e', q'.get? idx = some e' ∧ Keeps e e' := by
  obtain ⟨e', hget', ha⟩ := h.exists_get? hget
  exact ⟨e', hget', ha.keeps⟩

theorem sendAtPointer_keeps (hat : s.storeQueue.get? s.storeWBIt = some e)
    (hreq : e.request = some r) (hbuilt : r.built = true) (hlt : r.sentPackets < r.numPackets)
    (hst : s.sendAtPointer cfg env = some s') {a : SQEntry}
    (hget : s.storeQueue.get? idx = some a) :
    ∃ a', s'.storeQueue.get? idx = some a' ∧ Keeps a a' := by
  obtain ⟨k, t, r', hs, hout⟩ := sendAtPointer_cases hat hreq hbuilt hlt hst
  have hq : s'.storeQueue = t.storeQueue := by
    rcases hout with ⟨-, -, rfl⟩ | ⟨-, -, rfl⟩ <;> rfl
  rw [hq]
  by_cases hj : idx = s.storeWBIt
  · subst hj
    obtain rfl : e = a := Option.some.inj (hat.symm.trans hget)
    refine ⟨_, hs.get?_self hat, rfl, rfl, id, fun r1 hr1 => ?_⟩
    rw [hreq] at hr1
    cases hr1
    exact ⟨r', rfl, hs.numPackets, hs.isLocalAccess⟩
  · exact ⟨a, (hs.get?_of_ne hj).trans hget, .refl a⟩

/-- The queue may not drop the store: it may write back, or it committed outside runahead. -/
def Held (s : LSQUnit) (e : SQEntry) : Prop :=
  e.canWB = true ∨ (s.insts e.inst).committed = true ∧ (s.insts e.inst).runahead = false

theorem Round.keeps (h : Inv s) (hat : s.storeQueue.get? s.storeWBIt = some e)
    (hround : Round cfg env s e t goOn) {a : SQEntry} (hget : s.storeQueue.get? idx = some a)
    (hle : t.storeWBIt ≤ idx) : ∃ a', t.storeQueue.get? idx = some a' ∧ Keeps a a' := by
  cases hround with
  | noPort | wait | prefetch => exact ⟨a, hget, .refl a⟩
  | empty hblk hsize hco =>
    rw [hco.storeWBIt] at hle
    have hc := ((h.entry idx a hget).ahead (by omega)).1
    refine ⟨a, ?_, .refl a⟩
    rw [hco.queue]
    exact get?_completeAt hget (by omega) hc
  | @complete r r' x t hblk hdata hreq hr' hord hx hco =>
    rw [hco.storeWBIt] at hle
    have hc := ((h.entry idx a hget).ahead (by omega)).1
    have hne : idx ≠ s.storeWBIt := by omega
    refine ⟨a, ?_, .refl a⟩
    rw [hco.queue]
    exact get?_completeAt ((startWrite_get?_of_ne s r' hne).trans hget) hne hc
  | @send r r' t hblk hdata hreq hr' hloc hsend =>
    have h1 := h.startWrite hat hreq hr'
    have hat1 := startWrite_get? hat r'
    have hlt := (((h1.entry _ _ hat1).ahead (Nat.le_refl _)).2 r' rfl).1
    by_cases hj : idx = s.storeWBIt
    · subst hj
      obtain rfl : e = a := Option.some.inj (hat.symm.trans hget)
      obtain ⟨a', ha', hk⟩ := sendAtPointer_keeps hat1 rfl hr'.built hlt hsend hat1
      refine ⟨a', ha', hk.inst, hk.size, hk.canWB, fun r1 hr1 => ?_⟩
      rw [hreq] at hr1
      cases hr1
      obtain ⟨r2, hr2, hn2, hl2⟩ := hk.request r' rfl
      exact ⟨r2, hr2, hn2.trans hr'.numPackets, hl2.trans hr'.isLocalAccess⟩
    · exact sendAtPointer_keeps hat1 rfl hr'.built hlt hsend
        ((startWrite_get?_of_ne s r' hj).trans hget)

theorem writebackBlockedStore_keeps (h : Inv s)
    (hst : s.writebackBlockedStore cfg env = some s') (hget : s.storeQueue.get? idx = some e) :
    ∃ e', s'.storeQueue.get? idx = some e' ∧ Keeps e e' := by
  unfold writebackBlockedStore at hst
  split at hst
  · rename_i hb
    obtain ⟨e, r, hat⟩ := h.blocked hb
    have hlt := (((h.entry _ _ hat.get).ahead (Nat.le_refl _)).2 r hat.request).1
    exact sendAtPointer_keeps hat.get hat.request hat.built hlt hst hget
  · cases hst

/-- A store that may not be dropped stays in the queue until the pointer has passed it. -/
theorem step_keeps {op : Op} (h : Inv s) (hleg : op.Legal s) (hst : s.step cfg op = some s')
    (hget : s.storeQueue.get? idx = some e) (hheld : s.Held e) (hle : s'.storeWBIt ≤ idx) :
    ∃ e', s'.storeQueue.get? idx = some e' ∧ Keeps e e' := by
  cases op with
  | insertStore i inst =>
    cases hst
    have hl := IndexedQueue.lt_of_get? hget
    refine ⟨e, ?_, .refl e⟩
    have hpush := IndexedQueue.get?_pushBack s.storeQueue { inst := i } idx
    rw [if_neg (by omega)] at hpush
    exact hpush.trans hget
  | executeStore j size r =>
    obtain ⟨-, w, -, rfl⟩ := executeStore_spec hst
    have hne : idx ≠ j := by
      rintro rfl
      obtain ⟨hcan, hcom, -⟩ := hleg.2 e hget
      rcases hheld with hc | ⟨hc, -⟩
      · rw [hcan] at hc
        cases hc
      · rw [hcom] at hc
        cases hc
    refine ⟨e, ?_, .refl e⟩
    rw [executed_get?, if_neg hne]
    exact hget
  | retire | exitRunahead | tick | cacheGotBlocked =>
    cases hst
    exact ⟨e, hget, .refl e⟩
  | commitStores youngest =>
    cases hst
    rcases get?_commitStores youngest hget with hk | hk
    · exact ⟨e, hk, .refl e⟩
    · exact ⟨e.setCanWB, hk, rfl, rfl, fun _ => rfl, fun r hr => ⟨r, hr, rfl, rfl⟩⟩
  | enterRunahead =>
    cases hst
    refine QueueAlike.keeps (QueueAlike.map _ fun e => ?_) hget
    split
    · exact Alike.refl e
    · exact Alike.onRequest e fun r => ⟨rfl, rfl, Nat.le_refl _, id, rfl⟩
  | squash n =>
    cases hst
    refine ⟨e, IndexedQueue.get?_dropBack hget ?_, .refl e⟩
    rcases hheld with hc | ⟨hcom, hra⟩
    · simp [hc]
    · have hold := hleg e (IndexedQueue.mem_items hget) hcom hra
      simp [Nat.not_lt.mpr hold]
  | recvTimingResp j =>
    obtain ⟨a, r, ha, hreq, hout⟩ := recvTimingResp_cases hst
    have hcount : ∀ r, RequestAlike r r.countResponse := fun r => ⟨rfl, rfl, Nat.le_succ _, id, rfl⟩
    have halike : QueueAlike s.storeQueue (s.modifyRequest j .countResponse).storeQueue :=
      QueueAlike.modify ha (Alike.onRequest a hcount)
    obtain ⟨e', hget', hk⟩ := halike.exists_get? hget
    rcases hout with ⟨hlast, hco⟩ | ⟨-, rfl⟩
    · have hpassed := (h.lastResponse ha hreq (hleg a ha r hreq) hlast).2.2
      have hwb : s'.storeWBIt = s.storeWBIt := hco.storeWBIt
      have hc := ((h.entry idx e hget).ahead (by omega)).1
      refine ⟨e', ?_, hk.keeps⟩
      rw [hco.queue]
      exact get?_completeAt hget' (by omega) (hk.completed.trans hc)
    · exact ⟨e', hget', hk.keeps⟩
  | recvReqRetry env =>
    rcases recvReqRetry_cases hst with hst | rfl
    · exact writebackBlockedStore_keeps h.cacheReady hst hget
    · exact ⟨e, hget, .refl e⟩
  | writebackBlockedStore env => exact writebackBlockedStore_keeps h hst hget
  | writebackIter env =>
    obtain ⟨a, goOn, hat, -, hround⟩ := round_of_step h hst
    exact hround.keeps h hat hget hle

end Keeps

section Instructions

/-- `y` is the instruction `x` some steps later. -/
structure InstKeeps (x y : DynInst) : Prop where
  isDataPrefetch : y.isDataPrefetch = x.isDataPrefetch
  isStoreConditional : y.isStoreConditional = x.isStoreConditional
  committed : x.committed = true → y.committed = true ∧ y.runahead = x.runahead
  runahead : x.runahead = true → y.runahead = true

theorem InstKeeps.refl (x : DynInst) : InstKeeps x x := ⟨rfl, rfl, fun h => ⟨h, rfl⟩, id⟩

theorem InstKeeps.trans {x y z : DynInst} (h : InstKeeps x y) (h' : InstKeeps y z) :
    InstKeeps x z := by
  refine ⟨h'.isDataPrefetch.trans h.isDataPrefetch,
    h'.isStoreConditional.trans h.isStoreConditional, fun hc => ?_,
    fun hr => h'.runahead (h.runahead hr)⟩
  obtain ⟨hc1, hr1⟩ := h.committed hc
  obtain ⟨hc2, hr2⟩ := h'.committed hc1
  exact ⟨hc2, hr2.trans hr1⟩

theorem InstKeeps.modify (insts : Insts) (i j : Nat) {f : DynInst → DynInst}
    (hf : ∀ x, InstKeeps x (f x)) : InstKeeps (insts j) (insts.modify i f j) := by
  rw [Insts.modify_apply]
  split
  · exact hf _
  · exact .refl _

theorem InstKeeps.setCompleted (x : DynInst) : InstKeeps x x.setCompleted :=
  ⟨rfl, rfl, fun h => ⟨h, rfl⟩, id⟩

theorem sendAtPointer_insts (hat : s.storeQueue.get? s.storeWBIt = some e)
    (hreq : e.request = some r) (hbuilt : r.built = true) (hlt : r.sentPackets < r.numPackets)
    (hst : s.sendAtPointer cfg env = some s') (i : Nat) :
    InstKeeps (s.insts i) (s'.insts i) := by
  obtain ⟨k, t, r', hs, hout⟩ := sendAtPointer_cases hat hreq hbuilt hlt hst
  rcases hout with ⟨-, -, rfl⟩ | ⟨-, -, rfl⟩
  · simp only [storePostSend, hs.insts]
    split
    · exact .refl _
    · exact .modify _ _ _ InstKeeps.setCompleted
  · rw [hs.insts]
    exact .refl _

theorem Round.insts (h : Inv s) (hat : s.storeQueue.get? s.storeWBIt = some e)
    (hround : Round cfg env s e t goOn) (i : Nat) : InstKeeps (s.insts i) (t.insts i) := by
  cases hround with
  | noPort | wait | prefetch => exact .refl _
  | empty hblk hsize hco =>
    rw [hco.insts]
    exact .modify _ _ _ InstKeeps.setCompleted
  | complete hblk hdata hreq hr' hord hx hco =>
    rw [hco.insts]
    exact .modify _ _ _ InstKeeps.setCompleted
  | @send r r' t hblk hdata hreq hr' hloc hsend =>
    have h1 := h.startWrite hat hreq hr'
    have hat1 := startWrite_get? hat r'
    have hlt := (((h1.entry _ _ hat1).ahead (Nat.le_refl _)).2 r' rfl).1
    exact sendAtPointer_insts hat1 rfl hr'.built hlt hsend i

theorem writebackBlockedStore_insts (h : Inv s)
    (hst : s.writebackBlockedStore cfg env = some s') (i : Nat) :
    InstKeeps (s.insts i) (s'.insts i) := by
  unfold writebackBlockedStore at hst
  split at hst
  · rename_i hb
    obtain ⟨e, r, hat⟩ := h.blocked hb
    have hlt := (((h.entry _ _ hat.get).ahead (Nat.le_refl _)).2 r hat.request).1
    exact sendAtPointer_insts hat.get hat.request hat.built hlt hst i
  · cases hst

/-- An instruction that was given out keeps what it is, and its mode once it is committed. -/
theorem step_insts {op : Op} (h : Inv s) (hleg : op.Legal s) (hst : s.step cfg op = some s')
    {i : Nat} (hi : i < s.globalSeqNum) : InstKeeps (s.insts i) (s'.insts i) := by
  cases op with
  | insertStore j inst =>
    cases hst
    have hj : s.globalSeqNum ≤ j := hleg.1
    have hne : i ≠ j := by omega
    simp only [insertStore, Function.update_of_ne hne]
    exact .refl _
  | executeStore j size r =>
    obtain ⟨-, -, -, rfl⟩ := executeStore_spec hst
    exact .refl _
  | retire j =>
    cases hst
    exact .modify _ _ _ fun x => ⟨rfl, rfl, fun _ => ⟨rfl, rfl⟩, id⟩
  | commitStores youngest | exitRunahead | squash n | tick | cacheGotBlocked =>
    cases hst
    exact .refl _
  | enterRunahead =>
    cases hst
    simp only [enterRunahead]
    split
    · exact .refl _
    · rename_i hcom
      exact ⟨rfl, rfl, fun hc => absurd hc hcom, fun _ => rfl⟩
  | recvTimingResp j =>
    obtain ⟨a, r, -, -, ⟨-, hco⟩ | ⟨-, rfl⟩⟩ := recvTimingResp_cases hst
    · rw [hco.insts]
      exact .modify _ _ _ InstKeeps.setCompleted
    · exact .refl _
  | recvReqRetry env =>
    rcases recvReqRetry_cases hst with hst | rfl
    · exact writebackBlockedStore_insts h.cacheReady hst i
    · exact .refl _
  | writebackBlockedStore env => exact writebackBlockedStore_insts h hst i
  | writebackIter env =>
    obtain ⟨a, goOn, hat, -, hround⟩ := round_of_step h hst
    exact hround.insts h hat i

theorem sendAtPointer_globalSeqNum (hat : s.storeQueue.get? s.storeWBIt = some e)
    (hreq : e.request = some r) (hbuilt : r.built = true) (hlt : r.sentPackets < r.numPackets)
    (hst : s.sendAtPointer cfg env = some s') : s'.globalSeqNum = s.globalSeqNum := by
  obtain ⟨k, t, r', hs, hout⟩ := sendAtPointer_cases hat hreq hbuilt hlt hst
  rcases hout with ⟨-, -, rfl⟩ | ⟨-, -, rfl⟩ <;> exact hs.globalSeqNum

theorem writebackBlockedStore_globalSeqNum (h : Inv s)
    (hst : s.writebackBlockedStore cfg env = some s') : s'.globalSeqNum = s.globalSeqNum := by
  unfold writebackBlockedStore at hst
  split at hst
  · rename_i hb
    obtain ⟨e, r, hat⟩ := h.blocked hb
    have hlt := (((h.entry _ _ hat.get).ahead (Nat.le_refl _)).2 r hat.request).1
    exact sendAtPointer_globalSeqNum hat.get hat.request hat.built hlt hst
  · cases hst

theorem Round.globalSeqNum (h : Inv s) (hat : s.storeQueue.get? s.storeWBIt = some e)
    (hround : Round cfg env s e t goOn) : t.globalSeqNum = s.globalSeqNum := by
  cases hround with
  | noPort | wait | prefetch => rfl
  | empty hblk hsize hco => exact hco.globalSeqNum
  | complete hblk hdata hreq hr' hord hx hco => exact hco.globalSeqNum
  | @send r r' t hblk hdata hreq hr' hloc hsend =>
    have h1 := h.startWrite hat hreq hr'
    have hat1 := startWrite_get? hat r'
    have hlt := (((h1.entry _ _ hat1).ahead (Nat.le_refl _)).2 r' rfl).1
    exact sendAtPointer_globalSeqNum (s := s.startWrite r') hat1 rfl hr'.built hlt hsend

theorem step_globalSeqNum {op : Op} (h : Inv s) (hleg : op.Legal s)
    (hst : s.step cfg op = some s') : s.globalSeqNum ≤ s'.globalSeqNum := by
  cases op with
  | insertStore i inst =>
    cases hst
    exact Nat.le_succ_of_le hleg.1
  | executeStore j size r =>
    obtain ⟨-, -, -, rfl⟩ := executeStore_spec hst
    exact Nat.le_refl _
  | retire | commitStores | enterRunahead | exitRunahead | squash | tick | cacheGotBlocked =>
    cases hst
    exact Nat.le_refl _
  | recvTimingResp j =>
    obtain ⟨a, r, -, -, ⟨-, hco⟩ | ⟨-, rfl⟩⟩ := recvTimingResp_cases hst
    · exact Nat.le_of_eq hco.globalSeqNum.symm
    · exact Nat.le_refl _
  | recvReqRetry env =>
    rcases recvReqRetry_cases hst with hst | rfl
    · exact Nat.le_of_eq (writebackBlockedStore_globalSeqNum h.cacheReady hst).symm
    · exact Nat.le_refl _
  | writebackBlockedStore env => exact Nat.le_of_eq (writebackBlockedStore_globalSeqNum h hst).symm
  | writebackIter env =>
    obtain ⟨a, goOn, hat, -, hround⟩ := round_of_step h hst
    exact Nat.le_of_eq (hround.globalSeqNum h hat).symm

theorem Keeps.carriesData {e e' : SQEntry} (hk : Keeps e e')
    (hi : InstKeeps (s.insts e.inst) (s'.insts e.inst)) :
    s'.CarriesData e' ↔ s.CarriesData e := by
  simp [CarriesData, hk.size, hk.inst, hi.isDataPrefetch]

/-- A store that may not be dropped still may not be. -/
theorem Held.keeps {e e' : SQEntry} (hheld : s.Held e) (hk : Keeps e e')
    (hi : InstKeeps (s.insts e.inst) (s'.insts e.inst)) : s'.Held e' := by
  rcases hheld with hcan | ⟨hcom, hra⟩
  · exact .inl (hk.canWB hcan)
  · obtain ⟨hcom', hra'⟩ := hi.committed hcom
    rw [← hk.inst] at hcom' hra'
    exact .inr ⟨hcom', by rw [hra', hk.inst, hra]⟩

end Instructions

section Runs

variable {l : List Op} {G : LSQUnit → Op → Prop}

theorem Inv.run (hG : ∀ s op, G s op → PortFree cfg s op) (h : Inv s)
    (hrun : ((system cfg).guard G).Run s l s') : Inv s' := by
  induction hrun with
  | nil => exact h
  | @snoc t u l op _ hst ih =>
    obtain ⟨⟨hleg, hst⟩, hg⟩ := hst
    exact step_inv ih hleg (hG t op hg) hst

theorem Inv.run_insts (hG : ∀ s op, G s op → PortFree cfg s op) (h : Inv s)
    (hrun : ((system cfg).guard G).Run s l s') {i : Nat} (hi : i < s.globalSeqNum) :
    InstKeeps (s.insts i) (s'.insts i) ∧ i < s'.globalSeqNum := by
  induction hrun with
  | nil => exact ⟨.refl _, hi⟩
  | snoc hrun hst ih =>
    have hinv := h.run hG hrun
    obtain ⟨⟨hleg, hst⟩, -⟩ := hst
    exact ⟨ih.1.trans (step_insts hinv hleg hst ih.2),
      Nat.lt_of_lt_of_le ih.2 (step_globalSeqNum hinv hleg hst)⟩

/-- In the run from `s` to `s'` the store `e` at `idx` was the one being written: a step moved the
pointer past it, and left it written. -/
def WrittenBetween (cfg : LSQParams) (G : LSQUnit → Op → Prop) (s s' : LSQUnit) (idx : Nat)
    (e : SQEntry) : Prop :=
  ∃ l₁ s₁ op s₂ l₂ e₁ r, ((system cfg).guard G).Run s l₁ s₁ ∧
    ((system cfg).guard G).step s₁ op s₂ ∧ ((system cfg).guard G).Run s₂ l₂ s' ∧
    s₁.storeWBIt = idx ∧ Keeps e e₁ ∧ Passes s₁ e₁ s₂ ∧
    e₁.request = some r ∧ s₂.WrittenAt idx e.inst r

theorem WrittenBetween.snoc {op : Op} (h : WrittenBetween cfg G s t idx e)
    (hst : ((system cfg).guard G).step t op s') : WrittenBetween cfg G s s' idx e := by
  obtain ⟨l₁, s₁, op₁, s₂, l₂, e₁, r, h1, h2, h3, h4⟩ := h
  exact ⟨l₁, s₁, op₁, s₂, _, e₁, r, h1, h2, .snoc h3 hst, h4⟩

/-- A store with data that may not be dropped waits in the queue until it is written. -/
theorem Inv.waits_until_written (hG : ∀ s op, G s op → PortFree cfg s op) (h : Inv s)
    (hrun : ((system cfg).guard G).Run s l s')
    (hget : s.storeQueue.get? idx = some e) (hheld : s.Held e) (hdata : s.CarriesData e)
    (hle : s.storeWBIt ≤ idx) :
    (s'.storeWBIt ≤ idx ∧ ∃ e', s'.storeQueue.get? idx = some e' ∧ Keeps e e') ∨
      WrittenBetween cfg G s s' idx e := by
  have hbelow : e.inst < s.globalSeqNum := h.below idx e hget
  induction hrun with
  | nil => exact .inl ⟨hle, e, hget, .refl e⟩
  | @snoc t u l op hrun hst ih =>
    rcases ih with ⟨hwait, e₁, hget₁, hk₁⟩ | hdone
    · obtain ⟨hi, -⟩ := h.run_insts hG hrun hbelow
      have hinv : Inv t := h.run hG hrun
      obtain ⟨⟨hleg, hst'⟩, hg⟩ := hst
      by_cases hle' : u.storeWBIt ≤ idx
      · obtain ⟨e₂, hget₂, hk₂⟩ := step_keeps hinv hleg hst' hget₁ (hheld.keeps hk₁ hi) hle'
        exact .inl ⟨hle', e₂, hget₂, hk₁.trans hk₂⟩
      · rcases step_pointer hinv (hG t op hg) hst' with hstay | ⟨e₂, hpass⟩
        · omega
        · have hnext := hpass.next
          obtain rfl : idx = t.storeWBIt := by omega
          obtain rfl : e₁ = e₂ := Option.some.inj (hget₁.symm.trans hpass.get)
          obtain ⟨r, hreq, hw⟩ := hpass.written ((hk₁.carriesData hi).mpr hdata)
          rw [hk₁.inst] at hw
          exact .inr ⟨l, t, op, u, [], e₁, r, hrun, ⟨⟨hleg, hst'⟩, hg⟩, .nil, rfl, hk₁, hpass,
            hreq, hw⟩
    · exact .inr (hdone.snoc hst)

/-- Runs the operations, as long as they are legal and meet the condition `G`. -/
def exec (cfg : LSQParams) (G : LSQUnit → Op → Prop) [∀ s op, Decidable (G s op)] (insts : Insts)
    (ops : List Op) : Option LSQUnit :=
  ops.foldlM (fun s op => if op.Legal s ∧ G s op then s.step cfg op else none) (init insts)

theorem exec_reaches {G : LSQUnit → Op → Prop} [∀ s op, Decidable (G s op)] {insts : Insts}
    (h : exec cfg G insts l = some s) : ((system cfg).guard G).Reaches l s := by
  refine ⟨init insts, ⟨insts, rfl⟩, Transition.System.Run.of_foldlM (fun s op t hst => ?_) h⟩
  by_cases hok : op.Legal s ∧ G s op
  · rw [if_pos hok] at hst
    exact ⟨⟨hok.1, hst⟩, hok.2⟩
  · rw [if_neg hok] at hst
    cases hst

/-- A D-cache that takes every packet. -/
def accepting : Answers := ⟨fun _ _ => true, fun _ => true⟩

/-- A round outside `PortFree` passes a store that is neither sent nor completed. -/
theorem skips_unwritten (h : Inv s) (hst : s.step cfg (.writebackIter env) = some s')
    (hskip : ¬ PortFree cfg s (.writebackIter env)) :
    ∃ e, s'.storeQueue.get? s.storeWBIt = some e ∧ s.storeWBIt < s'.storeWBIt ∧
      e.canWB = true ∧ ¬ e.Written := by
  simp only [PortFree, not_forall] at hskip
  obtain ⟨hport, e, hget, hra⟩ := hskip
  have hget : s.storeQueue.get? s.storeWBIt = some e := hget
  have hra' : (s.insts e.inst).runahead = false := by simpa using hra
  obtain ⟨hc, hahead⟩ := (h.entry _ _ hget).ahead (Nat.le_refl _)
  obtain ⟨a, -, hget', hcan, -⟩ := round_of_step h hst
  obtain rfl : e = a := Option.some.inj (hget.symm.trans hget')
  have hadv : s' = s.advance := by
    simp only [step] at hst
    split at hst
    · simp [writebackIter, hget, hport, hra'] at hst
      exact hst.symm
    · cases hst
  subst hadv
  refine ⟨e, hget, Nat.lt_succ_self _, hcan, ?_⟩
  rintro (hcomp | ⟨r, hreq, hsent⟩)
  · rw [hc] at hcomp
    cases hcomp
  · have hlt := (hahead r hreq).1
    omega

end Runs

end LSQUnit
end Runahead
end Gem5
