import Gem5Runahead.StoreQueue

/-!
# StoreQueueSend

What the calls inside the writeback loop do to the store they are about: one lemma for each
function, so that the proofs about runs never unfold one.

* `Sends` — `k` packets of the store at `idx` leave the unit, and nothing else changes but the
  ports, the blocked flags and the store's request.
* `sendAtPointer_cases` — the store at the pointer is sent whole and passed, or it blocks.
* `Round` — the outcomes of one round of the writeback loop (`writebackIter_round`).
-/

namespace Gem5
namespace Runahead

/-- The effect of sending packet `k` of a store with request `r`. -/
def LSQRequest.packetEffect (r : LSQRequest) (inst k : Nat) : Effect :=
  if r.runahead then .rcacheWrite inst k else .dcacheWrite inst k

namespace LSQUnit

variable {cfg : LSQParams} {env : Answers} {s s' t : LSQUnit} {idx k n : Nat} {e : SQEntry}
  {r r' r'' : LSQRequest}

theorem modifyEntry_get? (s : LSQUnit) (idx j : Nat) (f : SQEntry → SQEntry) :
    (s.modifyEntry idx f).storeQueue.get? j =
      if j = idx then (s.storeQueue.get? j).map f else s.storeQueue.get? j :=
  s.storeQueue.get?_modify idx j f

structure Sends (s : LSQUnit) (idx : Nat) (e : SQEntry) (r : LSQRequest) (k : Nat)
    (s' : LSQUnit) (r' : LSQRequest) : Prop where
  request : r' = { r with sent := r'.sent, sentPackets := r.sentPackets + k }
  queue : s'.storeQueue = s.storeQueue.modify idx fun e => { e with request := some r' }
  effects : s'.effects = s.effects ++ (List.range' r.sentPackets k).map (r.packetEffect e.inst)
  insts : s'.insts = s.insts
  storeWBIt : s'.storeWBIt = s.storeWBIt
  storesToWB : s'.storesToWB = s.storesToWB
  storeInFlight : s'.storeInFlight = s.storeInFlight
  inRunahead : s'.inRunahead = s.inRunahead
  globalSeqNum : s'.globalSeqNum = s.globalSeqNum

section Sends

theorem Sends.sentPackets (h : Sends s idx e r k s' r') :
    r'.sentPackets = r.sentPackets + k := by rw [h.request]

theorem Sends.numPackets (h : Sends s idx e r k s' r') : r'.numPackets = r.numPackets := by
  rw [h.request]; rfl

theorem Sends.received (h : Sends s idx e r k s' r') : r'.received = r.received := by
  rw [h.request]

theorem Sends.built (h : Sends s idx e r k s' r') : r'.built = r.built := by rw [h.request]

theorem Sends.isLocalAccess (h : Sends s idx e r k s' r') :
    r'.isLocalAccess = r.isLocalAccess := by rw [h.request]

theorem Sends.runahead (h : Sends s idx e r k s' r') : r'.runahead = r.runahead := by
  rw [h.request]

theorem Sends.get?_self (h : Sends s idx e r k s' r') (hget : s.storeQueue.get? idx = some e) :
    s'.storeQueue.get? idx = some { e with request := some r' } := by
  rw [h.queue, IndexedQueue.get?_modify, if_pos rfl, hget]
  rfl

theorem Sends.get?_of_ne (h : Sends s idx e r k s' r') {j : Nat} (hj : j ≠ idx) :
    s'.storeQueue.get? j = s.storeQueue.get? j := by
  rw [h.queue, IndexedQueue.get?_modify, if_neg hj]

theorem Sends.trans (h : Sends s idx e r k t r')
    (h' : Sends t idx { e with request := some r' } r' n s' r'') :
    Sends s idx e r (k + n) s' r'' := by
  refine ⟨?_, ?_, ?_, h'.insts.trans h.insts, h'.storeWBIt.trans h.storeWBIt,
    h'.storesToWB.trans h.storesToWB, h'.storeInFlight.trans h.storeInFlight,
    h'.inRunahead.trans h.inRunahead, h'.globalSeqNum.trans h.globalSeqNum⟩
  · rw [h'.request, h.request]
    simp [Nat.add_assoc]
  · rw [h'.queue, h.queue, IndexedQueue.modify_modify]
  · have heff : r'.packetEffect e.inst = r.packetEffect e.inst := by
      funext k
      simp only [LSQRequest.packetEffect, h.runahead]
    rw [h'.effects, h.effects, heff, h.sentPackets, List.append_assoc, ← List.map_append,
      List.range'_append_1]

end Sends

theorem trySendPacket_cases (hget : s.storeQueue.get? idx = some e) (hreq : e.request = some r)
    (h : s.trySendPacket cfg env idx = some (s', n)) :
    ∃ r', (n = 1 ∧ Sends s idx e r 1 s' r' ∧ r'.sent = true ∧ s'.isStoreBlocked = false) ∨
      (n = 0 ∧ Sends s idx e r 0 s' r' ∧ r'.sent = false ∧ s'.isStoreBlocked = true ∧
        r.runahead = false) := by
  have hmod : ∀ f : LSQRequest → LSQRequest,
      s.storeQueue.modify idx (fun e => e.onRequest f) =
        s.storeQueue.modify idx fun e => { e with request := some (f r) } := by
    intro f
    refine s.storeQueue.modify_congr fun a ha => ?_
    rw [hget] at ha
    cases ha
    simp [SQEntry.onRequest, hreq]
  simp only [trySendPacket, hget, hreq, Option.bind_eq_bind, Option.bind_some] at h
  split at h
  · rename_i hra
    split at h
    · cases h
    · cases h
      refine ⟨r.countPacket, .inl ⟨rfl, ⟨rfl, hmod _, ?_, rfl, rfl, rfl, rfl, rfl, rfl⟩, rfl, rfl⟩⟩
      simp [LSQRequest.packetEffect, hra, modifyRequest, modifyEntry, emit]
  · rename_i hra
    split at h
    · split at h
      · cases h
        refine ⟨r.countPacket, .inl ⟨rfl, ⟨rfl, hmod _, ?_, rfl, rfl, rfl, rfl, rfl, rfl⟩, rfl, rfl⟩⟩
        simp [LSQRequest.packetEffect, hra, modifyRequest, modifyEntry, emit]
      · split at h
        · cases h
        · cases h
          exact ⟨r.packetNotSent, .inr ⟨rfl,
            ⟨rfl, hmod _, by simp [modifyRequest, modifyEntry], rfl, rfl, rfl, rfl, rfl, rfl⟩, rfl, rfl,
            (Bool.not_eq_true _).mp hra⟩⟩
    · split at h
      · cases h
      · cases h
        exact ⟨r.packetNotSent, .inr ⟨rfl,
          ⟨rfl, hmod _, by simp [modifyRequest, modifyEntry], rfl, rfl, rfl, rfl, rfl, rfl⟩, rfl, rfl,
          (Bool.not_eq_true _).mp hra⟩⟩

/-- Either all packets are sent, or one is refused and the store, a normal one, blocks. -/
def Outcome (n k : Nat) (s' : LSQUnit) (r' : LSQRequest) : Prop :=
  (k = n ∧ r'.sent = true ∧ s'.isStoreBlocked = false) ∨
    (k < n ∧ r'.sent = false ∧ s'.isStoreBlocked = true ∧ r'.runahead = false)

theorem sendPackets_spec (hget : s.storeQueue.get? idx = some e) (hreq : e.request = some r)
    (hn : 0 < n) (h : sendPackets cfg env idx n s = some s') :
    ∃ k r', Sends s idx e r k s' r' ∧ Outcome n k s' r' ∧
      (k = 0 → ∃ u, s.trySendPacket cfg env idx = some (u, 0)) := by
  induction n generalizing s e r with
  | zero => exact absurd hn (Nat.lt_irrefl 0)
  | succ n ih =>
    simp only [sendPackets, Option.bind_eq_bind, Option.bind_eq_some_iff] at h
    obtain ⟨⟨t, m⟩, htry, hrest⟩ := h
    obtain ⟨r1, hcases⟩ := trySendPacket_cases hget hreq htry
    rcases hcases with ⟨rfl, hs, hsent, hblk⟩ | ⟨rfl, hs, hsent, hblk, hra⟩
    · simp only [Nat.one_ne_zero, if_false] at hrest
      by_cases hn0 : n = 0
      · subst hn0
        cases hrest
        exact ⟨1, r1, hs, .inl ⟨rfl, hsent, hblk⟩, fun h0 => absurd h0 Nat.one_ne_zero⟩
      · obtain ⟨k, r'', hs', hout, -⟩ := ih (hs.get?_self hget) rfl (by omega) hrest
        refine ⟨1 + k, r'', hs.trans hs', ?_, fun h0 => by omega⟩
        rcases hout with ⟨hk, hsent', hblk'⟩ | ⟨hk, hsent', hblk'⟩
        · exact .inl ⟨by omega, hsent', hblk'⟩
        · exact .inr ⟨by omega, hsent', hblk'⟩
    · cases hrest
      refine ⟨0, r1, hs, .inr ⟨Nat.succ_pos n, hsent, hblk, ?_⟩, fun _ => ⟨t, htry⟩⟩
      rw [hs.runahead, hra]

theorem sendPacketToCache_spec (hget : s.storeQueue.get? idx = some e)
    (hreq : e.request = some r) (hbuilt : r.built = true) (hlt : r.sentPackets < r.numPackets)
    (h : s.sendPacketToCache cfg env idx = some s') :
    ∃ k r', Sends s idx e r k s' r' ∧ Outcome (r.numPackets - r.sentPackets) k s' r' ∧
      (k = 0 → ∃ u, s.trySendPacket cfg env idx = some (u, 0)) := by
  simp only [sendPacketToCache, hget, hreq, Option.bind_eq_bind, Option.bind_some] at h
  cases hf : r.fragments with
  | none =>
    simp only [hf] at h
    have hnum : r.numPackets = 1 := by simp [LSQRequest.numPackets, hf]
    have hone : r.numPackets - r.sentPackets = 1 := by omega
    split at h
    · rw [hone]
      exact sendPackets_spec hget hreq Nat.one_pos h
    · cases h
  | some m =>
    have hnum : r.numPackets = m := by simp [LSQRequest.numPackets, hf]
    simp only [hf, hbuilt, if_true] at h
    rw [hnum] at hlt ⊢
    exact sendPackets_spec hget hreq (Nat.sub_pos_of_lt hlt) h

/-- The store at the pointer is sent whole and passed, or it is a normal one and blocks. No packet
is sent only if the first one is refused. -/
theorem sendAtPointer_outcome (hget : s.storeQueue.get? s.storeWBIt = some e)
    (hreq : e.request = some r) (hbuilt : r.built = true) (hlt : r.sentPackets < r.numPackets)
    (h : s.sendAtPointer cfg env = some s') :
    ∃ k t r', Sends s s.storeWBIt e r k t r' ∧
      (k = 0 → ∃ u, s.trySendPacket cfg env s.storeWBIt = some (u, 0)) ∧
      ((r'.sentPackets = r.numPackets ∧ t.isStoreBlocked = false ∧
          s' = t.storePostSend cfg { e with request := some r' }) ∨
        (r'.sentPackets < r.numPackets ∧ t.isStoreBlocked = true ∧ r.runahead = false ∧
          s' = t)) := by
  simp only [sendAtPointer, Option.bind_eq_bind, Option.bind_eq_some_iff] at h
  obtain ⟨t, ht, e', he', r1, hr1, heq⟩ := h
  obtain ⟨k, r', hs, hout, hnone⟩ := sendPacketToCache_spec hget hreq hbuilt hlt ht
  have hself := hs.get?_self hget
  rw [hs.storeWBIt, hself] at he'
  cases he'
  obtain rfl : r' = r1 := Option.some.inj hr1
  refine ⟨k, t, r', hs, hnone, ?_⟩
  have hk := hs.sentPackets
  rcases hout with ⟨hkn, hsent, hblk⟩ | ⟨hkn, hsent, hblk, hra⟩
  · rw [hsent] at heq
    cases heq
    exact .inl ⟨by omega, hblk, rfl⟩
  · rw [hsent] at heq
    cases heq
    exact .inr ⟨by omega, hblk, hs.runahead.symm.trans hra, rfl⟩

/-- The store at the pointer is sent whole and passed, or it blocks and the pointer stays. -/
theorem sendAtPointer_cases (hget : s.storeQueue.get? s.storeWBIt = some e)
    (hreq : e.request = some r) (hbuilt : r.built = true) (hlt : r.sentPackets < r.numPackets)
    (h : s.sendAtPointer cfg env = some s') :
    ∃ k t r', Sends s s.storeWBIt e r k t r' ∧
      ((r'.sentPackets = r.numPackets ∧ t.isStoreBlocked = false ∧
          s' = t.storePostSend cfg { e with request := some r' }) ∨
        (r'.sentPackets < r.numPackets ∧ t.isStoreBlocked = true ∧ s' = t)) := by
  obtain ⟨k, t, r', hs, -, hout⟩ := sendAtPointer_outcome hget hreq hbuilt hlt h
  exact ⟨k, t, r', hs, hout.imp_right fun ⟨hlt', hblk, _, heq⟩ => ⟨hlt', hblk, heq⟩⟩

section Execute

/-- The store at `idx` has executed; `w` tells whether it may write back at once. -/
def executed (s : LSQUnit) (idx : Nat) (size : StoreSize) (r : LSQRequest) (w : Bool) : LSQUnit :=
  { s with
    storeQueue := s.storeQueue.modify idx fun e =>
      { e with request := some r, size := size, canWB := e.canWB || w }
    storesToWB := s.storesToWB + w.toNat }

theorem executed_get? (s : LSQUnit) (idx : Nat) (size : StoreSize) (r : LSQRequest) (w : Bool)
    (j : Nat) : (s.executed idx size r w).storeQueue.get? j =
      if j = idx then (s.storeQueue.get? j).map fun e =>
        { e with request := some r, size := size, canWB := e.canWB || w }
      else s.storeQueue.get? j :=
  s.storeQueue.get?_modify idx j _

theorem executeStore_spec {size : StoreSize} (h : s.executeStore idx size r = some s') :
    ∃ e w, s.storeQueue.get? idx = some e ∧ s' = s.executed idx size r w := by
  simp only [executeStore, Option.bind_eq_bind, Option.bind_eq_some_iff] at h
  obtain ⟨e, hget, h⟩ := h
  split at h
  · cases h
    refine ⟨e, true, hget, ?_⟩
    simp [executed, modifyEntry, IndexedQueue.modify_modify, SQEntry.setCanWB]
  · cases h
    refine ⟨e, false, hget, ?_⟩
    simp [executed, modifyEntry]

end Execute

section Complete

variable {q : IndexedQueue SQEntry} {j : Nat} {a : SQEntry}

@[simp] theorem completeAt_endIdx (q : IndexedQueue SQEntry) (idx : Nat) :
    (completeAt q idx).endIdx = q.endIdx := by
  unfold completeAt
  dsimp only
  split <;> simp

theorem get?_of_completeAt (h : (completeAt q idx).get? j = some a) :
    ∃ b, q.get? j = some b ∧ a = if j = idx then b.setCompleted else b := by
  have hmod : (q.modify idx SQEntry.setCompleted).get? j = some a := by
    unfold completeAt at h
    dsimp only at h
    split at h
    · exact IndexedQueue.get?_of_dropFront h
    · exact h
  rw [IndexedQueue.get?_modify] at hmod
  by_cases hj : j = idx
  · rw [if_pos hj] at hmod
    obtain ⟨b, hb, rfl⟩ := Option.map_eq_some_iff.mp hmod
    exact ⟨b, hb, by rw [if_pos hj]⟩
  · rw [if_neg hj] at hmod
    exact ⟨a, hmod, by rw [if_neg hj]⟩

/-- An entry that is not completed stays. -/
theorem get?_completeAt (h : q.get? j = some a) (hj : j ≠ idx) (ha : a.completed = false) :
    (completeAt q idx).get? j = some a := by
  have hmod : (q.modify idx SQEntry.setCompleted).get? j = some a := by
    rw [IndexedQueue.get?_modify, if_neg hj]
    exact h
  unfold completeAt
  dsimp only
  split
  · exact IndexedQueue.get?_dropFront hmod ha
  · exact hmod

/-- The front is not completed afterwards, as a completed front leaves the queue. -/
theorem completeAt_front (hfront : idx ≠ q.head → ∀ b, q.get? q.head = some b → b.completed = false)
    (h : (completeAt q idx).get? (completeAt q idx).head = some a) : a.completed = false := by
  unfold completeAt at h
  dsimp only at h
  split at h
  · exact IndexedQueue.dropFront_front (p := SQEntry.completed) h
  · rename_i hne
    rw [IndexedQueue.modify_head] at hne h
    rw [IndexedQueue.get?_modify, if_neg (Ne.symm hne)] at h
    exact hfront hne a h

theorem completeAt_head_le (hh : q.head ≤ j) (hj : j ≤ q.endIdx) (hne : j ≠ idx)
    (h : ∀ a, q.get? j = some a → a.completed = false) : (completeAt q idx).head ≤ j := by
  unfold completeAt
  dsimp only
  split
  · refine IndexedQueue.dropFront_head_le (by simpa using hh) (by simpa using hj) ?_
    intro a ha
    rw [IndexedQueue.get?_modify, if_neg hne] at ha
    exact h a ha
  · simpa using hh

/-- Completing a store that may write back takes one off the count. -/
theorem count_completeAt (h : q.get? idx = some a) (hwb : a.canWB = true)
    (hc : a.completed = false) :
    (completeAt q idx).count SQEntry.toWB + 1 = q.count SQEntry.toWB := by
  have hmod := IndexedQueue.count_modify (p := SQEntry.toWB) h SQEntry.setCompleted
  have h1 : a.toWB = true := by simp [SQEntry.toWB, hwb, hc]
  have h2 : a.setCompleted.toWB = false := by simp [SQEntry.toWB, SQEntry.setCompleted]
  rw [h1, h2] at hmod
  have hdrop : (completeAt q idx).count SQEntry.toWB =
      (q.modify idx SQEntry.setCompleted).count SQEntry.toWB := by
    unfold completeAt
    dsimp only
    split
    · exact IndexedQueue.count_dropFront fun b hb => by simp [SQEntry.toWB, hb]
    · rfl
  rw [hdrop]
  exact hmod

/-- The store `e` at `idx` is completed, and the pointer is left at `wb`. -/
structure Completes (cfg : LSQParams) (s : LSQUnit) (idx : Nat) (e : SQEntry) (wb : Nat)
    (s' : LSQUnit) : Prop where
  queue : s'.storeQueue = completeAt s.storeQueue idx
  insts : s'.insts = s.insts.modify e.inst DynInst.setCompleted
  storeWBIt : s'.storeWBIt = wb
  storesToWB : s'.storesToWB = s.storesToWB - 1
  isStoreBlocked : s'.isStoreBlocked = s.isStoreBlocked
  storeInFlight : s'.storeInFlight = (s.storeInFlight && !cfg.needsTSO)
  usedStorePorts : s'.usedStorePorts = s.usedStorePorts
  effects : s'.effects = s.effects
  inRunahead : s'.inRunahead = s.inRunahead
  globalSeqNum : s'.globalSeqNum = s.globalSeqNum

theorem completeStore_spec (hget : s.storeQueue.get? idx = some e)
    (h : s.completeStore cfg idx = some s') : Completes cfg s idx e s.storeWBIt s' := by
  simp only [completeStore, hget, Option.bind_eq_bind, Option.bind_some] at h
  cases h
  exact ⟨rfl, rfl, rfl, rfl, rfl, rfl, rfl, rfl, rfl, rfl⟩

theorem modifyRequest_get?_self (hget : s.storeQueue.get? idx = some e)
    (f : LSQRequest → LSQRequest) :
    (s.modifyRequest idx f).storeQueue.get? idx = some (e.onRequest f) := by
  rw [modifyRequest, modifyEntry_get?, if_pos rfl, hget]
  rfl

/-- An answer is counted, and the last one completes the store. -/
theorem recvTimingResp_cases (h : s.recvTimingResp cfg idx = some s') :
    ∃ e r, s.storeQueue.get? idx = some e ∧ e.request = some r ∧
      (r.received + 1 = r.numPackets ∧
          Completes cfg (s.modifyRequest idx .countResponse) idx (e.onRequest .countResponse)
            s.storeWBIt s' ∨
        r.received + 1 ≠ r.numPackets ∧ s' = s.modifyRequest idx .countResponse) := by
  simp only [recvTimingResp, Option.bind_eq_bind, Option.bind_eq_some_iff] at h
  obtain ⟨e, hget, r, hreq, h⟩ := h
  refine ⟨e, r, hget, hreq, ?_⟩
  split at h
  · rename_i hlast
    exact .inl ⟨hlast, completeStore_spec (modifyRequest_get?_self hget _) h⟩
  · rename_i hmore
    cases h
    exact .inr ⟨hmore, rfl⟩

/-- The cache is ready again, and a blocked store goes on. -/
theorem recvReqRetry_cases (h : s.recvReqRetry cfg env = some s') :
    { s with cacheBlocked := false }.writebackBlockedStore cfg env = some s' ∨
      s' = { s with cacheBlocked := false } := by
  simp only [recvReqRetry] at h
  split at h
  · exact .inl h
  · cases h
    exact .inr rfl

theorem Completes.advance {wb : Nat} (h : Completes cfg s idx e wb s') :
    Completes cfg s idx e (wb + 1) s'.advance :=
  ⟨h.queue, h.insts, by simp [LSQUnit.advance, h.storeWBIt], h.storesToWB, h.isStoreBlocked,
    h.storeInFlight, h.usedStorePorts, h.effects, h.inRunahead, h.globalSeqNum⟩

end Complete

section Round

/-- The store has data to write: it is neither empty nor a prefetch. -/
def CarriesData (s : LSQUnit) (e : SQEntry) : Prop :=
  e.size ≠ 0 ∧ (s.insts e.inst).isDataPrefetch = false

instance (s : LSQUnit) (e : SQEntry) : Decidable (s.CarriesData e) :=
  inferInstanceAs (Decidable (_ ∧ _))

/-- The store is a data prefetch with an address: the loop passes it and never completes it. -/
def Prefetches (s : LSQUnit) (e : SQEntry) : Prop :=
  e.size ≠ 0 ∧ (s.insts e.inst).isDataPrefetch = true

instance (s : LSQUnit) (e : SQEntry) : Decidable (s.Prefetches e) :=
  inferInstanceAs (Decidable (_ ∧ _))

theorem CarriesData.not_prefetches (h : s.CarriesData e) : ¬ s.Prefetches e := by
  rintro ⟨-, hpre⟩
  rw [h.2] at hpre
  cases hpre

/-- `r'` is `r` with its packets built. -/
def Started (r r' : LSQRequest) : Prop := r' = { r with built := true, sent := r'.sent }

theorem Started.built (h : Started r r') : r'.built = true := by rw [h]

theorem Started.sentPackets (h : Started r r') : r'.sentPackets = r.sentPackets := by rw [h]

theorem Started.received (h : Started r r') : r'.received = r.received := by rw [h]

theorem Started.numPackets (h : Started r r') : r'.numPackets = r.numPackets := by rw [h]; rfl

theorem Started.isLocalAccess (h : Started r r') : r'.isLocalAccess = r.isLocalAccess := by rw [h]

theorem Started.runahead (h : Started r r') : r'.runahead = r.runahead := by rw [h]

/-- The writeback of the store at the pointer has started, with its packets in `r`. -/
def startWrite (s : LSQUnit) (r : LSQRequest) : LSQUnit :=
  s.modifyEntry s.storeWBIt fun e => { e with committed := true, request := some r }

/-- A store conditional or a release is at the head of the queue when it is written. -/
def ordered (s : LSQUnit) (r : LSQRequest) : Bool :=
  !(r.isLLSC || r.isRelease) || s.storeWBIt == s.storeQueue.head

/-- The outcomes of a round of the writeback loop with the store `e` at the pointer; the flag says
whether the loop goes on. -/
inductive Round (cfg : LSQParams) (env : Answers) (s : LSQUnit) (e : SQEntry) :
    LSQUnit → Bool → Prop where
  | noPort : s.cachePortAvailable cfg = false → (s.insts e.inst).runahead = false →
      Round cfg env s e s.advance true
  | wait : (s.isStoreBlocked = true ∨ ∃ r, e.request = some r ∧ s.ordered r = false) →
      Round cfg env s e s false
  | empty {t : LSQUnit} : s.isStoreBlocked = false → e.size = 0 →
      Completes cfg s s.storeWBIt e (s.storeWBIt + 1) t → Round cfg env s e t true
  | prefetch : s.isStoreBlocked = false → s.Prefetches e → Round cfg env s e s.advance true
  /-- The write never goes to a cache: a failing store conditional, or a local access. -/
  | complete {r r' : LSQRequest} {x : Effect} {t : LSQUnit} : s.isStoreBlocked = false →
      s.CarriesData e → e.request = some r → Started r r' →
      s.ordered r = true → (x = .storeConditionalFailed e.inst ∧
          (s.insts e.inst).isStoreConditional = true ∨
        x = .localAccess e.inst ∧ (s.insts e.inst).isStoreConditional = false ∧
          r.isLocalAccess = true) →
      Completes cfg ((s.startWrite r').emit x) s.storeWBIt
        { e with committed := true, request := some r' } (s.storeWBIt + 1) t →
      Round cfg env s e t true
  | send {r r' : LSQRequest} {t : LSQUnit} : s.isStoreBlocked = false →
      s.CarriesData e → e.request = some r → Started r r' → r.isLocalAccess = false →
      (s.startWrite r').sendAtPointer cfg env = some t → Round cfg env s e t true

theorem startWrite_get? (hget : s.storeQueue.get? s.storeWBIt = some e) (r : LSQRequest) :
    (s.startWrite r).storeQueue.get? s.storeWBIt =
      some { e with committed := true, request := some r } := by
  rw [startWrite, modifyEntry_get?, if_pos rfl, hget]
  rfl

theorem startWrite_get?_of_ne (s : LSQUnit) (r : LSQRequest) {j : Nat} (hj : j ≠ s.storeWBIt) :
    (s.startWrite r).storeQueue.get? j = s.storeQueue.get? j := by
  rw [startWrite, modifyEntry_get?, if_neg hj]

/-- If the queue is empty when the store at the pointer is completed, the pointer's next place is
the end of the queue. -/
theorem Completes.endIdx {wb : Nat} (hget : s.storeQueue.get? s.storeWBIt = some e)
    (hahead : ∀ j a, s.storeWBIt < j → s.storeQueue.get? j = some a → a.completed = false)
    (h : Completes cfg s s.storeWBIt e wb t) (hemp : t.storeQueue.items.isEmpty = true) :
    t.storeQueue.endIdx = s.storeWBIt + 1 := by
  have hl := IndexedQueue.lt_of_get? hget
  rw [h.queue, completeAt_endIdx]
  by_contra hne
  obtain ⟨a, ha⟩ := IndexedQueue.get?_of_lt (q := s.storeQueue) (i := s.storeWBIt + 1)
    (by omega) (by omega)
  have hkept := get?_completeAt ha (Nat.succ_ne_self _) (hahead _ a (Nat.lt_succ_self _) ha)
  rw [← h.queue] at hkept
  have hmem := IndexedQueue.mem_items hkept
  rw [List.isEmpty_iff] at hemp
  rw [hemp] at hmem
  cases hmem

theorem modify_startWrite (hget : s.storeQueue.get? s.storeWBIt = some e)
    (hreq : e.request = some r) (f : LSQRequest → LSQRequest) :
    s.storeQueue.modify s.storeWBIt (fun e => ({ e with committed := true } : SQEntry).onRequest f) =
      (s.startWrite (f r)).storeQueue := by
  refine s.storeQueue.modify_congr fun a ha => ?_
  rw [hget] at ha
  cases ha
  simp [SQEntry.onRequest, hreq]

theorem modifyEntry_start (hget : s.storeQueue.get? s.storeWBIt = some e)
    (hreq : e.request = some r) :
    (s.modifyEntry s.storeWBIt fun e =>
      ({ e with committed := true } : SQEntry).onRequest .buildPackets) =
        s.startWrite r.buildPackets := by
  unfold modifyEntry
  rw [modify_startWrite hget hreq]
  rfl

theorem startWrite_packetSent (s : LSQUnit) (r : LSQRequest) :
    (s.startWrite r).modifyRequest s.storeWBIt .packetSent = s.startWrite r.packetSent := by
  simp [startWrite, modifyRequest, modifyEntry, IndexedQueue.modify_modify, SQEntry.onRequest]

theorem writeEntry_round (hget : s.storeQueue.get? s.storeWBIt = some e)
    (hreq : e.request = some r) (hblk : s.isStoreBlocked = false) (hdata : s.CarriesData e)
    (hord : s.ordered r = true)
    (hahead : ∀ j a, s.storeWBIt < j → s.storeQueue.get? j = some a → a.completed = false)
    (h : s.writeEntry cfg env e r = some t) : Round cfg env s e t true := by
  have hpos : (s.startWrite r.buildPackets).storeWBIt = s.storeWBIt := rfl
  have hinsts : (s.startWrite r.buildPackets).insts = s.insts := rfl
  simp only [writeEntry, modifyEntry_start hget hreq, hpos, hinsts, startWrite_packetSent] at h
  -- the failing store conditional, then the local access, then the send
  by_cases hsc : ((s.insts e.inst).isStoreConditional && !env.lockedWrite e.inst) = true
  · rw [if_pos hsc] at h
    obtain ⟨u, hu, heq⟩ := Option.bind_eq_some_iff.mp h
    let s1 := (s.startWrite r.buildPackets.packetSent).emit (.storeConditionalFailed e.inst)
    have hget1 : s1.storeQueue.get? s1.storeWBIt =
        some { e with committed := true, request := some r.buildPackets.packetSent } :=
      startWrite_get? hget _
    have hahead1 : ∀ j a, s1.storeWBIt < j → s1.storeQueue.get? j = some a →
        a.completed = false := fun j a hj ha =>
      hahead j a hj ((startWrite_get?_of_ne s _ (Nat.ne_of_gt hj)).symm.trans ha)
    have hco : Completes cfg s1 s.storeWBIt
        { e with committed := true, request := some r.buildPackets.packetSent } s.storeWBIt u :=
      completeStore_spec hget1 hu
    have heq' : t = u.advance := by
      rw [← Option.some.inj heq]
      split
      · rename_i hemp
        have hend : u.storeQueue.endIdx = s.storeWBIt + 1 :=
          Completes.endIdx (s := s1) hget1 hahead1 hco hemp
        simp only [advance, hco.storeWBIt, hend]
      · rfl
    rw [heq']
    have hstarted : Started r r.buildPackets.packetSent := rfl
    simp only [Bool.and_eq_true] at hsc
    exact .complete hblk hdata hreq hstarted hord (.inl ⟨rfl, hsc.1⟩) hco.advance
  · rw [if_neg hsc] at h
    have hr : ∃ r' : LSQRequest, Started r r' ∧
        (if (s.insts e.inst).isStoreConditional = true then
          s.startWrite r.buildPackets.packetSent else s.startWrite r.buildPackets) =
            s.startWrite r' := by
      split
      · exact ⟨r.buildPackets.packetSent, rfl, rfl⟩
      · exact ⟨r.buildPackets, rfl, rfl⟩
    obtain ⟨r', hr', hst⟩ := hr
    rw [hst] at h
    by_cases hloc : r.isLocalAccess = true
    · rw [if_pos hloc] at h
      split at h
      · cases h
      · rename_i hnsc
        obtain ⟨u, hu, heq⟩ := Option.bind_eq_some_iff.mp h
        cases heq
        have hget1 : ((s.startWrite r').emit (.localAccess e.inst)).storeQueue.get?
            s.storeWBIt = some { e with committed := true, request := some r' } :=
          startWrite_get? hget _
        exact .complete hblk hdata hreq hr' hord (.inr ⟨rfl, by simpa using hnsc, hloc⟩)
          (completeStore_spec hget1 hu).advance
    · rw [if_neg hloc] at h
      exact .send hblk hdata hreq hr' ((Bool.not_eq_true _).mp hloc) h

theorem writebackIter_round {goOn : Bool} (hget : s.storeQueue.get? s.storeWBIt = some e)
    (hahead : ∀ j a, s.storeWBIt < j → s.storeQueue.get? j = some a → a.completed = false)
    (h : s.writebackIter cfg env = some (t, goOn)) : Round cfg env s e t goOn := by
  simp only [writebackIter, hget, Option.bind_eq_bind, Option.bind_some] at h
  by_cases hport : (!s.cachePortAvailable cfg && !(s.insts e.inst).runahead) = true
  · rw [if_pos hport] at h
    cases h
    simp only [Bool.and_eq_true, Bool.not_eq_true'] at hport
    exact .noPort hport.1 hport.2
  rw [if_neg hport] at h
  by_cases hblk : s.isStoreBlocked = true
  · rw [if_pos hblk] at h
    split at h
    · cases h
    · cases h
      exact .wait (.inl hblk)
  rw [if_neg hblk] at h
  have hblk' : s.isStoreBlocked = false := by simpa using hblk
  by_cases hsize : e.size = 0
  · rw [if_pos hsize] at h
    obtain ⟨u, hu, heq⟩ := Option.bind_eq_some_iff.mp h
    cases heq
    have hadv : s.advance.storeQueue.get? s.storeWBIt = some e := hget
    have hco := completeStore_spec hadv hu
    exact .empty hblk' hsize ⟨hco.queue, hco.insts, hco.storeWBIt, hco.storesToWB,
      hco.isStoreBlocked, hco.storeInFlight, hco.usedStorePorts, hco.effects, hco.inRunahead,
      hco.globalSeqNum⟩
  rw [if_neg hsize] at h
  by_cases hpre : (s.insts e.inst).isDataPrefetch = true
  · rw [if_pos hpre] at h
    cases h
    exact .prefetch hblk' ⟨hsize, hpre⟩
  rw [if_neg hpre] at h
  obtain ⟨r, hreq, h⟩ := Option.bind_eq_some_iff.mp h
  split at h
  · cases h
  · split at h
    · rename_i hwait
      cases h
      refine .wait (.inr ⟨r, hreq, ?_⟩)
      simp only [Bool.and_eq_true, decide_eq_true_eq] at hwait
      simp [ordered, hwait.1, hwait.2]
    · rename_i hwait
      obtain ⟨u, hu, heq⟩ := Option.bind_eq_some_iff.mp h
      cases heq
      have hord : s.ordered r = true := by
        by_cases hpos : s.storeWBIt = s.storeQueue.head
        · simp [ordered, hpos]
        · have hll : (r.isLLSC || r.isRelease) = false :=
            (Bool.not_eq_true _).mp fun hll => hwait (by simp [hll, hpos])
          simp only [ordered, hll]
          rfl
      exact writeEntry_round hget hreq hblk' ⟨hsize, by simpa using hpre⟩ hord hahead hu

end Round

end LSQUnit
end Runahead
end Gem5
