import Gem5Runahead.StoreQueueSend

/-!
# StoreQueueInv

The invariant of the store queue's writeback, and that every operation keeps it as long as no
round of the writeback loop skips a store for want of a port (`PortFree`).

The loop was altered so that runahead stores do not need a port: where it used to stop when no
store port was free, it now moves the pointer past the normal store it could not send.

* `EntryOk` — what holds of an entry, by its place before or behind the pointer `storeWBIt`.
* `Inv.of_alike` — changes to requests that touch no counter keep the invariant; one lemma for
  each of the other changes: `Inv.advance`, `Inv.completeStore`, `Inv.sendAtPointer`.
* `step_inv` — every operation keeps the invariant.
-/

namespace Gem5
namespace Runahead

/-- The store's request has been sent whole, or the store is completed. -/
def SQEntry.Written (e : SQEntry) : Prop :=
  e.completed = true ∨ ∃ r ∈ e.request, r.sentPackets = r.numPackets

instance (e : SQEntry) : Decidable e.Written :=
  inferInstanceAs (Decidable (_ ∨ ∃ r ∈ e.request, _))

namespace LSQUnit

structure EntryOk (s : LSQUnit) (idx : Nat) (e : SQEntry) : Prop where
  passed : idx < s.storeWBIt → e.canWB = true ∧ (e.Written ∨ s.Prefetches e)
  ahead : s.storeWBIt ≤ idx → e.completed = false ∧ ∀ r, e.request = some r →
    r.sentPackets < r.numPackets ∧
      (r.sentPackets = 0 ∨ s.isStoreBlocked = true ∧ idx = s.storeWBIt)
  closed : e.canWB = false → e.completed = false ∧ ∀ r, e.request = some r → r.sentPackets = 0
  hasRequest : e.size ≠ 0 → e.request.isSome
  bound : ∀ r, e.request = some r → r.sentPackets ≤ r.numPackets
  /-- A completed store has no packet to be answered. -/
  quiet : e.completed = true → ∀ r, e.request = some r → r.sentPackets ≤ r.received

/-- The store at the pointer that the cache refused. -/
structure BlockedAt (s : LSQUnit) (e : SQEntry) (r : LSQRequest) : Prop where
  get : s.storeQueue.get? s.storeWBIt = some e
  canWB : e.canWB = true
  carriesData : s.CarriesData e
  request : e.request = some r
  built : r.built = true

structure Inv (s : LSQUnit) : Prop where
  entry : ∀ idx e, s.storeQueue.get? idx = some e → s.EntryOk idx e
  count : s.storesToWB = s.storeQueue.count SQEntry.toWB
  blocked : s.isStoreBlocked = true → ∃ e r, s.BlockedAt e r
  head_le : s.storeQueue.head ≤ s.storeWBIt
  le_end : s.storeWBIt ≤ s.storeQueue.endIdx
  below : ∀ idx e, s.storeQueue.get? idx = some e → e.inst < s.globalSeqNum

/-- The writeback loop does not move on from a normal store because no port is free. -/
def PortFree (cfg : LSQParams) (s : LSQUnit) : Op → Prop
  | .writebackIter _ => s.cachePortAvailable cfg = false →
    ∀ e ∈ s.storeQueue.get? s.storeWBIt, (s.insts e.inst).runahead = true
  | _ => True

instance (cfg : LSQParams) (s : LSQUnit) : (op : Op) → Decidable (PortFree cfg s op)
  | .writebackIter _ => inferInstanceAs (Decidable (_ → ∀ e ∈ s.storeQueue.get? _, _))
  | .insertStore .. | .executeStore .. | .retire _ | .commitStores _ | .enterRunahead
  | .exitRunahead | .squash _ | .tick | .cacheGotBlocked | .recvReqRetry _ | .recvTimingResp _
  | .writebackBlockedStore _ => inferInstanceAs (Decidable True)

variable {cfg : LSQParams} {env : Answers} {s s' t : LSQUnit} {idx : Nat} {e : SQEntry}
  {r : LSQRequest}

theorem init_inv (insts : Insts) : Inv (init insts) := by
  have hnone : ∀ idx, (init insts).storeQueue.get? idx = none := by
    intro idx
    simp [init, IndexedQueue.get?]
  refine ⟨?_, rfl, ?_, Nat.le_refl _, Nat.le_refl _, ?_⟩
  · intro idx e h
    rw [hnone] at h
    cases h
  · intro h
    cases h
  · intro idx e h
    rw [hnone] at h
    cases h

theorem carriesData_congr
    (h : (s'.insts e.inst).isDataPrefetch = (s.insts e.inst).isDataPrefetch) :
    s'.CarriesData e ↔ s.CarriesData e := by
  simp [CarriesData, h]

theorem prefetches_congr
    (h : (s'.insts e.inst).isDataPrefetch = (s.insts e.inst).isDataPrefetch) :
    s'.Prefetches e ↔ s.Prefetches e := by
  simp [Prefetches, h]

section Alike

/-- The counters of the request are the same, or more answers have come in. -/
structure RequestAlike (r r' : LSQRequest) : Prop where
  numPackets : r'.numPackets = r.numPackets
  sentPackets : r'.sentPackets = r.sentPackets
  received : r.received ≤ r'.received
  built : r.built = true → r'.built = true
  isLocalAccess : r'.isLocalAccess = r.isLocalAccess

structure Alike (e e' : SQEntry) : Prop where
  inst : e'.inst = e.inst
  size : e'.size = e.size
  canWB : e'.canWB = e.canWB
  completed : e'.completed = e.completed
  request : Option.Rel RequestAlike e.request e'.request

theorem RequestAlike.refl (r : LSQRequest) : RequestAlike r r := ⟨rfl, rfl, Nat.le_refl _, id, rfl⟩

theorem Alike.refl (e : SQEntry) : Alike e e := by
  refine ⟨rfl, rfl, rfl, rfl, ?_⟩
  cases e.request with
  | none => exact .none
  | some r => exact .some (.refl r)

theorem Alike.onRequest (e : SQEntry) {f : LSQRequest → LSQRequest}
    (hf : ∀ r, RequestAlike r (f r)) : Alike e (e.onRequest f) := by
  refine ⟨rfl, rfl, rfl, rfl, ?_⟩
  unfold SQEntry.onRequest
  cases e.request with
  | none => exact .none
  | some r => exact .some (hf r)

theorem Alike.toWB {e e' : SQEntry} (h : Alike e e') : e'.toWB = e.toWB := by
  simp [SQEntry.toWB, h.canWB, h.completed]

theorem Alike.of_request {e e' : SQEntry} (h : Alike e e') {r' : LSQRequest}
    (hr : e'.request = some r') : ∃ r, e.request = some r ∧ RequestAlike r r' := by
  have hrel := h.request
  rw [hr] at hrel
  generalize he : e.request = o at hrel
  cases hrel with
  | some hrr => exact ⟨_, rfl, hrr⟩

theorem Alike.exists_request {e e' : SQEntry} (h : Alike e e') (hr : e.request = some r) :
    ∃ r', e'.request = some r' ∧ RequestAlike r r' := by
  have hrel := h.request
  rw [hr] at hrel
  generalize he : e'.request = o at hrel
  cases hrel with
  | some hrr => exact ⟨_, rfl, hrr⟩

theorem Alike.written {e e' : SQEntry} (h : Alike e e') (hw : e.Written) : e'.Written := by
  rcases hw with hc | ⟨r, hr, hsent⟩
  · exact .inl (h.completed.trans hc)
  · obtain ⟨r', hr', hrr⟩ := h.exists_request hr
    exact .inr ⟨r', hr', by rw [hrr.sentPackets, hrr.numPackets, hsent]⟩

theorem EntryOk.of_alike {e e' : SQEntry} (h : s.EntryOk idx e) (ha : Alike e e')
    (hwb : s'.storeWBIt = s.storeWBIt) (hblk : s'.isStoreBlocked = s.isStoreBlocked)
    (hpre : s'.Prefetches e' ↔ s.Prefetches e) : s'.EntryOk idx e' := by
  constructor
  · intro hlt
    rw [hwb] at hlt
    obtain ⟨hcan, hw⟩ := h.passed hlt
    exact ⟨ha.canWB.trans hcan, hw.imp ha.written hpre.mpr⟩
  · intro hle
    rw [hwb] at hle ⊢
    obtain ⟨hc, hr⟩ := h.ahead hle
    refine ⟨ha.completed.trans hc, fun r' hr' => ?_⟩
    obtain ⟨r, hreq, hrr⟩ := ha.of_request hr'
    rw [hrr.sentPackets, hrr.numPackets, hblk]
    exact hr r hreq
  · intro hcan
    obtain ⟨hc, hr⟩ := h.closed (ha.canWB.symm.trans hcan)
    refine ⟨ha.completed.trans hc, fun r' hr' => ?_⟩
    obtain ⟨r, hreq, hrr⟩ := ha.of_request hr'
    rw [hrr.sentPackets]
    exact hr r hreq
  · intro hsize
    rw [ha.size] at hsize
    obtain ⟨r, hr⟩ := Option.isSome_iff_exists.mp (h.hasRequest hsize)
    obtain ⟨r', hr', -⟩ := ha.exists_request hr
    rw [hr']
    rfl
  · intro r' hr'
    obtain ⟨r, hreq, hrr⟩ := ha.of_request hr'
    rw [hrr.sentPackets, hrr.numPackets]
    exact h.bound r hreq
  · intro hc r' hr'
    obtain ⟨r, hreq, hrr⟩ := ha.of_request hr'
    rw [hrr.sentPackets]
    exact (h.quiet (ha.completed.symm.trans hc) r hreq).trans hrr.received

/-- The queue keeps its shape and every entry is alike. -/
structure QueueAlike (q q' : IndexedQueue SQEntry) : Prop where
  get? : ∀ j, Option.Rel Alike (q.get? j) (q'.get? j)
  head : q'.head = q.head
  endIdx : q'.endIdx = q.endIdx
  count : q'.count SQEntry.toWB = q.count SQEntry.toWB

theorem QueueAlike.of_get? {q q' : IndexedQueue SQEntry} (h : QueueAlike q q') {j : Nat}
    {e' : SQEntry} (hget : q'.get? j = some e') : ∃ e, q.get? j = some e ∧ Alike e e' := by
  have hrel := h.get? j
  rw [hget] at hrel
  generalize he : q.get? j = o at hrel
  cases hrel with
  | some ha => exact ⟨_, rfl, ha⟩

theorem QueueAlike.exists_get? {q q' : IndexedQueue SQEntry} (h : QueueAlike q q') {j : Nat}
    (hget : q.get? j = some e) : ∃ e', q'.get? j = some e' ∧ Alike e e' := by
  have hrel := h.get? j
  rw [hget] at hrel
  generalize he : q'.get? j = o at hrel
  cases hrel with
  | some ha => exact ⟨_, rfl, ha⟩

theorem QueueAlike.refl (q : IndexedQueue SQEntry) : QueueAlike q q := by
  refine ⟨fun j => ?_, rfl, rfl, rfl⟩
  cases q.get? j with
  | none => exact .none
  | some e => exact .some (.refl e)

theorem QueueAlike.modify {q : IndexedQueue SQEntry} {f : SQEntry → SQEntry}
    (hget : q.get? idx = some e) (hf : Alike e (f e)) : QueueAlike q (q.modify idx f) := by
  refine ⟨fun j => ?_, IndexedQueue.modify_head .., IndexedQueue.modify_endIdx .., ?_⟩
  · rw [IndexedQueue.get?_modify]
    by_cases hj : j = idx
    · subst hj
      rw [if_pos rfl, hget]
      exact .some hf
    · rw [if_neg hj]
      exact (QueueAlike.refl q).get? j
  · have hc := IndexedQueue.count_modify (p := SQEntry.toWB) hget f
    rw [hf.toWB] at hc
    exact Nat.add_right_cancel hc

theorem QueueAlike.map (q : IndexedQueue SQEntry) {f : SQEntry → SQEntry}
    (hf : ∀ e, Alike e (f e)) : QueueAlike q (q.map f) := by
  refine ⟨fun j => ?_, rfl, IndexedQueue.map_endIdx .., ?_⟩
  · rw [IndexedQueue.get?_map]
    cases q.get? j with
    | none => exact .none
    | some e => exact .some (hf e)
  · exact IndexedQueue.count_map fun e => (hf e).toWB

theorem Inv.of_alike (h : Inv s) (hq : QueueAlike s.storeQueue s'.storeQueue)
    (hwb : s'.storeWBIt = s.storeWBIt) (hblk : s'.isStoreBlocked = s.isStoreBlocked)
    (hcount : s'.storesToWB = s.storesToWB) (hseq : s'.globalSeqNum = s.globalSeqNum)
    (hpre : ∀ i, (s'.insts i).isDataPrefetch = (s.insts i).isDataPrefetch) : Inv s' := by
  constructor
  · intro j e' hget
    obtain ⟨e, hget', ha⟩ := hq.of_get? hget
    exact (h.entry j e hget').of_alike ha hwb hblk (by simp [Prefetches, ha.size, ha.inst, hpre])
  · rw [hcount, hq.count, h.count]
  · intro hb
    rw [hblk] at hb
    obtain ⟨e, r, hb⟩ := h.blocked hb
    obtain ⟨e', hget', ha⟩ := hq.exists_get? hb.get
    obtain ⟨r', hr', hrr⟩ := ha.exists_request hb.request
    have hdata : s'.CarriesData e' := by simpa [CarriesData, ha.size, ha.inst, hpre] using hb.carriesData
    exact ⟨e', r', ⟨by rw [hwb, hget'], ha.canWB.trans hb.canWB, hdata, hr', hrr.built hb.built⟩⟩
  · rw [hwb, hq.head]
    exact h.head_le
  · rw [hwb, hq.endIdx]
    exact h.le_end
  · intro j e' hget
    obtain ⟨e, hget', ha⟩ := hq.of_get? hget
    rw [ha.inst, hseq]
    exact h.below j e hget'

theorem Inv.cacheReady (h : Inv s) : Inv { s with cacheBlocked := false } :=
  h.of_alike (.refl _) rfl rfl rfl rfl fun _ => rfl

end Alike

section Pointer

theorem Completes.isDataPrefetch {wb : Nat} (h : Completes cfg s idx e wb s') (i : Nat) :
    (s'.insts i).isDataPrefetch = (s.insts i).isDataPrefetch := by
  rw [h.insts, Insts.modify_apply]
  split <;> rfl

/-- The pointer may pass a data prefetch. -/
theorem Inv.advance (h : Inv s) (hget : s.storeQueue.get? s.storeWBIt = some e)
    (hcan : e.canWB = true) (hpre : s.Prefetches e) : Inv s.advance := by
  have hblk : s.isStoreBlocked = false := by
    cases hb : s.isStoreBlocked with
    | false => rfl
    | true =>
      obtain ⟨e', r, hb⟩ := h.blocked hb
      obtain rfl : e = e' := Option.some.inj (hget.symm.trans hb.get)
      exact absurd hpre hb.carriesData.not_prefetches
  constructor
  · intro j a ha
    have hok := h.entry j a ha
    refine ⟨fun hlt => ?_, fun hle => ?_, hok.closed, hok.hasRequest, hok.bound, hok.quiet⟩
    · by_cases hj : j = s.storeWBIt
      · subst hj
        have hae : e = a := Option.some.inj (hget.symm.trans ha)
        subst hae
        exact ⟨hcan, .inr hpre⟩
      · have hlt' : j < s.storeWBIt + 1 := hlt
        exact hok.passed (by omega)
    · have hle' : s.storeWBIt + 1 ≤ j := hle
      obtain ⟨hc, hr⟩ := hok.ahead (by omega)
      refine ⟨hc, fun r hreq => ⟨(hr r hreq).1, ?_⟩⟩
      rcases (hr r hreq).2 with h0 | ⟨hb, -⟩
      · exact .inl h0
      · rw [hblk] at hb
        cases hb
  · exact h.count
  · intro hb
    have hb' : s.isStoreBlocked = true := hb
    rw [hblk] at hb'
    cases hb'
  · exact Nat.le_succ_of_le h.head_le
  · exact (IndexedQueue.lt_of_get? hget).2
  · exact h.below

/-- A store behind the pointer is completed, or the one at the pointer, which then moves. -/
theorem Inv.completeStore (h : Inv s) (hget : s.storeQueue.get? idx = some e)
    (hcan : e.canWB = true) (hc : e.completed = false)
    (hquiet : ∀ r, e.request = some r → r.sentPackets ≤ r.received) {wb : Nat} (hlt : idx < wb)
    (hwb : wb = s.storeWBIt ∨
      wb = s.storeWBIt + 1 ∧ idx = s.storeWBIt ∧ s.isStoreBlocked = false)
    (hco : Completes cfg s idx e wb s') : Inv s' := by
  have hl := IndexedQueue.lt_of_get? hget
  constructor
  · intro j a ha
    rw [hco.queue] at ha
    obtain ⟨b, hb, hab⟩ := get?_of_completeAt ha
    have hok := h.entry j b hb
    by_cases hj : j = idx
    · subst hj
      have hbe : e = b := Option.some.inj (hget.symm.trans hb)
      subst hbe
      rw [if_pos rfl] at hab
      subst hab
      refine ⟨fun _ => ⟨hcan, .inl (.inl rfl)⟩, fun hle => ?_, fun hcl => ?_, hok.hasRequest,
        hok.bound, fun _ => hquiet⟩
      · rw [hco.storeWBIt] at hle
        omega
      · have hcl' : e.canWB = false := hcl
        rw [hcan] at hcl'
        cases hcl'
    · rw [if_neg hj] at hab
      subst hab
      refine ⟨fun hlt' => ?_, fun hle => ?_, hok.closed, hok.hasRequest, hok.bound, hok.quiet⟩
      · rw [hco.storeWBIt] at hlt'
        obtain ⟨h1, h2⟩ := hok.passed (by omega)
        exact ⟨h1, h2.imp_right (prefetches_congr (hco.isDataPrefetch _)).mpr⟩
      · rw [hco.storeWBIt] at hle
        obtain ⟨h1, h2⟩ := hok.ahead (by omega)
        refine ⟨h1, fun r hr => ⟨(h2 r hr).1, ?_⟩⟩
        rcases (h2 r hr).2 with h0 | ⟨hb, hjw⟩
        · exact .inl h0
        · rcases hwb with hwb | ⟨-, -, hblk⟩
          · exact .inr ⟨hco.isStoreBlocked.trans hb, by rw [hco.storeWBIt, hwb, hjw]⟩
          · rw [hblk] at hb
            cases hb
  · have hcount := count_completeAt hget hcan hc
    have hold := h.count
    rw [hco.storesToWB, hco.queue]
    omega
  · intro hb
    rw [hco.isStoreBlocked] at hb
    rcases hwb with hwb | ⟨-, -, hblk⟩
    · obtain ⟨e', r, hat⟩ := h.blocked hb
      have hahead := (h.entry _ _ hat.get).ahead (Nat.le_refl _)
      refine ⟨e', r, ⟨?_, hat.canWB, (carriesData_congr (hco.isDataPrefetch _)).mpr hat.carriesData,
        hat.request, hat.built⟩⟩
      rw [hco.queue, hco.storeWBIt, hwb]
      exact get?_completeAt hat.get (by omega) hahead.1
    · rw [hblk] at hb
      cases hb
  · have hhead := h.head_le
    have hend := h.le_end
    rw [hco.queue, hco.storeWBIt]
    refine completeAt_head_le (by omega) (by omega) (Nat.ne_of_gt hlt) fun a ha => ?_
    exact ((h.entry _ a ha).ahead (by omega)).1
  · have hend := h.le_end
    rw [hco.queue, hco.storeWBIt, completeAt_endIdx]
    omega
  · intro j a ha
    rw [hco.queue] at ha
    obtain ⟨b, hb, hab⟩ := get?_of_completeAt ha
    have hlow := h.below j b hb
    rw [hab, hco.globalSeqNum]
    split
    · exact hlow
    · exact hlow

/-- Sending at the pointer keeps the invariant, whether the store is passed or blocks. -/
theorem Inv.sendAtPointer (h : Inv s) (hget : s.storeQueue.get? s.storeWBIt = some e)
    (hcan : e.canWB = true) (hdata : s.CarriesData e) (hreq : e.request = some r)
    (hbuilt : r.built = true) (hst : s.sendAtPointer cfg env = some s') : Inv s' := by
  have hok := h.entry _ _ hget
  obtain ⟨hc, hahead⟩ := hok.ahead (Nat.le_refl _)
  obtain ⟨k, t, r', hs, hout⟩ := sendAtPointer_cases hget hreq hbuilt (hahead r hreq).1 hst
  have hl := IndexedQueue.lt_of_get? hget
  have hself := hs.get?_self hget
  have hother : ∀ j a, t.storeQueue.get? j = some a → j ≠ s.storeWBIt →
      s.storeQueue.get? j = some a := fun j a ha hj => (hs.get?_of_ne hj).symm.trans ha
  have hcount : (t.storesToWB : Int) = t.storeQueue.count SQEntry.toWB := by
    have hmod := IndexedQueue.count_modify (p := SQEntry.toWB) hget fun e =>
      { e with request := some r' }
    have hsame : ({ e with request := some r' } : SQEntry).toWB = e.toWB := rfl
    rw [hsame] at hmod
    rw [hs.storesToWB, h.count, hs.queue, Nat.add_right_cancel hmod]
  have hhead : t.storeQueue.head = s.storeQueue.head := by rw [hs.queue]; simp
  have hend : t.storeQueue.endIdx = s.storeQueue.endIdx := by rw [hs.queue]; simp
  have hbelow : ∀ j a, t.storeQueue.get? j = some a → a.inst < t.globalSeqNum := by
    intro j a ha
    rw [hs.globalSeqNum]
    by_cases hj : j = s.storeWBIt
    · subst hj
      cases hself.symm.trans ha
      exact h.below s.storeWBIt e hget
    · exact h.below j a (hother j a ha hj)
  rcases hout with ⟨hsent, hblk, rfl⟩ | ⟨hsent, hblk, rfl⟩
  · -- sent whole: the pointer passes it
    have hpref : ∀ i, ((t.storePostSend cfg { e with request := some r' }).insts i).isDataPrefetch =
        (s.insts i).isDataPrefetch := by
      intro i
      simp only [storePostSend, hs.insts]
      split
      · rfl
      · rw [Insts.modify_apply]
        split <;> rfl
    constructor
    · intro j a ha
      by_cases hj : j = s.storeWBIt
      · subst hj
        cases hself.symm.trans ha
        refine ⟨fun _ => ⟨hcan, .inl (.inr ⟨r', rfl, ?_⟩)⟩, fun hle => ?_, fun hcl => ?_,
          fun _ => rfl, ?_, fun hc' => ?_⟩
        · rw [hs.numPackets, hsent]
        · have hle' : t.storeWBIt + 1 ≤ s.storeWBIt := hle
          rw [hs.storeWBIt] at hle'
          omega
        · have hcl' : e.canWB = false := hcl
          rw [hcan] at hcl'
          cases hcl'
        · intro r1 hr1
          cases hr1
          rw [hs.numPackets, hsent]
        · have hc'' : e.completed = true := hc'
          rw [hc] at hc''
          cases hc''
      · have hok' := h.entry j a (hother j a ha hj)
        refine ⟨fun hlt => ?_, fun hle => ?_, hok'.closed, hok'.hasRequest, hok'.bound, hok'.quiet⟩
        · have hlt' : j < t.storeWBIt + 1 := hlt
          rw [hs.storeWBIt] at hlt'
          obtain ⟨h1, h2⟩ := hok'.passed (by omega)
          exact ⟨h1, h2.imp_right (prefetches_congr (hpref _)).mpr⟩
        · have hle' : t.storeWBIt + 1 ≤ j := hle
          rw [hs.storeWBIt] at hle'
          obtain ⟨h1, h2⟩ := hok'.ahead (by omega)
          refine ⟨h1, fun r1 hr1 => ⟨(h2 r1 hr1).1, ?_⟩⟩
          rcases (h2 r1 hr1).2 with h0 | ⟨-, hjw⟩
          · exact .inl h0
          · exact absurd hjw hj
    · exact hcount
    · intro hb
      have hb' : t.isStoreBlocked = true := hb
      rw [hblk] at hb'
      cases hb'
    · show t.storeQueue.head ≤ t.storeWBIt + 1
      rw [hhead, hs.storeWBIt]
      exact Nat.le_succ_of_le h.head_le
    · show t.storeWBIt + 1 ≤ t.storeQueue.endIdx
      rw [hend, hs.storeWBIt]
      exact hl.2
    · exact hbelow
  · -- refused: the pointer stays and the store blocks
    have hpref : ∀ i, (s'.insts i).isDataPrefetch = (s.insts i).isDataPrefetch :=
      fun i => by rw [hs.insts]
    constructor
    · intro j a ha
      by_cases hj : j = s.storeWBIt
      · subst hj
        cases hself.symm.trans ha
        refine ⟨fun hlt => ?_, fun _ => ⟨hc, fun r1 hr1 => ?_⟩, fun hcl => ?_, fun _ => rfl, ?_,
          fun hc' => ?_⟩
        · rw [hs.storeWBIt] at hlt
          omega
        · cases hr1
          rw [hs.numPackets]
          exact ⟨hsent, .inr ⟨hblk, hs.storeWBIt.symm⟩⟩
        · have hcl' : e.canWB = false := hcl
          rw [hcan] at hcl'
          cases hcl'
        · intro r1 hr1
          cases hr1
          rw [hs.numPackets]
          exact Nat.le_of_lt hsent
        · have hc'' : e.completed = true := hc'
          rw [hc] at hc''
          cases hc''
      · have hok' := h.entry j a (hother j a ha hj)
        refine ⟨fun hlt => ?_, fun hle => ?_, hok'.closed, hok'.hasRequest, hok'.bound, hok'.quiet⟩
        · rw [hs.storeWBIt] at hlt
          obtain ⟨h1, h2⟩ := hok'.passed hlt
          exact ⟨h1, h2.imp_right (prefetches_congr (hpref _)).mpr⟩
        · rw [hs.storeWBIt] at hle
          obtain ⟨h1, h2⟩ := hok'.ahead hle
          refine ⟨h1, fun r1 hr1 => ⟨(h2 r1 hr1).1, ?_⟩⟩
          rcases (h2 r1 hr1).2 with h0 | ⟨-, hjw⟩
          · exact .inl h0
          · exact absurd hjw hj
    · exact hcount
    · intro _
      refine ⟨{ e with request := some r' }, r', ⟨?_, ?_, ?_, rfl, ?_⟩⟩
      · rw [hs.storeWBIt]
        exact hself
      · exact hcan
      · exact (carriesData_congr (hpref _)).mpr hdata
      · rw [hs.built, hbuilt]
    · rw [hhead, hs.storeWBIt]
      exact h.head_le
    · rw [hend, hs.storeWBIt]
      exact h.le_end
    · exact hbelow

end Pointer

section Operations

theorem Inv.insertStore (h : Inv s) {i : Nat} {inst : DynInst} (hi : s.globalSeqNum ≤ i) :
    Inv (s.insertStore i inst) := by
  have hend : (s.insertStore i inst).storeQueue.endIdx = s.storeQueue.endIdx + 1 :=
    IndexedQueue.pushBack_endIdx ..
  have hget : ∀ j, (s.insertStore i inst).storeQueue.get? j =
      if j = s.storeQueue.endIdx then some { inst := i } else s.storeQueue.get? j :=
    fun j => IndexedQueue.get?_pushBack ..
  have hpref : ∀ j a, s.storeQueue.get? j = some a →
      ((s.insertStore i inst).insts a.inst).isDataPrefetch = (s.insts a.inst).isDataPrefetch := by
    intro j a ha
    have hne : a.inst ≠ i := Nat.ne_of_lt (Nat.lt_of_lt_of_le (h.below j a ha) hi)
    simp [LSQUnit.insertStore, Function.update_of_ne hne]
  constructor
  · intro j a ha
    rw [hget] at ha
    split at ha
    · rename_i hj
      cases ha
      have hle := h.le_end
      refine ⟨fun hlt => ?_, fun _ => ⟨rfl, ?_⟩, fun _ => ⟨rfl, ?_⟩, fun hs => absurd rfl hs, ?_, ?_⟩
      · have hlt' : j < s.storeWBIt := hlt
        omega
      all_goals simp
    · have hok := h.entry j a ha
      refine ⟨fun hlt => ?_, hok.ahead, hok.closed, hok.hasRequest, hok.bound, hok.quiet⟩
      obtain ⟨h1, h2⟩ := hok.passed hlt
      exact ⟨h1, h2.imp_right (prefetches_congr (hpref j a ha)).mpr⟩
  · have hcount := IndexedQueue.count_pushBack s.storeQueue { inst := i } SQEntry.toWB
    have hnew : ({ inst := i } : SQEntry).toWB = false := rfl
    rw [hnew] at hcount
    show s.storesToWB = ((s.storeQueue.pushBack { inst := i }).count SQEntry.toWB : Nat)
    rw [hcount, h.count]
    rfl
  · intro hb
    obtain ⟨e, r, hat⟩ := h.blocked hb
    have hl := IndexedQueue.lt_of_get? hat.get
    refine ⟨e, r, ⟨?_, hat.canWB, (carriesData_congr (hpref _ _ hat.get)).mpr hat.carriesData,
      hat.request, hat.built⟩⟩
    rw [hget]
    have hne : (s.insertStore i inst).storeWBIt ≠ s.storeQueue.endIdx := Nat.ne_of_lt hl.2
    rw [if_neg hne]
    exact hat.get
  · exact h.head_le
  · rw [hend]
    exact Nat.le_succ_of_le h.le_end
  · intro j a ha
    show a.inst < i + 1
    rw [hget] at ha
    split at ha
    · cases ha
      exact Nat.lt_succ_self i
    · have hlow := h.below j a ha
      omega

/-- A store executes: it lies before the pointer's reach, so a fresh request changes nothing. -/
theorem Inv.executeStore (h : Inv s) {size : StoreSize} (hfresh : r.Fresh)
    (hclosed : ∀ e, s.storeQueue.get? idx = some e → e.canWB = false)
    (hst : s.executeStore idx size r = some s') : Inv s' := by
  obtain ⟨-, -, hsent, -, hnum⟩ := hfresh
  obtain ⟨e, w, hget, rfl⟩ := executeStore_spec hst
  have hget' := s.executed_get? idx size r w
  have hcan := hclosed e hget
  have hok := h.entry idx e hget
  have hc := (hok.closed hcan).1
  have hahead : s.storeWBIt ≤ idx := by
    by_contra hlt
    have hpassed := (hok.passed (by omega)).1
    rw [hcan] at hpassed
    cases hpassed
  constructor
  · intro j a ha
    rw [hget'] at ha
    split at ha
    · rename_i hj
      subst hj
      rw [hget] at ha
      cases ha
      refine ⟨fun hlt => ?_, fun _ => ⟨hc, ?_⟩, fun _ => ⟨hc, ?_⟩, fun _ => rfl, ?_, fun hc' => ?_⟩
      · exact absurd hlt (Nat.not_lt.mpr hahead)
      · intro r1 hr1
        cases hr1
        exact ⟨by omega, .inl hsent⟩
      · intro r1 hr1
        cases hr1
        exact hsent
      · intro r1 hr1
        cases hr1
        omega
      · have hc'' : e.completed = true := hc'
        rw [hc] at hc''
        cases hc''
    · have hok' := h.entry j a ha
      refine ⟨fun hlt => ?_, hok'.ahead, hok'.closed, hok'.hasRequest, hok'.bound, hok'.quiet⟩
      obtain ⟨h1, h2⟩ := hok'.passed hlt
      exact ⟨h1, h2.imp_right (prefetches_congr rfl).mpr⟩
  · have hmod := IndexedQueue.count_modify (p := SQEntry.toWB) hget fun e =>
      { e with request := some r, size := size, canWB := e.canWB || w }
    have h1 : e.toWB = false := by simp [SQEntry.toWB, hcan]
    have h2 : SQEntry.toWB { e with request := some r, size := size, canWB := e.canWB || w } = w := by
      simp [SQEntry.toWB, hcan, hc]
    rw [h1, h2] at hmod
    have hold := h.count
    simp only [Bool.toNat_false, Nat.add_zero] at hmod
    simp only [executed]
    omega
  · intro hb
    obtain ⟨e0, r0, hat⟩ := h.blocked hb
    have hne : s.storeWBIt ≠ idx := by
      rintro rfl
      obtain rfl : e = e0 := Option.some.inj (hget.symm.trans hat.get)
      rw [hat.canWB] at hcan
      cases hcan
    refine ⟨e0, r0, ⟨?_, hat.canWB, (carriesData_congr rfl).mpr hat.carriesData, hat.request,
      hat.built⟩⟩
    exact (hget' s.storeWBIt).trans (by rw [if_neg hne]; exact hat.get)
  · rw [executed, IndexedQueue.modify_head]
    exact h.head_le
  · rw [executed, IndexedQueue.modify_endIdx]
    exact h.le_end
  · intro j a ha
    rw [hget'] at ha
    split at ha
    · rename_i hj
      subst hj
      rw [hget] at ha
      cases ha
      exact h.below j e hget
    · exact h.below j a ha

theorem commitEntries_length (youngest : Nat) (l : List SQEntry) :
    (commitEntries youngest l).1.length = l.length := by
  induction l with
  | nil => rfl
  | cons e l ih =>
    simp only [commitEntries]
    split
    · simp [ih]
    · split
      · rfl
      · simp [ih]

/-- An entry is left alone, or released when it is old enough. -/
theorem commitEntries_getElem? (youngest : Nat) (l : List SQEntry) (k : Nat) (e : SQEntry)
    (h : l[k]? = some e) :
    (commitEntries youngest l).1[k]? = some e ∨
      (commitEntries youngest l).1[k]? = some e.setCanWB := by
  induction l generalizing k with
  | nil => simp at h
  | cons a l ih =>
    simp only [commitEntries]
    cases k with
    | zero =>
      have hae : a = e := by simpa using h
      subst hae
      split
      · simp
      · split <;> simp
    | succ k =>
      have h' : l[k]? = some e := by simpa using h
      split
      · simpa using ih k h'
      · split
        · simp [h']
        · simpa using ih k h'

theorem countP_commitEntries (youngest : Nat) (l : List SQEntry)
    (h : ∀ e ∈ l, e.canWB = false → e.completed = false) :
    (commitEntries youngest l).1.countP SQEntry.toWB =
      l.countP SQEntry.toWB + (commitEntries youngest l).2 := by
  induction l with
  | nil => rfl
  | cons e l ih =>
    have ih := ih fun a ha => h a (List.mem_cons_of_mem e ha)
    simp only [commitEntries]
    split
    · simp only [List.countP_cons, ih]
      omega
    · rename_i hcan
      have hcan' : e.canWB = false := by simpa using hcan
      split
      · simp
      · have h1 : e.toWB = false := by simp [SQEntry.toWB, hcan']
        have h2 : e.setCanWB.toWB = true := by
          simp [SQEntry.toWB, SQEntry.setCanWB, h e List.mem_cons_self hcan']
        simp only [List.countP_cons, h1, h2, ih]
        simp
        omega

theorem commitStores_get? (youngest : Nat) {j : Nat}
    (h : (s.commitStores youngest).storeQueue.get? j = some e) :
    ∃ a, s.storeQueue.get? j = some a ∧ (e = a ∨ e = a.setCanWB) := by
  have hl := IndexedQueue.lt_of_get? h
  have hlen : (s.commitStores youngest).storeQueue.endIdx = s.storeQueue.endIdx := by
    simp [commitStores, IndexedQueue.endIdx, commitEntries_length]
  have hhead : s.storeQueue.head ≤ j := hl.1
  obtain ⟨a, ha⟩ := IndexedQueue.get?_of_lt (q := s.storeQueue) hhead (hlen ▸ hl.2)
  refine ⟨a, ha, ?_⟩
  rw [IndexedQueue.get?, if_pos hhead] at ha
  rw [IndexedQueue.get?, if_pos hl.1] at h
  rcases commitEntries_getElem? youngest _ _ _ ha with hk | hk
  · exact .inl (Option.some.inj (h.symm.trans hk))
  · exact .inr (Option.some.inj (h.symm.trans hk))

theorem get?_commitStores (youngest : Nat) {j : Nat} (h : s.storeQueue.get? j = some e) :
    (s.commitStores youngest).storeQueue.get? j = some e ∨
      (s.commitStores youngest).storeQueue.get? j = some e.setCanWB := by
  have hl := IndexedQueue.lt_of_get? h
  have hhead : (s.commitStores youngest).storeQueue.head ≤ j := hl.1
  rw [IndexedQueue.get?, if_pos hl.1] at h
  rw [IndexedQueue.get?, if_pos hhead]
  exact commitEntries_getElem? youngest _ _ _ h

theorem Inv.commitStores (h : Inv s) (youngest : Nat) : Inv (s.commitStores youngest) := by
  have hlen : (s.commitStores youngest).storeQueue.endIdx = s.storeQueue.endIdx := by
    simp [LSQUnit.commitStores, IndexedQueue.endIdx, commitEntries_length]
  have hclosed : ∀ e ∈ s.storeQueue.items, e.canWB = false → e.completed = false := by
    intro e he hcan
    obtain ⟨j, hj⟩ := IndexedQueue.exists_get? he
    exact ((h.entry j e hj).closed hcan).1
  constructor
  · intro j e he
    obtain ⟨a, ha, rfl | rfl⟩ := commitStores_get? youngest he
    · have hok := h.entry j e ha
      exact ⟨hok.passed, hok.ahead, hok.closed, hok.hasRequest, hok.bound, hok.quiet⟩
    · have hok := h.entry j a ha
      exact ⟨fun hlt => ⟨rfl, (hok.passed hlt).2⟩, hok.ahead, fun hcan => (by cases hcan),
        hok.hasRequest, hok.bound, hok.quiet⟩
  · have hcount := countP_commitEntries youngest s.storeQueue.items hclosed
    have hold := h.count
    show s.storesToWB + ((commitEntries youngest s.storeQueue.items).2 : Nat) =
      ((commitEntries youngest s.storeQueue.items).1.countP SQEntry.toWB : Nat)
    unfold IndexedQueue.count at hold
    omega
  · intro hb
    obtain ⟨e, r, hat⟩ := h.blocked hb
    rcases get?_commitStores youngest hat.get with hk | hk
    · exact ⟨e, r, ⟨hk, hat.canWB, hat.carriesData, hat.request, hat.built⟩⟩
    · exact ⟨e.setCanWB, r, ⟨hk, rfl, hat.carriesData, hat.request, hat.built⟩⟩
  · exact h.head_le
  · rw [hlen]
    exact h.le_end
  · intro j e he
    obtain ⟨a, ha, rfl | rfl⟩ := commitStores_get? youngest he
    · exact h.below j e ha
    · exact h.below j a ha

theorem Inv.squash (h : Inv s) (squashedNum : Nat) : Inv (s.squash squashedNum) := by
  have hkeep : ∀ j a, s.storeQueue.get? j = some a → a.canWB = true →
      (s.squash squashedNum).storeQueue.get? j = some a :=
    fun j a ha hcan => IndexedQueue.get?_dropBack ha (by simp [hcan])
  constructor
  · intro j e he
    have hok := h.entry j e (IndexedQueue.get?_of_dropBack he)
    exact ⟨hok.passed, hok.ahead, hok.closed, hok.hasRequest, hok.bound, hok.quiet⟩
  · have hcount : (s.squash squashedNum).storeQueue.count SQEntry.toWB =
        s.storeQueue.count SQEntry.toWB := by
      refine IndexedQueue.count_dropBack fun a ha => ?_
      simp only [Bool.and_eq_true, Bool.not_eq_true'] at ha
      simp [SQEntry.toWB, ha.2]
    rw [hcount]
    exact h.count
  · intro hb
    obtain ⟨e, r, hat⟩ := h.blocked hb
    exact ⟨e, r, ⟨hkeep _ _ hat.get hat.canWB, hat.canWB, hat.carriesData, hat.request, hat.built⟩⟩
  · exact h.head_le
  · refine IndexedQueue.le_dropBack_endIdx h.le_end h.head_le fun j a ha hj => ?_
    have hlt : j < s.storeWBIt := Nat.lt_of_succ_le (Nat.le_of_eq hj)
    have hcan := ((h.entry j a ha).passed hlt).1
    simp [hcan]
  · intro j e he
    exact h.below j e (IndexedQueue.get?_of_dropBack he)

end Operations

end LSQUnit
end Runahead
end Gem5
