import Mathlib.Algebra.Order.BigOperators.Group.Finset
import Mathlib.Data.Prod.Lex
import Gem5Runahead.StoreQueueCalls

/-!
# StoreQueueProgress

No store is lost in the store queue: in every run in which no round of the writeback loop skips a
normal store, a store that may write back and carries data waits until it is the one being
written, and from every state reached a way on leads there. On that way `writebackStores` is
called as a whole (`calls`), the ports are freed in between, a D-cache that refused a packet takes
it when it is ready again, and answers what it was sent.

A store conditional or a release is written at the head of the queue only. So nothing gets past one
behind a data prefetch, which the loop passes and never completes (`HeldUp`).

* `Follows` — what stays of the stores on such a way.
* `exists_settled`, `exists_cycle` — all answers come in; one cycle gets the pointer on.
* `exists_passes` — the pointer passes every store that is not held up.
* `no_store_lost` — safety, the count and progress together.
-/

namespace Gem5
namespace Runahead
namespace LSQUnit

variable {cfg : LSQParams} {env : Answers} {s s' t u : LSQUnit} {idx n : Nat} {e : SQEntry}
  {r r' : LSQRequest} {goOn : Bool} {l : List Op} {ls ls' : List (List Op)} {op : Op}

section Follows

/-- `a'` is the store `a` some steps later, and has not executed in between. -/
structure Stems (a a' : SQEntry) : Prop where
  inst : a'.inst = a.inst
  size : a'.size = a.size
  canWB : a.canWB = true → a'.canWB = true
  request : ∀ r', a'.request = some r' → ∃ r, a.request = some r ∧ r'.isLLSC = r.isLLSC ∧
    r'.isRelease = r.isRelease

theorem Stems.refl (a : SQEntry) : Stems a a := ⟨rfl, rfl, id, fun r hr => ⟨r, hr, rfl, rfl⟩⟩

theorem Stems.trans {a b c : SQEntry} (h : Stems a b) (h' : Stems b c) : Stems a c := by
  refine ⟨h'.inst.trans h.inst, h'.size.trans h.size, fun hc => h'.canWB (h.canWB hc),
    fun r₃ hr₃ => ?_⟩
  obtain ⟨r₂, hr₂, hl₂, hrel₂⟩ := h'.request r₃ hr₃
  obtain ⟨r₁, hr₁, hl₁, hrel₁⟩ := h.request r₂ hr₂
  exact ⟨r₁, hr₁, hl₂.trans hl₁, hrel₂.trans hrel₁⟩

theorem Stems.onRequest (a : SQEntry) {f : LSQRequest → LSQRequest}
    (hf : ∀ r, (f r).isLLSC = r.isLLSC ∧ (f r).isRelease = r.isRelease) :
    Stems a (a.onRequest f) := by
  refine ⟨rfl, rfl, id, fun r' hr' => ?_⟩
  obtain ⟨r, hr, rfl⟩ := Option.map_eq_some_iff.mp hr'
  exact ⟨r, hr, hf r⟩

/-- Every store of the later queue was in the earlier one, at the same place. -/
structure Comes (q q' : IndexedQueue SQEntry) : Prop where
  entry : ∀ j a', q'.get? j = some a' → ∃ a, q.get? j = some a ∧ Stems a a'
  endIdx : q'.endIdx = q.endIdx

theorem Comes.refl (q : IndexedQueue SQEntry) : Comes q q :=
  ⟨fun _ a ha => ⟨a, ha, .refl a⟩, rfl⟩

theorem Comes.trans {q₁ q₂ q₃ : IndexedQueue SQEntry} (h : Comes q₁ q₂) (h' : Comes q₂ q₃) :
    Comes q₁ q₃ := by
  refine ⟨fun j a₃ ha₃ => ?_, h'.endIdx.trans h.endIdx⟩
  obtain ⟨a₂, ha₂, hs₂⟩ := h'.entry j a₃ ha₃
  obtain ⟨a₁, ha₁, hs₁⟩ := h.entry j a₂ ha₂
  exact ⟨a₁, ha₁, hs₁.trans hs₂⟩

theorem Comes.modify {q : IndexedQueue SQEntry} {f : SQEntry → SQEntry}
    (hf : ∀ a, q.get? idx = some a → Stems a (f a)) : Comes q (q.modify idx f) := by
  refine ⟨fun j a' ha' => ?_, IndexedQueue.modify_endIdx ..⟩
  rw [IndexedQueue.get?_modify] at ha'
  split at ha'
  · rename_i hj
    subst hj
    obtain ⟨a, ha, rfl⟩ := Option.map_eq_some_iff.mp ha'
    exact ⟨a, ha, hf a ha⟩
  · exact ⟨a', ha', .refl a'⟩

theorem Comes.completeAt (q : IndexedQueue SQEntry) (idx : Nat) :
    Comes q (completeAt q idx) := by
  refine ⟨fun j a' ha' => ?_, completeAt_endIdx ..⟩
  obtain ⟨b, hb, rfl⟩ := get?_of_completeAt ha'
  refine ⟨b, hb, ?_⟩
  split
  · exact ⟨rfl, rfl, id, fun r hr => ⟨r, hr, rfl, rfl⟩⟩
  · exact .refl b

theorem Comes.of_sends {k : Nat} (hget : s.storeQueue.get? idx = some e)
    (hreq : e.request = some r) (hs : Sends s idx e r k t r') :
    Comes s.storeQueue t.storeQueue := by
  rw [hs.queue]
  refine Comes.modify fun a ha => ?_
  obtain rfl : e = a := Option.some.inj (hget.symm.trans ha)
  refine ⟨rfl, rfl, id, fun r1 hr1 => ?_⟩
  cases hr1
  exact ⟨r, hreq, by rw [hs.request], by rw [hs.request]⟩

theorem Comes.sendAtPointer (hget : s.storeQueue.get? s.storeWBIt = some e)
    (hreq : e.request = some r) (hbuilt : r.built = true) (hlt : r.sentPackets < r.numPackets)
    (hst : s.sendAtPointer cfg env = some t) : Comes s.storeQueue t.storeQueue := by
  obtain ⟨k, u, r', hs, hout⟩ := sendAtPointer_cases hget hreq hbuilt hlt hst
  have hcomes : Comes s.storeQueue u.storeQueue := .of_sends hget hreq hs
  rcases hout with ⟨-, -, rfl⟩ | ⟨-, -, rfl⟩
  · exact hcomes
  · exact hcomes

theorem Comes.startWrite (hget : s.storeQueue.get? s.storeWBIt = some e)
    (hreq : e.request = some r) (hr' : Started r r') :
    Comes s.storeQueue (s.startWrite r').storeQueue := by
  refine Comes.modify fun a ha => ?_
  obtain rfl : e = a := Option.some.inj (hget.symm.trans ha)
  refine ⟨rfl, rfl, id, fun r1 hr1 => ?_⟩
  cases hr1
  exact ⟨r, hreq, by rw [hr'], by rw [hr']⟩

theorem Round.comes (h : Inv s) (hget : s.storeQueue.get? s.storeWBIt = some e)
    (hround : Round cfg env s e t goOn) : Comes s.storeQueue t.storeQueue := by
  cases hround with
  | noPort | wait | prefetch => exact .refl _
  | empty _ _ hco =>
    rw [hco.queue]
    exact .completeAt ..
  | complete _ _ hreq hr' _ _ hco =>
    rw [hco.queue]
    exact (Comes.startWrite hget hreq hr').trans (.completeAt ..)
  | @send r r' t _ _ hreq hr' _ hsend =>
    obtain ⟨-, hahead⟩ := (h.entry _ _ hget).ahead (Nat.le_refl _)
    have hlt : r'.sentPackets < r'.numPackets := by
      rw [hr'.sentPackets, hr'.numPackets]
      exact (hahead r hreq).1
    exact (Comes.startWrite hget hreq hr').trans
      (Comes.sendAtPointer (startWrite_get? hget r') rfl hr'.built hlt hsend)

theorem writebackBlockedStore_comes (h : Inv s)
    (hst : s.writebackBlockedStore cfg env = some t) : Comes s.storeQueue t.storeQueue := by
  unfold writebackBlockedStore at hst
  split at hst
  · rename_i hb
    obtain ⟨e, r, hat⟩ := h.blocked hb
    have hlt := (((h.entry _ _ hat.get).ahead (Nat.le_refl _)).2 r hat.request).1
    exact .sendAtPointer hat.get hat.request hat.built hlt hst
  · cases hst

/-- No store is inserted, executed or squashed, and the mode stays. -/
def Op.serves : Op → Bool
  | .insertStore .. | .executeStore .. | .enterRunahead | .exitRunahead | .squash _
  | .cacheGotBlocked => false
  | .retire _ | .commitStores _ | .tick | .recvReqRetry _ | .recvTimingResp _
  | .writebackBlockedStore _ | .writebackIter _ => true

theorem step_comes (h : Inv s) (hop : op.serves = true) (hst : s.step cfg op = some t) :
    Comes s.storeQueue t.storeQueue := by
  cases op with
  | insertStore | executeStore | enterRunahead | exitRunahead | squash | cacheGotBlocked =>
    cases hop
  | retire | tick =>
    cases hst
    exact .refl _
  | commitStores youngest =>
    cases hst
    refine ⟨fun j a' ha' => ?_, ?_⟩
    · obtain ⟨b, hb, rfl | rfl⟩ := commitStores_get? youngest ha'
      · exact ⟨a', hb, .refl a'⟩
      · exact ⟨b, hb, rfl, rfl, fun _ => rfl, fun r hr => ⟨r, hr, rfl, rfl⟩⟩
    · simp [LSQUnit.commitStores, IndexedQueue.endIdx, commitEntries_length]
  | recvTimingResp j =>
    obtain ⟨a, r, -, -, hout⟩ := recvTimingResp_cases hst
    have hcount : Comes s.storeQueue (s.modifyRequest j .countResponse).storeQueue :=
      Comes.modify fun b _ => .onRequest b fun _ => ⟨rfl, rfl⟩
    rcases hout with ⟨-, hco⟩ | ⟨-, rfl⟩
    · rw [hco.queue]
      exact hcount.trans (.completeAt ..)
    · exact hcount
  | recvReqRetry env =>
    rcases recvReqRetry_cases hst with hst | rfl
    · exact writebackBlockedStore_comes (s := { s with cacheBlocked := false }) h.cacheReady hst
    · exact .refl _
  | writebackBlockedStore env => exact writebackBlockedStore_comes h hst
  | writebackIter env =>
    obtain ⟨e, goOn, hget, -, hround⟩ := round_of_step h hst
    exact hround.comes h hget

/-- What stays as long as the operations only serve the stores that are there. -/
structure Follows (s s' : LSQUnit) : Prop where
  comes : Comes s.storeQueue s'.storeQueue
  insts : ∀ i < s.globalSeqNum, (s'.insts i).isDataPrefetch = (s.insts i).isDataPrefetch ∧
    i < s'.globalSeqNum
  pointer : s.storeWBIt ≤ s'.storeWBIt

theorem Follows.refl (s : LSQUnit) : Follows s s :=
  ⟨.refl _, fun _ hi => ⟨rfl, hi⟩, Nat.le_refl _⟩

theorem Follows.trans (h : Follows s t) (h' : Follows t u) : Follows s u := by
  refine ⟨h.comes.trans h'.comes, fun i hi => ?_, h.pointer.trans h'.pointer⟩
  obtain ⟨hpre, hlt⟩ := h.insts i hi
  obtain ⟨hpre', hlt'⟩ := h'.insts i hlt
  exact ⟨hpre'.trans hpre, hlt'⟩

theorem Ready.step_follows (h : Ready cfg s) (hop : op.serves = true)
    (hst : (unskipped cfg).step s op t) : Follows s t := by
  obtain ⟨⟨hleg, hst⟩, hfree⟩ := hst
  refine ⟨step_comes h.inv hop hst, fun i hi => ?_, ?_⟩
  · exact ⟨(step_insts h.inv hleg hst hi).isDataPrefetch,
      Nat.lt_of_lt_of_le hi (step_globalSeqNum h.inv hleg hst)⟩
  · rcases step_pointer h.inv hfree hst with hstay | ⟨e, hpass⟩
    · exact Nat.le_of_eq hstay.symm
    · exact hpass.next ▸ Nat.le_succ _

theorem Ready.follows (h : Ready cfg s) (hrun : (unskipped cfg).Run s l t)
    (hl : ∀ op ∈ l, op.serves = true) : Follows s t := by
  induction hrun with
  | nil => exact .refl s
  | snoc hrun hst ih =>
    have ih := ih fun o ho => hl o (List.mem_append_left _ ho)
    exact ih.trans ((h.run hrun).step_follows (hl _ (by simp)) hst)

/-- A data prefetch of the later queue was one of the earlier queue. -/
theorem Follows.prefetches (h : Follows s t) (hinv : Inv s) {j : Nat} {a' : SQEntry}
    (ha' : t.storeQueue.get? j = some a') (hpre : t.Prefetches a') :
    ∃ a, s.storeQueue.get? j = some a ∧ s.Prefetches a := by
  obtain ⟨a, ha, hstems⟩ := h.comes.entry j a' ha'
  refine ⟨a, ha, hstems.size ▸ hpre.1, ?_⟩
  rw [← (h.insts a.inst (hinv.below j a ha)).1, ← hstems.inst]
  exact hpre.2

end Follows

section Calls

/-- A round of the writeback, which is part of a call. -/
def Op.ofWriteback : Op → Bool
  | .writebackBlockedStore _ | .writebackIter _ => true
  | _ => false

/-- The unit with `writebackStores` called as a whole: a step is another operation, or all rounds
of one call. -/
def calls (cfg : LSQParams) : Transition.System LSQUnit (List Op) where
  init := (system cfg).init
  step s l t :=
    (∃ op, op.ofWriteback = false ∧ l = [op] ∧ (unskipped cfg).step s op t) ∨
      ∃ env, s.writebackStores cfg env = some t ∧ (∀ op ∈ l, op.ofCall env) ∧
        (unskipped cfg).Run s l t

theorem calls_run (h : (calls cfg).Run s ls t) : (unskipped cfg).Run s ls.flatten t := by
  induction h with
  | nil => exact .nil
  | snoc _ hst ih =>
    rw [List.flatten_append, List.flatten_singleton]
    rcases hst with ⟨op, -, rfl, hst⟩ | ⟨env, -, -, hrun⟩
    · exact ih.snoc hst
    · exact ih.trans hrun

theorem calls_single (hop : op.ofWriteback = false) (hst : (unskipped cfg).step s op t) :
    (calls cfg).Run s [[op]] t := .single (.inl ⟨op, hop, rfl, hst⟩)

/-- A way on, and what it keeps. -/
structure Leads (cfg : LSQParams) (s t : LSQUnit) : Prop where
  run : ∃ ls, (calls cfg).Run s ls t
  ready : Ready cfg t
  follows : Follows s t

theorem Leads.refl (h : Ready cfg s) : Leads cfg s s := ⟨⟨[], .nil⟩, h, .refl s⟩

theorem Leads.trans (h : Leads cfg s t) (h' : Leads cfg t u) : Leads cfg s u := by
  obtain ⟨ls, hrun⟩ := h.run
  obtain ⟨ls', hrun'⟩ := h'.run
  exact ⟨⟨ls ++ ls', hrun.trans hrun'⟩, h'.ready, h.follows.trans h'.follows⟩

theorem Leads.of_step (h : Ready cfg s) (hop : op.serves = true ∧ op.ofWriteback = false)
    (hst : (unskipped cfg).step s op t) : Leads cfg s t :=
  ⟨⟨_, calls_single hop.2 hst⟩, h.step hst, h.step_follows hop.1 hst⟩

theorem Leads.of_call (h : Ready cfg s) (hcall : s.writebackStores cfg env = some t)
    (hrun : (unskipped cfg).Run s l t) (hl : ∀ op ∈ l, op.ofCall env) : Leads cfg s t := by
  refine ⟨⟨[l], .single (.inr ⟨env, hcall, hl, hrun⟩)⟩, h.run hrun, h.follows hrun fun op hop => ?_⟩
  rcases hl op hop with rfl | rfl <;> rfl

end Calls

section Answers

/-- Every store that was sent whole is completed. -/
def Settled (s : LSQUnit) : Prop :=
  ∀ j a, s.storeQueue.get? j = some a → j < s.storeWBIt → a.Written → a.completed = true

/-- The answers that the store at `j` still waits for. -/
def owedAt (s : LSQUnit) (j : Nat) : Nat :=
  ((s.storeQueue.get? j).bind (·.request)).elim 0 fun r => r.numPackets - r.received

def owed (s : LSQUnit) : Nat := ∑ j ∈ Finset.range s.storeWBIt, s.owedAt j

/-- An answer to the store at `j`: the requests are as if only counted, and the stores from the
pointer on stay. -/
theorem recvTimingResp_spec (h : Ready cfg s) {j : Nat} (hj : j < s.storeWBIt)
    (hget : s.storeQueue.get? j = some e) (hreq : e.request = some r) :
    ∃ t, s.recvTimingResp cfg j = some t ∧ t.storeWBIt = s.storeWBIt ∧
      (∀ k b, t.storeQueue.get? k = some b → ∃ c,
        (s.modifyRequest j .countResponse).storeQueue.get? k = some c ∧ b.request = c.request) ∧
      ∀ k, s.storeWBIt ≤ k → t.storeQueue.get? k = s.storeQueue.get? k := by
  have hahead : ∀ k, s.storeWBIt ≤ k →
      (s.modifyRequest j .countResponse).storeQueue.get? k = s.storeQueue.get? k := by
    intro k hk
    rw [modifyRequest, modifyEntry_get?, if_neg (by omega)]
  by_cases hlast : r.received + 1 = r.numPackets
  · obtain ⟨t, ht⟩ := completeStore_isSome cfg (modifyRequest_get?_self hget .countResponse)
    have hco := completeStore_spec (modifyRequest_get?_self hget .countResponse) ht
    refine ⟨t, by simp [recvTimingResp, hget, hreq, hlast, ht], hco.storeWBIt, ?_, ?_⟩
    · intro k b hb
      rw [hco.queue] at hb
      obtain ⟨c, hgc, rfl⟩ := get?_of_completeAt hb
      refine ⟨c, hgc, ?_⟩
      split <;> rfl
    · intro k hk
      rw [hco.queue, ← hahead k hk]
      cases hgk : (s.modifyRequest j .countResponse).storeQueue.get? k with
      | none =>
        cases hgk' : (completeAt (s.modifyRequest j .countResponse).storeQueue j).get? k with
        | none => rfl
        | some b =>
          obtain ⟨c, hgc, -⟩ := get?_of_completeAt hgk'
          rw [hgk] at hgc
          cases hgc
      | some b =>
        have hopen := ((h.inv.entry k b ((hahead k hk).symm.trans hgk)).ahead hk).1
        exact get?_completeAt hgk (by omega) hopen
  · exact ⟨s.modifyRequest j .countResponse, by simp [recvTimingResp, hget, hreq, hlast], rfl,
      fun k b hb => ⟨b, hb, rfl⟩, hahead⟩

theorem owed_lt {j : Nat} (hj : j < s.storeWBIt) (hget : s.storeQueue.get? j = some e)
    (hreq : e.request = some r) (hlt : r.received < r.numPackets)
    (hwb : t.storeWBIt = s.storeWBIt)
    (hentry : ∀ k b, t.storeQueue.get? k = some b → ∃ c,
      (s.modifyRequest j .countResponse).storeQueue.get? k = some c ∧ b.request = c.request) :
    t.owed < s.owed := by
  have hle : ∀ k, t.owedAt k ≤ if k = j then r.numPackets - (r.received + 1) else s.owedAt k := by
    intro k
    cases hb : t.storeQueue.get? k with
    | none => simp [owedAt, hb]
    | some b =>
      obtain ⟨c, hgc, hbc⟩ := hentry k b hb
      rw [modifyRequest, modifyEntry_get?] at hgc
      by_cases hk : k = j
      · subst hk
        rw [if_pos rfl, hget] at hgc
        cases hgc
        simp [owedAt, hb, hbc, SQEntry.onRequest, hreq, LSQRequest.countResponse,
          LSQRequest.numPackets]
      · rw [if_neg hk] at hgc
        simp [owedAt, hb, hbc, hgc, hk]
  have hself : s.owedAt j = r.numPackets - r.received := by simp [owedAt, hget, hreq]
  unfold owed
  rw [hwb]
  refine Finset.sum_lt_sum (fun k _ => ?_) ⟨j, Finset.mem_range.mpr hj, ?_⟩
  · have hk := hle k
    split at hk
    · rename_i hkj
      subst hkj
      omega
    · exact hk
  · have hk := hle j
    rw [if_pos rfl] at hk
    omega

/-- One more answer comes in for a store that was sent whole. -/
theorem exists_answer (h : Ready cfg s) {j : Nat} (hget : s.storeQueue.get? j = some e)
    (hj : j < s.storeWBIt) (hw : e.Written) (hc : e.completed = false) :
    ∃ t, (unskipped cfg).step s (.recvTimingResp j) t ∧ t.storeWBIt = s.storeWBIt ∧
      (∀ k, s.storeWBIt ≤ k → t.storeQueue.get? k = s.storeQueue.get? k) ∧ t.owed < s.owed := by
  obtain hc' | ⟨r, hreq, hsent⟩ := hw
  · rw [hc] at hc'
    cases hc'
  have hreq : e.request = some r := hreq
  have hlt : r.received < r.sentPackets := by
    have hle := (h.live.entry j e hget).received_le r hreq
    have hne : r.received ≠ r.numPackets := by
      intro hall
      rw [(h.live.entry j e hget).answered r hreq hall] at hc
      cases hc
    omega
  have hleg : (Op.recvTimingResp j).Legal s := by
    intro b hb r₁ hr₁
    obtain rfl : e = b := Option.some.inj (hget.symm.trans hb)
    obtain rfl : r = r₁ := Option.some.inj (hreq.symm.trans hr₁)
    exact hlt
  obtain ⟨t, ht, hwb, hentry, hahead⟩ := recvTimingResp_spec h hj hget hreq
  exact ⟨t, ⟨⟨hleg, ht⟩, trivial⟩, hwb, hahead, owed_lt hj hget hreq (hsent ▸ hlt) hwb hentry⟩

/-- All answers come in, and the stores from the pointer on stay as they are. -/
theorem exists_settled (h : Ready cfg s) : ∃ t, Leads cfg s t ∧ t.storeWBIt = s.storeWBIt ∧
    (∀ k, s.storeWBIt ≤ k → t.storeQueue.get? k = s.storeQueue.get? k) ∧ Settled t := by
  have hstep : ∀ t, (Leads cfg s t ∧ t.storeWBIt = s.storeWBIt ∧
      ∀ k, s.storeWBIt ≤ k → t.storeQueue.get? k = s.storeQueue.get? k) → ¬ Settled t →
      ∃ l u, (calls cfg).Run t l u ∧ (Leads cfg s u ∧ u.storeWBIt = s.storeWBIt ∧
        ∀ k, s.storeWBIt ≤ k → u.storeQueue.get? k = s.storeQueue.get? k) ∧
          (Settled u ∨ u.owed < t.owed) := by
    rintro t ⟨hleads, hwb, hahead⟩ hset
    simp only [Settled, not_forall] at hset
    obtain ⟨j, a, hget, hj, hw, hc⟩ := hset
    obtain ⟨u, hst, hwb', hahead', hlt⟩ :=
      exists_answer hleads.ready hget hj hw ((Bool.not_eq_true _).mp hc)
    refine ⟨_, u, calls_single rfl hst, ⟨hleads.trans (.of_step hleads.ready ⟨rfl, rfl⟩ hst),
      hwb'.trans hwb, fun k hk => ?_⟩, .inr hlt⟩
    rw [hahead' k (hwb ▸ hk), hahead k hk]
  obtain ⟨-, t, -, ⟨hleads, hwb, hahead⟩, hset⟩ :=
    Transition.System.Run.of_rank owed hstep ⟨.refl h, rfl, fun _ _ => rfl⟩
  exact ⟨t, hleads, hwb, hahead, hset⟩

end Answers

section Cycles

/-- With no data prefetch before the pointer and all answers in, the store at the pointer may be
written. -/
theorem Settled.ordered (hset : Settled s) (h : Ready cfg s)
    (hget : s.storeQueue.get? s.storeWBIt = some e)
    (hopen : ∀ r, e.request = some r → (r.isLLSC || r.isRelease) = true →
      ∀ j a, j < s.storeWBIt → s.storeQueue.get? j = some a → ¬ s.Prefetches a)
    (hreq : e.request = some r) : s.ordered r = true := by
  cases hll : r.isLLSC || r.isRelease with
  | false => simp [LSQUnit.ordered, hll]
  | true =>
    have hhead : s.storeWBIt = s.storeQueue.head := by
      by_contra hne
      have hlt : s.storeQueue.head < s.storeWBIt :=
        Nat.lt_of_le_of_ne h.inv.head_le (Ne.symm hne)
      obtain ⟨a, ha⟩ := IndexedQueue.get?_of_lt (q := s.storeQueue) (Nat.le_refl _)
        (hlt.trans (IndexedQueue.lt_of_get? hget).2)
      rcases ((h.inv.entry _ a ha).passed hlt).2 with hw | hpre
      · have hc := hset _ a ha hlt hw
        rw [(h.live.entry _ a ha).front rfl] at hc
        cases hc
      · exact hopen r hreq hll _ a hlt ha hpre
    simp [LSQUnit.ordered, hhead]

theorem Settled.inFlight (hset : Settled s) (h : Ready cfg s) :
    (cfg.needsTSO && s.storeInFlight) = false := by
  cases hin : s.storeInFlight with
  | false => exact Bool.and_false _
  | true =>
    obtain ⟨-, idx, e, hflight⟩ := h.live.inFlight hin
    have hc := hset idx e hflight.get hflight.passed (.inr hflight.sent)
    rw [hflight.completed] at hc
    cases hc

/-- The ports are freed. -/
theorem tick_step (s : LSQUnit) : (unskipped cfg).step s .tick { s with usedStorePorts := 0 } :=
  ⟨⟨trivial, rfl⟩, trivial⟩

theorem tick_port (hports : 0 < cfg.cacheStorePorts) (s : LSQUnit) :
    ({ s with usedStorePorts := 0 } : LSQUnit).cachePortAvailable cfg = true :=
  decide_eq_true hports

/-- One cycle: the pointer moves, or a packet of the store it is at is sent. -/
theorem exists_cycle (hports : 0 < cfg.cacheStorePorts) (h : Ready cfg s)
    (hget : s.storeQueue.get? s.storeWBIt = some e) (hcan : e.canWB = true)
    (hopen : ∀ r, e.request = some r → (r.isLLSC || r.isRelease) = true →
      ∀ j a, j < s.storeWBIt → s.storeQueue.get? j = some a → ¬ s.Prefetches a) :
    ∃ t, Leads cfg s t ∧ (s.storeWBIt < t.storeWBIt ∨
      t.storeWBIt = s.storeWBIt ∧ t.leftToSend < s.leftToSend) := by
  obtain ⟨t₁, h₁, hwb₁, hahead, hset⟩ := exists_settled h
  have hget₁ : t₁.storeQueue.get? t₁.storeWBIt = some e := by
    rw [hahead _ (Nat.le_of_eq hwb₁.symm), hwb₁]
    exact hget
  have hopen₁ : ∀ r, e.request = some r → (r.isLLSC || r.isRelease) = true →
      ∀ j a, j < t₁.storeWBIt → t₁.storeQueue.get? j = some a → ¬ t₁.Prefetches a := by
    intro r hreq hll j a hj ha hpre
    obtain ⟨b, hb, hpre'⟩ := h₁.follows.prefetches h.inv ha hpre
    exact hopen r hreq hll j b (hwb₁ ▸ hj) hb hpre'
  have hleft₁ : t₁.leftToSend = s.leftToSend := by
    unfold leftToSend
    rw [hget₁, hget]
  -- the next cycle: the ports are free, and the D-cache refuses
  have h₂ : Leads cfg s { t₁ with usedStorePorts := 0 } :=
    h₁.trans (.of_step h₁.ready ⟨rfl, rfl⟩ (tick_step t₁))
  have hord : ∀ r, e.request = some r →
      ({ t₁ with usedStorePorts := 0 } : LSQUnit).ordered r = true :=
    fun r hreq => hset.ordered h₁.ready hget₁ hopen₁ hreq
  obtain ⟨l, t₃, hcall, hrun, hl, hmoves⟩ := writebackStores_moves h₂.ready
    (tick_port hports t₁) hget₁ hcan (hset.inFlight h₁.ready) hord
  have h₃ := h₂.trans (.of_call h₂.ready hcall hrun hl)
  rcases hmoves with hlt | ⟨hwb₃, hblk, hle⟩
  · exact ⟨t₃, h₃, .inl (hwb₁ ▸ hlt)⟩
  -- the store is blocked: in the cycle after that the D-cache is ready again
  have h₄ := h₃.trans (.of_step h₃.ready ⟨rfl, rfl⟩ (tick_step t₃))
  obtain ⟨u, hst, hsent⟩ := recvReqRetry_sends h₄.ready (tick_port hports t₃) hblk
  refine ⟨u, h₄.trans (.of_step h₄.ready ⟨rfl, rfl⟩ hst), ?_⟩
  have hwb : t₃.storeWBIt = s.storeWBIt := hwb₃.trans hwb₁
  rcases hsent with hlt | ⟨hwbu, hlt⟩
  · exact .inl (hwb ▸ hlt)
  · exact .inr ⟨hwbu.trans hwb, Nat.lt_of_lt_of_le hlt (hle.trans_eq hleft₁)⟩

end Cycles

section Released

theorem exists_youngest (l : List SQEntry) : ∃ n, ∀ a ∈ l, a.inst ≤ n := by
  induction l with
  | nil => exact ⟨0, by simp⟩
  | cons b l ih =>
    obtain ⟨n, hn⟩ := ih
    refine ⟨max b.inst n, fun a ha => ?_⟩
    rcases List.mem_cons.mp ha with rfl | ha
    · exact Nat.le_max_left ..
    · exact (hn a ha).trans (Nat.le_max_right ..)

theorem commitEntries_canWB (youngest : Nat) (l : List SQEntry) (n : Nat)
    (h : ∀ a ∈ l.take n, a.inst ≤ youngest) {k : Nat} (hk : k < n) {a : SQEntry}
    (ha : (commitEntries youngest l).1[k]? = some a) : a.canWB = true := by
  induction l generalizing n k with
  | nil => simp [commitEntries] at ha
  | cons b l ih =>
    obtain ⟨n, rfl⟩ : ∃ m, n = m + 1 := ⟨n - 1, by omega⟩
    have hb : b.inst ≤ youngest := h b (by simp)
    have htail : ∀ a ∈ l.take n, a.inst ≤ youngest := fun a ha => h a (by simp [ha])
    simp only [commitEntries, Nat.not_lt.mpr hb, if_false] at ha
    cases k with
    | zero =>
      split at ha
      · rename_i hcan
        cases ha
        exact hcan
      · cases ha
        rfl
    | succ k =>
      split at ha
      · exact ih n htail (by omega) ha
      · exact ih n htail (by omega) ha

/-- Instructions retire. -/
theorem exists_retired (h : Ready cfg s) (is : List Nat) : ∃ t, Leads cfg s t ∧
    t.storeQueue = s.storeQueue ∧ t.storeWBIt = s.storeWBIt ∧
    ∀ i, i ∈ is ∨ (s.insts i).committed = true → (t.insts i).committed = true := by
  induction is with
  | nil => exact ⟨s, .refl h, rfl, rfl, fun i hi => hi.resolve_left List.not_mem_nil⟩
  | cons i is ih =>
    obtain ⟨t, hleads, hq, hwb, hcom⟩ := ih
    have hst : (unskipped cfg).step t (.retire i)
        { t with insts := t.insts.modify i DynInst.setCommitted } := ⟨⟨trivial, rfl⟩, trivial⟩
    refine ⟨_, hleads.trans (.of_step hleads.ready ⟨rfl, rfl⟩ hst), hq, hwb, fun k hk => ?_⟩
    show (t.insts.modify i DynInst.setCommitted k).committed = true
    rw [Insts.modify_apply]
    split
    · rfl
    · rename_i hne
      exact hcom k (hk.imp_left fun hk => (List.mem_cons.mp hk).resolve_left hne)

/-- The stores up to `idx` retire, where they have not, and are released for writeback. -/
theorem exists_released (h : Ready cfg s) (idx : Nat) : ∃ t, Leads cfg s t ∧
    t.storeWBIt = s.storeWBIt ∧
    ∀ k a, k ≤ idx → t.storeQueue.get? k = some a → a.canWB = true := by
  obtain ⟨youngest, hyoung⟩ :=
    exists_youngest (s.storeQueue.items.take (idx + 1 - s.storeQueue.head))
  obtain ⟨t, hleads, hq, hwb, hcom⟩ := exists_retired h
    ((s.storeQueue.items.filter fun a => decide (a.inst ≤ youngest)).map (·.inst))
  have hleg : (Op.commitStores youngest).Legal t := by
    intro a ha hle
    rw [hq] at ha
    exact hcom _ (.inl (List.mem_map_of_mem (List.mem_filter.mpr ⟨ha, by simpa using hle⟩)))
  have hst : (unskipped cfg).step t (.commitStores youngest) (t.commitStores youngest) :=
    ⟨⟨hleg, rfl⟩, trivial⟩
  refine ⟨_, hleads.trans (.of_step hleads.ready ⟨rfl, rfl⟩ hst), hwb, fun k a hk ha => ?_⟩
  have hl := IndexedQueue.lt_of_get? ha
  have hhead : s.storeQueue.head ≤ k := hq ▸ hl.1
  have hget : (commitEntries youngest s.storeQueue.items).1[k - s.storeQueue.head]? = some a := by
    rw [IndexedQueue.get?, if_pos hl.1] at ha
    rw [← hq]
    exact ha
  exact commitEntries_canWB youngest _ _ hyoung (by omega) hget

end Released

section Progress

/-- A store conditional or a release that is not written yet, at or before `idx`, stands behind a
data prefetch. -/
def HeldUp (s : LSQUnit) (idx : Nat) : Prop :=
  ∃ k e r j a, s.storeWBIt ≤ k ∧ k ≤ idx ∧ s.storeQueue.get? k = some e ∧ e.request = some r ∧
    (r.isLLSC || r.isRelease) = true ∧ j < k ∧ s.storeQueue.get? j = some a ∧ s.Prefetches a

theorem Follows.heldUp (h : Follows s t) (hinv : Inv s) (hheld : t.HeldUp idx) :
    s.HeldUp idx := by
  obtain ⟨k, e', r', j, a', hwb, hk, he', hr', hll, hj, ha', hpre'⟩ := hheld
  obtain ⟨e, he, hstems⟩ := h.comes.entry k e' he'
  obtain ⟨r, hr, hllsc, hrel⟩ := hstems.request r' hr'
  obtain ⟨a, ha, hpre⟩ := h.prefetches hinv ha' hpre'
  exact ⟨k, e, r, j, a, h.pointer.trans hwb, hk, he, hr, by rw [← hllsc, ← hrel, hll], hj, ha,
    hpre⟩

/-- A way on leads past every store that is not held up. -/
theorem exists_passes (hports : 0 < cfg.cacheStorePorts) (h : Ready cfg s)
    (hidx : idx < s.storeQueue.endIdx) (hopen : ¬ s.HeldUp idx) :
    ∃ ls t, (calls cfg).Run s ls t ∧ idx < t.storeWBIt := by
  obtain ⟨s₁, h₁, -, hcan⟩ := exists_released h idx
  have hstep : ∀ t, Leads cfg s t ∧ Leads cfg s₁ t → ¬ idx < t.storeWBIt →
      ∃ ls u, (calls cfg).Run t ls u ∧ (Leads cfg s u ∧ Leads cfg s₁ u) ∧
        (idx < u.storeWBIt ∨ toLex (idx - u.storeWBIt, u.leftToSend) <
          toLex (idx - t.storeWBIt, t.leftToSend)) := by
    rintro t ⟨ht, ht₁⟩ hle
    have hle := Nat.le_of_not_lt hle
    have hend : t.storeWBIt < t.storeQueue.endIdx := by
      rw [ht.follows.comes.endIdx]
      omega
    obtain ⟨e, hget⟩ := IndexedQueue.get?_of_lt ht.ready.inv.head_le hend
    obtain ⟨a, ha, hstems⟩ := ht₁.follows.comes.entry _ e hget
    obtain ⟨u, hu, hmove⟩ := exists_cycle hports ht.ready hget (hstems.canWB (hcan _ a hle ha))
      fun r hreq hll j b hj hb hpre => hopen (ht.follows.heldUp h.inv
        ⟨_, e, r, j, b, Nat.le_refl _, hle, hget, hreq, hll, hj, hb, hpre⟩)
    obtain ⟨ls, hrun⟩ := hu.run
    refine ⟨ls, u, hrun, ⟨ht.trans hu, ht₁.trans hu⟩, ?_⟩
    rw [Prod.Lex.toLex_lt_toLex]
    rcases hmove with hlt | ⟨hwb, hlt⟩
    · by_cases hdone : idx < u.storeWBIt
      · exact .inl hdone
      · exact .inr (.inl (by dsimp only; omega))
    · exact .inr (.inr ⟨by rw [hwb], hlt⟩)
  obtain ⟨ls, t, hrun, -, hdone⟩ := Transition.System.Run.of_rank
    (fun t : LSQUnit => toLex (idx - t.storeWBIt, t.leftToSend)) hstep ⟨h₁, .refl h₁.ready⟩
  obtain ⟨ls₁, hrun₁⟩ := h₁.run
  exact ⟨ls₁ ++ ls, t, hrun₁.trans hrun, hdone⟩

/-- **No store is lost.** In every state reached the pointer has passed a store that may write
back and carries data only if that store is sent or completed, and `storesToWB` counts the stores
that may write back and are not completed. On every way on from there a store that may write back
and carries data waits in the queue until it is the one being written; and if it is not held up,
a way on is there on which it is the one being written. -/
theorem no_store_lost (h : (unskipped cfg).Reaches l s) :
    (∀ idx e, s.storeQueue.get? idx = some e → idx < s.storeWBIt → e.canWB = true →
      s.CarriesData e → e.Written) ∧
    s.storesToWB = s.storeQueue.count SQEntry.toWB ∧
    ∀ idx e, s.storeQueue.get? idx = some e → e.canWB = true → s.CarriesData e →
      s.storeWBIt ≤ idx →
      (∀ l' s', (unskipped cfg).Run s l' s' →
        (s'.storeWBIt ≤ idx ∧ ∃ e', s'.storeQueue.get? idx = some e' ∧ Keeps e e') ∨
          WrittenBetween cfg (PortFree cfg) s s' idx e) ∧
      (0 < cfg.cacheStorePorts → ¬ s.HeldUp idx →
        ∃ ls s', (calls cfg).Run s ls s' ∧ WrittenBetween cfg (PortFree cfg) s s' idx e) := by
  have hs := ready h
  refine ⟨fun idx e hget hlt _ hdata => ?_, hs.inv.count,
    fun idx e hget hcan hdata hle => ⟨fun l' s' hrun => ?_, fun hports hopen => ?_⟩⟩
  · exact ((hs.inv.entry idx e hget).passed hlt).2.resolve_right hdata.not_prefetches
  · exact hs.inv.waits_until_written (fun _ _ => id) hrun hget (.inl hcan) hdata hle
  · obtain ⟨ls, t, hrun, hpassed⟩ :=
      exists_passes hports hs (IndexedQueue.lt_of_get? hget).2 hopen
    refine ⟨ls, t, hrun, ?_⟩
    rcases hs.inv.waits_until_written (fun _ _ => id) (calls_run hrun) hget (.inl hcan) hdata hle
      with ⟨hwait, -⟩ | hwritten
    · omega
    · exact hwritten

/-- One store commits and may write back. -/
def oneStore : List Op :=
  [.insertStore 1 {}, .executeStore 0 8 {}, .retire 1, .commitStores 1]

theorem no_store_lost_oneStore : ∃ s e ls s', s.storeQueue.get? 0 = some e ∧ s.storeWBIt = 0 ∧
    (calls ⟨false, 1⟩).Run s ls s' ∧ WrittenBetween ⟨false, 1⟩ (PortFree ⟨false, 1⟩) s s' 0 e := by
  have hrun : (exec ⟨false, 1⟩ (PortFree ⟨false, 1⟩) (fun _ => {}) oneStore).any (fun s =>
      decide (s.storeWBIt = 0 ∧ ∃ e ∈ s.storeQueue.get? 0, e.canWB = true ∧ s.CarriesData e)) =
        true := by decide
  obtain ⟨s, hs, hwait⟩ := (Option.any_eq_true _ _).mp hrun
  obtain ⟨hwb, e, hget, hcan, hdata⟩ := of_decide_eq_true hwait
  obtain ⟨ls, s', hcalls, hwritten⟩ := ((no_store_lost (exec_reaches hs)).2.2 0 e hget hcan hdata
    (Nat.le_of_eq hwb)).2 Nat.one_pos (by rintro ⟨k, -, -, j, -, -, hk, -, -, -, hj, -⟩; omega)
  exact ⟨s, e, ls, s', hget, hwb, hcalls, hwritten⟩

/-- Two stores commit; the only port is taken by the first. -/
def twoStores : List Op :=
  [.insertStore 1 {}, .insertStore 2 {}, .executeStore 0 8 {}, .executeStore 1 8 {}, .retire 1,
    .retire 2, .commitStores 2, .writebackIter accepting, .writebackIter accepting]

/-- The second of `twoStores` is passed, although it is neither sent nor completed. -/
theorem committed_store_skipped : ∃ s, (system ⟨false, 1⟩).Reaches twoStores s ∧
    ∃ e, s.storeQueue.get? 1 = some e ∧ 1 < s.storeWBIt ∧ e.canWB = true ∧ s.CarriesData e ∧
      ¬ e.Written := by
  have hrun : (exec ⟨false, 1⟩ (PortFree ⟨false, 1⟩) (fun _ => {}) (twoStores.take 8)).any (fun s =>
      decide (s.storeWBIt = 1 ∧ ¬ PortFree ⟨false, 1⟩ s (.writebackIter accepting)) &&
        (s.step ⟨false, 1⟩ (.writebackIter accepting)).any fun t =>
          decide (∀ e ∈ t.storeQueue.get? 1, t.CarriesData e)) = true := by decide
  obtain ⟨s, hs, hlast⟩ := (Option.any_eq_true _ _).mp hrun
  rw [Bool.and_eq_true, decide_eq_true_eq] at hlast
  obtain ⟨⟨hwb, hskip⟩, hlast⟩ := hlast
  obtain ⟨t, ht, hdata⟩ := (Option.any_eq_true _ _).mp hlast
  have hreach := exec_reaches hs
  obtain ⟨e, hget, hlt, hcan, hunwritten⟩ := skips_unwritten (ready hreach).inv ht hskip
  rw [hwb] at hget hlt
  exact ⟨t, hreach.of_guard.snoc ⟨trivial, ht⟩, e, hget, hlt, hcan,
    of_decide_eq_true hdata e hget, hunwritten⟩

end Progress

end LSQUnit
end Runahead
end Gem5
