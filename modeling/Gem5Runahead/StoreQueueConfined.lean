import Gem5Runahead.StoreQueueWriteback

/-!
# StoreQueueConfined

Where the packets of a store go, and which effects a step has. What goes to the runahead cache
belongs to marked stores, and the packets of the others go to the D-cache, in every run in which
no normal store is skipped. A step has an effect outside the runahead cache for a marked store
only if it writes back one with a local-access request (`LocalFree`): that branch of the writeback
loop calls the request's accessor without a look at the mode.

* `Confined` — a request's flag agrees with its instruction, the packets of an unmarked store are
  D-cache writes, and what is written to the runahead cache belongs to marked stores.
* `Emits` — what one step adds to the effects; `step_confined` is the step lemma of both.
-/

namespace Gem5
namespace Runahead

/-- The store that has an effect outside the runahead cache. -/
def Effect.outside : Effect → Option Nat
  | .dcacheWrite i _ => some i
  | .localAccess i => some i
  | .rcacheWrite _ _ => none
  | .storeConditionalFailed _ => none

namespace LSQUnit

/-- The round does not write back a marked store by its local accessor. -/
def LocalFree (s : LSQUnit) : Op → Prop
  | .writebackIter _ => s.isStoreBlocked = false → ∀ e ∈ s.storeQueue.get? s.storeWBIt,
    s.CarriesData e → (s.insts e.inst).runahead = true →
      (s.insts e.inst).isStoreConditional = false →
        ∀ r ∈ e.request, s.ordered r = true → r.isLocalAccess = false
  | _ => True

instance (s : LSQUnit) : (op : Op) → Decidable (s.LocalFree op)
  | .writebackIter _ => inferInstanceAs (Decidable (_ → ∀ e ∈ s.storeQueue.get? _, _))
  | .insertStore .. | .executeStore .. | .retire _ | .commitStores _ | .enterRunahead
  | .exitRunahead | .squash _ | .tick | .cacheGotBlocked | .recvReqRetry _ | .recvTimingResp _
  | .writebackBlockedStore _ => inferInstanceAs (Decidable True)

variable {cfg : LSQParams} {env : Answers} {s s' t : LSQUnit} {idx : Nat} {e : SQEntry}
  {r r' : LSQRequest} {goOn : Bool}

structure Confined (s : LSQUnit) : Prop where
  flag : ∀ idx e r, s.storeQueue.get? idx = some e → e.request = some r →
    r.runahead = (s.insts e.inst).runahead
  logged : ∀ idx e r, s.storeQueue.get? idx = some e → e.request = some r →
    (s.insts e.inst).runahead = false → ∀ k < r.sentPackets, .dcacheWrite e.inst k ∈ s.effects
  marked : ∀ i k, .rcacheWrite i k ∈ s.effects →
    i < s.globalSeqNum ∧ (s.insts i).runahead = true

/-- The step adds effects at the end: outside the runahead cache only for unmarked stores. -/
def Emits (s s' : LSQUnit) : Prop :=
  ∃ new, s'.effects = s.effects ++ new ∧
    ∀ x ∈ new, ∀ i, x.outside = some i → (s.insts i).runahead = false

theorem Emits.of_eq (h : s'.effects = s.effects) : Emits s s' := by
  refine ⟨[], by rw [h, List.append_nil], fun x hx => ?_⟩
  cases hx

/-- What a step `op` makes of the effects: none is taken back, and with `LocalFree` none outside
the runahead cache is added for a marked store. -/
def Appends (s : LSQUnit) (op : Op) (s' : LSQUnit) : Prop :=
  s.effects <+: s'.effects ∧ (s.LocalFree op → Emits s s')

theorem Emits.appends (h : Emits s s') (op : Op) : Appends s op s' := by
  refine ⟨?_, fun _ => h⟩
  obtain ⟨new, heff, -⟩ := h
  exact ⟨new, heff.symm⟩

theorem confined_of_emits {op : Op} (h : Confined s' ∧ Emits s s') :
    Confined s' ∧ Appends s op s' :=
  h.imp_right fun he => he.appends op

theorem init_confined (insts : Insts) : Confined (init insts) := by
  have hnone : ∀ idx, (init insts).storeQueue.get? idx = none := by
    intro idx
    simp [init, IndexedQueue.get?]
  refine ⟨?_, ?_, ?_⟩
  · intro idx e r h
    rw [hnone] at h
    cases h
  · intro idx e r h
    rw [hnone] at h
    cases h
  · intro i k h
    cases h

section Quiet

/-- Every request after the step was there before, with its flag and its packets sent. -/
def SameRequests (s s' : LSQUnit) : Prop :=
  ∀ idx e' r', s'.storeQueue.get? idx = some e' → e'.request = some r' →
    ∃ e r, s.storeQueue.get? idx = some e ∧ e.inst = e'.inst ∧ e.request = some r ∧
      r'.runahead = r.runahead ∧ r'.sentPackets = r.sentPackets

theorem SameRequests.of_eq (h : s'.storeQueue = s.storeQueue) : SameRequests s s' := by
  intro idx e' r' hget hreq
  rw [h] at hget
  exact ⟨e', r', hget, rfl, hreq, rfl, rfl⟩

theorem SameRequests.of_completes {wb : Nat} (h : Completes cfg s idx e wb s') :
    SameRequests s s' := by
  intro j e' r' hget hreq
  rw [h.queue] at hget
  obtain ⟨b, hb, rfl⟩ := get?_of_completeAt hget
  by_cases hj : j = idx
  · rw [if_pos hj] at hreq ⊢
    exact ⟨b, r', hb, rfl, hreq, rfl, rfl⟩
  · rw [if_neg hj] at hreq ⊢
    exact ⟨b, r', hb, rfl, hreq, rfl, rfl⟩

theorem SameRequests.modifyRequest {f : LSQRequest → LSQRequest}
    (hf : ∀ r, (f r).runahead = r.runahead ∧ (f r).sentPackets = r.sentPackets) :
    SameRequests s (s.modifyRequest idx f) := by
  intro j e' r' hget hreq
  rw [LSQUnit.modifyRequest, modifyEntry_get?] at hget
  split at hget
  · obtain ⟨e, he, rfl⟩ := Option.map_eq_some_iff.mp hget
    obtain ⟨r, hr, rfl⟩ := Option.map_eq_some_iff.mp hreq
    exact ⟨e, r, he, rfl, hr, (hf r).1, (hf r).2⟩
  · exact ⟨e', r', hget, rfl, hreq, rfl, rfl⟩

theorem SameRequests.startWrite (hget : s.storeQueue.get? s.storeWBIt = some e)
    (hreq : e.request = some r) (hr' : Started r r') : SameRequests s (s.startWrite r') := by
  intro j a r1 ha hr1
  by_cases hj : j = s.storeWBIt
  · subst hj
    rw [startWrite_get? hget] at ha
    cases ha
    cases hr1
    exact ⟨e, r, hget, rfl, hreq, hr'.runahead, hr'.sentPackets⟩
  · rw [startWrite_get?_of_ne s r' hj] at ha
    exact ⟨a, r1, ha, rfl, hr1, rfl, rfl⟩

/-- A step that sends nothing and marks no instruction stays confined. -/
theorem Confined.of_same (h : Confined s) (hinv : Inv s) (hreq : SameRequests s s')
    (heff : ∃ new, s'.effects = s.effects ++ new ∧ ∀ i k, .rcacheWrite i k ∉ new)
    (hseq : s.globalSeqNum ≤ s'.globalSeqNum)
    (hins : ∀ i < s.globalSeqNum, (s'.insts i).runahead = (s.insts i).runahead) :
    Confined s' := by
  obtain ⟨new, heff, hnew⟩ := heff
  refine ⟨?_, ?_, ?_⟩
  · intro idx e' r' hget' hr'
    obtain ⟨e, r, hget, hi, hr, hflag, -⟩ := hreq idx e' r' hget' hr'
    rw [← hi, hins _ (hinv.below idx e hget), hflag]
    exact h.flag idx e r hget hr
  · intro idx e' r' hget' hr' hmode k hk
    obtain ⟨e, r, hget, hi, hr, -, hsent⟩ := hreq idx e' r' hget' hr'
    rw [← hi, hins _ (hinv.below idx e hget)] at hmode
    rw [← hi, heff]
    exact List.mem_append_left _ (h.logged idx e r hget hr hmode k (hsent ▸ hk))
  · intro i k hmem
    rw [heff] at hmem
    rcases List.mem_append.mp hmem with hold | hmem
    · obtain ⟨hlt, hmode⟩ := h.marked i k hold
      exact ⟨Nat.lt_of_lt_of_le hlt hseq, by rw [hins i hlt, hmode]⟩
    · exact absurd hmem (hnew i k)

/-- The step sends nothing: no effect, and the same requests. -/
theorem Confined.quiet (h : Confined s) (hinv : Inv s) (hreq : SameRequests s s')
    (heff : s'.effects = s.effects) (hseq : s.globalSeqNum ≤ s'.globalSeqNum)
    (hins : ∀ i < s.globalSeqNum, (s'.insts i).runahead = (s.insts i).runahead) :
    Confined s' ∧ Emits s s' :=
  ⟨h.of_same hinv hreq ⟨[], by rw [heff, List.append_nil], fun _ _ => List.not_mem_nil⟩ hseq hins,
    .of_eq heff⟩

theorem runahead_modify (insts : Insts) (i j : Nat) {f : DynInst → DynInst}
    (hf : ∀ x, (f x).runahead = x.runahead) : (insts.modify i f j).runahead = (insts j).runahead := by
  rw [Insts.modify_apply]
  split
  · exact hf _
  · rfl

end Quiet

section Sends

/-- Sending packets of a store stays confined: its packets go where its flag says. -/
theorem Sends.confined {k : Nat} (h : Confined s) (hinv : Inv s)
    (hget : s.storeQueue.get? idx = some e) (hreq : e.request = some r)
    (hs : Sends s idx e r k t r') : Confined t ∧ Emits s t := by
  have hflag := h.flag idx e r hget hreq
  have hmem : ∀ x, x ∈ (List.range' r.sentPackets k).map (r.packetEffect e.inst) ↔
      ∃ j, r.sentPackets ≤ j ∧ j < r.sentPackets + k ∧ r.packetEffect e.inst j = x := by
    intro x
    simp only [List.mem_map, List.mem_range'_1, and_assoc]
  refine ⟨⟨?_, ?_, ?_⟩, _, hs.effects, ?_⟩
  · intro j a r1 ha hr1
    rw [hs.insts]
    by_cases hj : j = idx
    · subst hj
      cases (hs.get?_self hget).symm.trans ha
      cases hr1
      rw [hs.runahead]
      exact hflag
    · exact h.flag j a r1 ((hs.get?_of_ne hj).symm.trans ha) hr1
  · intro j a r1 ha hr1 hmode m hm
    rw [hs.insts] at hmode
    rw [hs.effects]
    by_cases hj : j = idx
    · subst hj
      cases (hs.get?_self hget).symm.trans ha
      cases hr1
      have hmode' : r.runahead = false := hflag.trans hmode
      by_cases hm' : m < r.sentPackets
      · exact List.mem_append_left _ (h.logged j e r hget hreq hmode m hm')
      · rw [hs.sentPackets] at hm
        refine List.mem_append_right _ ((hmem _).mpr ⟨m, Nat.le_of_not_lt hm', hm, ?_⟩)
        simp [LSQRequest.packetEffect, hmode']
    · exact List.mem_append_left _
        (h.logged j a r1 ((hs.get?_of_ne hj).symm.trans ha) hr1 hmode m hm)
  · intro i m hx
    rw [hs.effects] at hx
    rw [hs.globalSeqNum, hs.insts]
    rcases List.mem_append.mp hx with hold | hx
    · exact h.marked i m hold
    · obtain ⟨j, -, -, hj⟩ := (hmem _).mp hx
      unfold LSQRequest.packetEffect at hj
      split at hj
      · rename_i hra
        cases hj
        exact ⟨hinv.below idx e hget, hflag.symm.trans hra⟩
      · cases hj
  · intro x hx i hout
    obtain ⟨j, -, -, rfl⟩ := (hmem x).mp hx
    unfold LSQRequest.packetEffect at hout
    split at hout
    · cases hout
    · rename_i hra
      cases hout
      rw [← hflag]
      simpa using hra

theorem sendAtPointer_confined (h : Confined s) (hinv : Inv s)
    (hget : s.storeQueue.get? s.storeWBIt = some e) (hreq : e.request = some r)
    (hbuilt : r.built = true) (hst : s.sendAtPointer cfg env = some s') :
    Confined s' ∧ Emits s s' := by
  have hlt := (((hinv.entry _ _ hget).ahead (Nat.le_refl _)).2 r hreq).1
  obtain ⟨k, t, r', hs, hout⟩ := sendAtPointer_cases hget hreq hbuilt hlt hst
  obtain ⟨ht, hemits⟩ := hs.confined h hinv hget hreq
  rcases hout with ⟨-, -, rfl⟩ | ⟨-, -, rfl⟩
  · have hins : ∀ i, ((t.storePostSend cfg { e with request := some r' }).insts i).runahead =
        (t.insts i).runahead := by
      intro i
      simp only [storePostSend]
      split
      · rfl
      · exact runahead_modify _ _ _ fun _ => rfl
    refine ⟨⟨?_, ?_, ?_⟩, hemits⟩
    · intro j a r1 ha hr1
      rw [hins]
      exact ht.flag j a r1 ha hr1
    · intro j a r1 ha hr1 hmode
      rw [hins] at hmode
      exact ht.logged j a r1 ha hr1 hmode
    · intro i m hx
      rw [hins]
      exact ht.marked i m hx
  · exact ⟨ht, hemits⟩

theorem writebackBlockedStore_confined (h : Confined s) (hinv : Inv s)
    (hst : s.writebackBlockedStore cfg env = some s') : Confined s' ∧ Emits s s' := by
  unfold writebackBlockedStore at hst
  split at hst
  · rename_i hb
    obtain ⟨e, r, hat⟩ := hinv.blocked hb
    exact sendAtPointer_confined h hinv hat.get hat.request hat.built hst
  · cases hst

end Sends

section Steps

theorem Round.confined (h : Confined s) (hinv : Inv s)
    (hget : s.storeQueue.get? s.storeWBIt = some e) (hround : Round cfg env s e t goOn) :
    Confined t ∧ Appends s (.writebackIter env) t := by
  cases hround with
  | noPort | wait | prefetch =>
    exact confined_of_emits <| h.quiet hinv (.of_eq rfl) rfl (Nat.le_refl _) fun _ _ => rfl
  | empty hblk hsize hco =>
    refine confined_of_emits <| h.quiet hinv (.of_completes hco) hco.effects
      (Nat.le_of_eq hco.globalSeqNum.symm) ?_
    intro i _
    rw [hco.insts]
    exact runahead_modify _ _ _ fun _ => rfl
  | @complete r r' x t hblk hdata hreq hr' hord hx hco =>
    have hsame : SameRequests s t := by
      intro j a r1 ha hr1
      obtain ⟨b, r2, hb, hi, hr2, hf, hn⟩ := SameRequests.of_completes hco j a r1 ha hr1
      obtain ⟨c, r3, hc, hi', hr3, hf', hn'⟩ := SameRequests.startWrite hget hreq hr' j b r2 hb hr2
      exact ⟨c, r3, hc, hi'.trans hi, hr3, hf.trans hf', hn.trans hn'⟩
    have heff : t.effects = s.effects ++ [x] := hco.effects
    have hins : ∀ i, (t.insts i).runahead = (s.insts i).runahead := by
      intro i
      rw [hco.insts]
      exact runahead_modify _ _ _ fun _ => rfl
    refine ⟨h.of_same hinv hsame ⟨[x], heff, fun i k hmem => ?_⟩
      (Nat.le_of_eq hco.globalSeqNum.symm) fun i _ => hins i, ⟨[x], heff.symm⟩, fun hfree =>
        ⟨[x], heff, fun y hy i hout => ?_⟩⟩
    · rw [List.mem_singleton] at hmem
      rcases hx with ⟨rfl, -⟩ | ⟨rfl, -, -⟩ <;> cases hmem
    · rw [List.mem_singleton] at hy
      subst hy
      rcases hx with ⟨rfl, -⟩ | ⟨rfl, hnsc, hloc⟩
      · cases hout
      · cases hout
        -- a local access: `LocalFree` says that the store is not marked
        cases hmode : (s.insts e.inst).runahead with
        | false => rfl
        | true =>
          have hno := hfree hblk e hget hdata hmode hnsc r hreq hord
          rw [hloc] at hno
          cases hno
  | @send r r' t hblk hdata hreq hr' hloc hsend =>
    have h1 : Confined (s.startWrite r') :=
      h.of_same hinv (.startWrite hget hreq hr') ⟨[], (List.append_nil _).symm,
        fun _ _ => List.not_mem_nil⟩ (Nat.le_refl _) fun _ _ => rfl
    obtain ⟨ht, new, heff, hout⟩ := sendAtPointer_confined h1 (hinv.startWrite hget hreq hr')
      (startWrite_get? hget r') rfl hr'.built hsend
    exact confined_of_emits ⟨ht, new, heff, hout⟩

/-- The fresh request of a store that executes carries the store's flag. -/
theorem Confined.executeStore {size : StoreSize} (h : Confined s) (hsent : r.sentPackets = 0)
    (hflag : ∀ e, s.storeQueue.get? idx = some e → r.runahead = (s.insts e.inst).runahead)
    (hst : s.executeStore idx size r = some s') : Confined s' ∧ Emits s s' := by
  obtain ⟨e, w, hget, rfl⟩ := executeStore_spec hst
  have hget' := s.executed_get? idx size r w
  refine ⟨⟨?_, ?_, h.marked⟩, .of_eq rfl⟩
  · intro j a r1 ha hr1
    rw [hget'] at ha
    split at ha
    · rename_i hj
      subst hj
      rw [hget] at ha
      cases ha
      cases hr1
      exact hflag e hget
    · exact h.flag j a r1 ha hr1
  · intro j a r1 ha hr1 hmode k hk
    rw [hget'] at ha
    split at ha
    · rename_i hj
      subst hj
      rw [hget] at ha
      cases ha
      cases hr1
      rw [hsent] at hk
      cases hk
    · exact h.logged j a r1 ha hr1 hmode k hk

/-- An instruction and its request are marked together. -/
theorem Confined.enterRunahead (h : Confined s) :
    Confined s.enterRunahead ∧ Emits s s.enterRunahead := by
  have hget : ∀ j, s.enterRunahead.storeQueue.get? j = (s.storeQueue.get? j).map fun e =>
      if (s.insts e.inst).committed then e else e.onRequest .setRunahead :=
    fun j => IndexedQueue.get?_map ..
  have hins : ∀ i, (s.enterRunahead.insts i).runahead =
      ((s.insts i).runahead || !(s.insts i).committed) := by
    intro i
    simp only [LSQUnit.enterRunahead]
    cases hc : (s.insts i).committed <;> simp [DynInst.setRunahead]
  refine ⟨⟨?_, ?_, ?_⟩, .of_eq rfl⟩
  · intro j a r1 ha hr1
    rw [hget] at ha
    obtain ⟨e, he, rfl⟩ := Option.map_eq_some_iff.mp ha
    rw [hins]
    cases hc : (s.insts e.inst).committed with
    | true =>
      simp only [hc, if_true] at hr1 ⊢
      simpa [hc] using h.flag j e r1 he hr1
    | false =>
      simp only [hc, Bool.false_eq_true, if_false] at hr1 ⊢
      obtain ⟨r, hr, rfl⟩ := Option.map_eq_some_iff.mp hr1
      simp [SQEntry.onRequest, LSQRequest.setRunahead, hc]
  · intro j a r1 ha hr1 hmode k hk
    rw [hget] at ha
    obtain ⟨e, he, rfl⟩ := Option.map_eq_some_iff.mp ha
    rw [hins] at hmode
    cases hc : (s.insts e.inst).committed with
    | true =>
      simp only [hc, if_true] at hr1 hmode ⊢
      exact h.logged j e r1 he hr1 (by simpa [hc] using hmode) k hk
    | false =>
      simp [hc, SQEntry.onRequest] at hmode
  · intro i k hmem
    obtain ⟨hlt, hmode⟩ := h.marked i k hmem
    exact ⟨hlt, by rw [hins, hmode, Bool.true_or]⟩

/-- Every operation stays confined, and with `LocalFree` what it emits outside belongs to unmarked
stores. -/
theorem step_confined {op : Op} (h : Confined s) (hinv : Inv s) (hleg : op.Legal s)
    (hst : s.step cfg op = some s') : Confined s' ∧ Appends s op s' := by
  have hseq := step_globalSeqNum hinv hleg hst
  cases op with
  | insertStore i inst =>
    cases hst
    refine confined_of_emits <| h.quiet hinv (fun j a r1 ha hr1 => ?_) rfl hseq fun j hj => ?_
    · have hpush := IndexedQueue.get?_pushBack s.storeQueue { inst := i } j
      split at hpush
      · cases hpush.symm.trans ha
        cases hr1
      · exact ⟨a, r1, hpush.symm.trans ha, rfl, hr1, rfl, rfl⟩
    · have hi : s.globalSeqNum ≤ i := hleg.1
      have hne : j ≠ i := by omega
      simp [insertStore, Function.update_of_ne hne]
  | executeStore j size r =>
    exact confined_of_emits
      (h.executeStore hleg.1.2.2.1 (fun e hget => (hleg.2 e hget).2.2) hst)
  | retire i =>
    cases hst
    exact confined_of_emits <| h.quiet hinv (.of_eq rfl) rfl hseq
      fun j _ => runahead_modify _ _ _ fun _ => rfl
  | commitStores youngest =>
    cases hst
    refine confined_of_emits <| h.quiet hinv (fun j a r1 ha hr1 => ?_) rfl hseq fun _ _ => rfl
    obtain ⟨b, hb, rfl | rfl⟩ := commitStores_get? youngest ha
    · exact ⟨a, r1, hb, rfl, hr1, rfl, rfl⟩
    · exact ⟨b, r1, hb, rfl, hr1, rfl, rfl⟩
  | enterRunahead => exact Option.some.inj hst ▸ confined_of_emits h.enterRunahead
  | exitRunahead | tick | cacheGotBlocked =>
    cases hst
    exact confined_of_emits <| h.quiet hinv (.of_eq rfl) rfl hseq fun _ _ => rfl
  | squash n =>
    cases hst
    exact confined_of_emits <| h.quiet hinv (fun j a r1 ha hr1 =>
      ⟨a, r1, IndexedQueue.get?_of_dropBack ha, rfl, hr1, rfl, rfl⟩) rfl hseq fun _ _ => rfl
  | recvTimingResp j =>
    obtain ⟨a, r, -, -, hout⟩ := recvTimingResp_cases hst
    have hsame : SameRequests s (s.modifyRequest j .countResponse) :=
      .modifyRequest fun _ => ⟨rfl, rfl⟩
    rcases hout with ⟨-, hco⟩ | ⟨-, rfl⟩
    · refine confined_of_emits <| h.quiet hinv (fun m b r1 hb hr1 => ?_) hco.effects hseq fun i _ => ?_
      · obtain ⟨c, r2, hc, hi, hr2, hf, hn⟩ := SameRequests.of_completes hco m b r1 hb hr1
        obtain ⟨d, r3, hd, hi', hr3, hf', hn'⟩ := hsame m c r2 hc hr2
        exact ⟨d, r3, hd, hi'.trans hi, hr3, hf.trans hf', hn.trans hn'⟩
      · rw [hco.insts]
        exact runahead_modify _ _ _ fun _ => rfl
    · exact confined_of_emits <| h.quiet hinv hsame rfl hseq fun _ _ => rfl
  | recvReqRetry env =>
    have h1 : Confined { s with cacheBlocked := false } := ⟨h.flag, h.logged, h.marked⟩
    rcases recvReqRetry_cases hst with hst | rfl
    · obtain ⟨ht, new, heff, hout⟩ := writebackBlockedStore_confined h1 hinv.cacheReady hst
      exact confined_of_emits ⟨ht, new, heff, hout⟩
    · exact confined_of_emits ⟨h1, .of_eq rfl⟩
  | writebackBlockedStore env => exact confined_of_emits (writebackBlockedStore_confined h hinv hst)
  | writebackIter env =>
    obtain ⟨a, goOn, hat, -, hround⟩ := round_of_step hinv hst
    exact hround.confined h hinv hat

end Steps

end LSQUnit
end Runahead
end Gem5
