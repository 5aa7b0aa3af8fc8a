import Gem5Runahead.StoreQueueConfined
import Gem5Runahead.StoreQueueLive

/-!
# StoreQueueCalls

Whole calls of `writebackStores`. In every state reached without a skip a call returns: no
assertion of the code fails, and the fuel of `writebackLoop` is enough. While the D-cache refuses
every packet no port is used, so the call is one of the runs in which no store is skipped; and
either it moves the pointer, or the store at the pointer is blocked afterwards.

* `Ready` — the invariants together.
* `sendAtPointer_isSome`, `writebackIter_isSome` — the calls inside return.
* `writebackStores_total` — the whole function.
* `recvReqRetry_sends` — the cache takes at least one packet of a blocked store when it is ready.
-/

namespace Gem5
namespace Runahead
namespace LSQUnit

variable {cfg : LSQParams} {env : Answers} {s s' t : LSQUnit} {idx n : Nat} {e : SQEntry}
  {r r' : LSQRequest} {goOn : Bool} {l : List Op} {op : Op}

/-- The unit as long as no normal store is skipped. -/
abbrev unskipped (cfg : LSQParams) : Transition.System LSQUnit Op :=
  (system cfg).guard (PortFree cfg)

structure Ready (cfg : LSQParams) (s : LSQUnit) : Prop where
  inv : Inv s
  live : Live cfg s
  confined : Confined s

theorem Ready.step (h : Ready cfg s) (hst : (unskipped cfg).step s op s') : Ready cfg s' := by
  obtain ⟨⟨hleg, hst⟩, hfree⟩ := hst
  exact ⟨step_inv h.inv hleg hfree hst, step_live h.live h.inv hleg hfree hst,
    (step_confined h.confined h.inv hleg hst).1⟩

theorem Ready.run (h : Ready cfg s) (hrun : (unskipped cfg).Run s l s') : Ready cfg s' := by
  induction hrun with
  | nil => exact h
  | snoc _ hst ih => exact ih.step hst

theorem ready (h : (unskipped cfg).Reaches l s) : Ready cfg s := by
  refine h.invariant (I := Ready cfg) ?_ fun _ _ _ h hst => h.step hst
  rintro _ ⟨insts, rfl⟩
  exact ⟨init_inv insts, init_live insts, init_confined insts⟩

section Returns

theorem trySendPacket_isSome (cfg : LSQParams) (env : Answers)
    (hget : s.storeQueue.get? s.storeWBIt = some e) (hreq : e.request = some r)
    (hflag : r.runahead = (s.insts e.inst).runahead) :
    ∃ p, s.trySendPacket cfg env s.storeWBIt = some p := by
  simp only [trySendPacket, hget, hreq, Option.bind_eq_bind, Option.bind_some]
  split
  · rename_i hra
    rw [← hflag, hra]
    exact ⟨_, rfl⟩
  · split
    · split
      · exact ⟨_, rfl⟩
      · exact ⟨_, if_neg fun hne => hne rfl⟩
    · exact ⟨_, if_neg fun hne => hne rfl⟩

theorem sendPackets_isSome (hidx : idx = s.storeWBIt) (hget : s.storeQueue.get? idx = some e)
    (hreq : e.request = some r) (hflag : r.runahead = (s.insts e.inst).runahead) :
    ∃ t, sendPackets cfg env idx n s = some t := by
  induction n generalizing s e r with
  | zero => exact ⟨s, rfl⟩
  | succ n ih =>
    subst hidx
    obtain ⟨⟨t, m⟩, htry⟩ := trySendPacket_isSome cfg env hget hreq hflag
    obtain ⟨r1, hcases⟩ := trySendPacket_cases hget hreq htry
    rcases hcases with ⟨rfl, hs, -, -⟩ | ⟨rfl, -, -, -, -⟩
    · obtain ⟨u, hu⟩ := ih hs.storeWBIt.symm (hs.get?_self hget) rfl
        (by rw [hs.runahead, hs.insts]; exact hflag)
      exact ⟨u, by simp [sendPackets, htry, hu]⟩
    · exact ⟨t, by simp [sendPackets, htry]⟩

theorem sendAtPointer_isSome (cfg : LSQParams) (env : Answers)
    (hget : s.storeQueue.get? s.storeWBIt = some e) (hreq : e.request = some r)
    (hbuilt : r.built = true) (hlt : r.sentPackets < r.numPackets)
    (hrec : r.received ≤ r.sentPackets) (hflag : r.runahead = (s.insts e.inst).runahead) :
    ∃ t, s.sendAtPointer cfg env = some t := by
  have hsend : ∃ t, s.sendPacketToCache cfg env s.storeWBIt = some t := by
    simp only [sendPacketToCache, hget, hreq, Option.bind_eq_bind, Option.bind_some]
    cases hf : r.fragments with
    | none =>
      have hnum : r.numPackets = 1 := by simp [LSQRequest.numPackets, hf]
      have hzero : r.sentPackets = r.received := by omega
      simp only [hbuilt, hzero, BEq.rfl, Bool.and_self, if_true]
      exact sendPackets_isSome rfl hget hreq hflag
    | some m => exact sendPackets_isSome rfl hget hreq hflag
  obtain ⟨t, ht⟩ := hsend
  obtain ⟨k, r', hs, -⟩ := sendPacketToCache_spec hget hreq hbuilt hlt ht
  have hself := hs.get?_self hget
  refine ⟨if r'.sent then t.storePostSend cfg { e with request := some r' } else t, ?_⟩
  simp [sendAtPointer, ht, hs.storeWBIt, hself]

theorem Ready.sendAtPointer (h : Ready cfg s) (env : Answers)
    (hget : s.storeQueue.get? s.storeWBIt = some e) (hreq : e.request = some r) (hbuilt : r.built = true) :
    ∃ t, s.sendAtPointer cfg env = some t := by
  obtain ⟨-, hahead⟩ := (h.inv.entry _ _ hget).ahead (Nat.le_refl _)
  exact sendAtPointer_isSome cfg env hget hreq hbuilt (hahead r hreq).1
    ((h.live.entry _ _ hget).received_le r hreq) (h.confined.flag _ e r hget hreq)

theorem completeStore_isSome (cfg : LSQParams) (hget : s.storeQueue.get? idx = some e) :
    ∃ t, s.completeStore cfg idx = some t := by
  simp [completeStore, hget]

/-- The writeback of a store returns when a store conditional fails. -/
theorem Ready.writeEntry (h : Ready cfg s) (hno : env.lockedWrite e.inst = false)
    (hget : s.storeQueue.get? s.storeWBIt = some e) (hreq : e.request = some r) :
    ∃ t, s.writeEntry cfg env e r = some t := by
  have hpos : (s.startWrite r.buildPackets).storeWBIt = s.storeWBIt := rfl
  have hinsts : (s.startWrite r.buildPackets).insts = s.insts := rfl
  simp only [LSQUnit.writeEntry, modifyEntry_start hget hreq, hpos, hinsts, startWrite_packetSent,
    hno, Bool.not_false, Bool.and_true]
  by_cases hsc : (s.insts e.inst).isStoreConditional = true
  · obtain ⟨u, hu⟩ := completeStore_isSome
      (s := (s.startWrite r.buildPackets.packetSent).emit (.storeConditionalFailed e.inst)) cfg
      (startWrite_get? hget _)
    rw [if_pos hsc]
    exact ⟨_, Option.bind_eq_some_iff.mpr ⟨u, hu, rfl⟩⟩
  · rw [if_neg hsc]
    simp only [hsc, Bool.false_eq_true, if_false]
    by_cases hloc : r.isLocalAccess = true
    · obtain ⟨u, hu⟩ := completeStore_isSome
        (s := (s.startWrite r.buildPackets).emit (.localAccess e.inst)) cfg (startWrite_get? hget _)
      rw [if_pos hloc]
      exact ⟨_, Option.bind_eq_some_iff.mpr ⟨u, hu, rfl⟩⟩
    · rw [if_neg hloc]
      obtain ⟨-, hahead⟩ := (h.inv.entry _ _ hget).ahead (Nat.le_refl _)
      exact sendAtPointer_isSome (s := s.startWrite r.buildPackets) cfg env (startWrite_get? hget _)
        rfl rfl (hahead r hreq).1 ((h.live.entry _ _ hget).received_le r hreq)
        (h.confined.flag _ e r hget hreq)

/-- A round of the loop returns when a store conditional fails. -/
theorem Ready.writebackIter (h : Ready cfg s) (env : Answers) (hno : env.lockedWrite e.inst = false)
    (hget : s.storeQueue.get? s.storeWBIt = some e)
    (hblk : s.isStoreBlocked = true → (s.insts e.inst).runahead = false) :
    ∃ p, s.writebackIter cfg env = some p := by
  simp only [LSQUnit.writebackIter, hget, Option.bind_eq_bind, Option.bind_some]
  split
  · exact ⟨_, rfl⟩
  split
  · rename_i hb
    simp only [hblk hb, Bool.false_eq_true, if_false]
    exact ⟨_, rfl⟩
  split
  · obtain ⟨t, ht⟩ := completeStore_isSome (s := s.advance) cfg hget
    exact ⟨_, Option.bind_eq_some_iff.mpr ⟨t, ht, rfl⟩⟩
  rename_i hb hsize
  split
  · exact ⟨_, rfl⟩
  obtain ⟨r, hreq⟩ := Option.isSome_iff_exists.mp ((h.inv.entry _ _ hget).hasRequest hsize)
  have hcom : e.committed = false := by
    cases hc : e.committed with
    | false => rfl
    | true => exact absurd ((h.live.entry _ _ hget).started (Nat.le_refl _) hc).1 hb
  simp only [hreq, Option.bind_some, hcom, Bool.false_eq_true, if_false]
  split
  · exact ⟨_, rfl⟩
  · obtain ⟨t, ht⟩ := h.writeEntry hno hget hreq
    exact ⟨_, Option.bind_eq_some_iff.mpr ⟨t, ht, rfl⟩⟩

end Returns

section Ports

/-- A D-cache that takes no packet; no store conditional succeeds. -/
def refusing : Answers := ⟨fun _ _ => false, fun _ => false⟩

theorem trySendPacket_used (h : s.trySendPacket cfg refusing idx = some (s', n)) :
    s'.usedStorePorts = s.usedStorePorts := by
  simp only [trySendPacket, refusing, Bool.false_eq_true, if_false, Option.bind_eq_bind,
    Option.bind_eq_some_iff] at h
  obtain ⟨e, -, r, -, h⟩ := h
  split at h
  · split at h
    · cases h
    · cases h
      rfl
  · split at h <;> split at h <;> cases h <;> rfl

theorem sendPackets_used (h : sendPackets cfg refusing idx n s = some s') :
    s'.usedStorePorts = s.usedStorePorts := by
  induction n generalizing s with
  | zero =>
    cases h
    rfl
  | succ n ih =>
    simp only [sendPackets, Option.bind_eq_bind, Option.bind_eq_some_iff] at h
    obtain ⟨⟨t, m⟩, htry, h⟩ := h
    split at h
    · cases h
      exact trySendPacket_used htry
    · exact (ih h).trans (trySendPacket_used htry)

theorem sendAtPointer_used (h : s.sendAtPointer cfg refusing = some s') :
    s'.usedStorePorts = s.usedStorePorts := by
  simp only [LSQUnit.sendAtPointer, sendPacketToCache, Option.bind_eq_bind,
    Option.bind_eq_some_iff] at h
  obtain ⟨t, ⟨a, -, r, -, ht⟩, e, -, r', -, heq⟩ := h
  have hused : t.usedStorePorts = s.usedStorePorts := by
    split at ht
    · split at ht
      · exact sendPackets_used ht
      · cases ht
    · exact sendPackets_used ht
  split at heq <;> cases heq
  · exact hused
  · exact hused

theorem Round.used (hround : Round cfg refusing s e t goOn) :
    t.usedStorePorts = s.usedStorePorts := by
  cases hround with
  | noPort | wait | prefetch => rfl
  | empty _ _ hco | complete _ _ _ _ _ _ hco => exact hco.usedStorePorts
  | @send r r' _ _ _ _ _ _ hsend => exact sendAtPointer_used (s := s.startWrite r') hsend

end Ports

section Moves

/-- The packets of the store at the pointer that are still to be sent. -/
def leftToSend (s : LSQUnit) : Nat :=
  ((s.storeQueue.get? s.storeWBIt).bind (·.request)).elim 0 fun r => r.numPackets - r.sentPackets

theorem leftToSend_eq (hget : s.storeQueue.get? s.storeWBIt = some e)
    (hreq : e.request = some r) : s.leftToSend = r.numPackets - r.sentPackets := by
  simp [leftToSend, hget, hreq]

/-- A store that blocks is a normal one. -/
def BlockedNormal (s : LSQUnit) : Prop :=
  s.isStoreBlocked = true → ∀ e, s.storeQueue.get? s.storeWBIt = some e →
    (s.insts e.inst).runahead = false

/-- The pointer has moved, or the store it is at is blocked. -/
def Moves (s t : LSQUnit) : Prop :=
  s.storeWBIt < t.storeWBIt ∨
    t.storeWBIt = s.storeWBIt ∧ t.isStoreBlocked = true ∧ t.leftToSend ≤ s.leftToSend

theorem sendAtPointer_moves (hget : s.storeQueue.get? s.storeWBIt = some e)
    (hreq : e.request = some r) (hbuilt : r.built = true) (hlt : r.sentPackets < r.numPackets)
    (hflag : r.runahead = (s.insts e.inst).runahead)
    (hst : s.sendAtPointer cfg env = some t) : s.Moves t ∧ t.BlockedNormal := by
  obtain ⟨k, u, r', hs, -, hout⟩ := sendAtPointer_outcome hget hreq hbuilt hlt hst
  have hself := hs.get?_self hget
  rcases hout with ⟨-, hblk, rfl⟩ | ⟨-, hblk, hra, rfl⟩
  · refine ⟨.inl ?_, fun hb => ?_⟩
    · show s.storeWBIt < u.storeWBIt + 1
      rw [hs.storeWBIt]
      exact Nat.lt_succ_self _
    · have hb' : u.isStoreBlocked = true := hb
      rw [hblk] at hb'
      cases hb'
  · rw [← hs.storeWBIt] at hself
    refine ⟨.inr ⟨hs.storeWBIt, hblk, ?_⟩, fun _ a ha => ?_⟩
    · rw [leftToSend_eq hself rfl, leftToSend_eq hget hreq, hs.numPackets, hs.sentPackets]
      omega
    · cases hself.symm.trans ha
      rw [hs.insts]
      exact hflag.symm.trans hra

theorem startWrite_leftToSend (hget : s.storeQueue.get? s.storeWBIt = some e)
    (hreq : e.request = some r) (hr' : Started r r') :
    (s.startWrite r').leftToSend = s.leftToSend := by
  rw [leftToSend_eq (startWrite_get? hget r') rfl, leftToSend_eq hget hreq, hr'.numPackets,
    hr'.sentPackets]

/-- With a free port a round leaves only a normal store blocked. One that does not wait moves the
pointer or leaves the store blocked. -/
theorem Round.moves (h : Ready cfg s) (hget : s.storeQueue.get? s.storeWBIt = some e)
    (hport : s.cachePortAvailable cfg = true) (hnormal : s.BlockedNormal)
    (hround : Round cfg env s e t goOn) :
    t.BlockedNormal ∧ s.storeWBIt ≤ t.storeWBIt ∧ (goOn = false → t = s) ∧
      (s.isStoreBlocked = false → (∀ r, e.request = some r → s.ordered r = true) →
        goOn = true ∧ s.Moves t) := by
  -- a round that completes the store or passes it leaves none blocked
  have hdone : ∀ u : LSQUnit, u.isStoreBlocked = false → u.storeWBIt = s.storeWBIt + 1 →
      u.BlockedNormal ∧ s.storeWBIt ≤ u.storeWBIt ∧ (true = false → u = s) ∧
        (s.isStoreBlocked = false → (∀ r, e.request = some r → s.ordered r = true) →
          true = true ∧ s.Moves u) := by
    intro u hblk hwb
    refine ⟨fun hb => ?_, by omega, (fun hf => by cases hf), fun _ _ => ⟨rfl, .inl (by omega)⟩⟩
    rw [hblk] at hb
    cases hb
  cases hround with
  | noPort hno =>
    rw [hport] at hno
    cases hno
  | wait hwait =>
    refine ⟨hnormal, Nat.le_refl _, fun _ => rfl, fun hblk hord => ?_⟩
    rcases hwait with hb | ⟨r, hreq, hno⟩
    · rw [hblk] at hb
      cases hb
    · rw [hord r hreq] at hno
      cases hno
  | empty hblk _ hco => exact hdone t (hco.isStoreBlocked.trans hblk) hco.storeWBIt
  | prefetch hblk _ => exact hdone s.advance hblk rfl
  | complete hblk _ _ _ _ _ hco => exact hdone t (hco.isStoreBlocked.trans hblk) hco.storeWBIt
  | @send r r' t hblk hdata hreq hr' hloc hsend =>
    obtain ⟨-, hahead⟩ := (h.inv.entry _ _ hget).ahead (Nat.le_refl _)
    have hlt : r'.sentPackets < r'.numPackets := by
      rw [hr'.sentPackets, hr'.numPackets]
      exact (hahead r hreq).1
    have hflag : r'.runahead = (s.insts e.inst).runahead :=
      hr'.runahead.trans (h.confined.flag _ e r hget hreq)
    obtain ⟨hmoves, hnormal'⟩ := sendAtPointer_moves (s := s.startWrite r')
      (startWrite_get? hget r') rfl hr'.built hlt hflag hsend
    have hmoves' : s.Moves t := hmoves.imp_right fun ⟨hwb, hb, hle⟩ =>
      ⟨hwb, hb, hle.trans_eq (startWrite_leftToSend hget hreq hr')⟩
    refine ⟨hnormal', ?_, (fun hf => by cases hf), fun _ _ => ⟨rfl, hmoves'⟩⟩
    rcases hmoves' with hlt | ⟨hwb, -⟩
    · exact Nat.le_of_lt hlt
    · exact Nat.le_of_eq hwb.symm

end Moves

section Loop

theorem Completes.endIdx_eq {wb : Nat} (h : Completes cfg s idx e wb t) :
    t.storeQueue.endIdx = s.storeQueue.endIdx := by
  rw [h.queue, completeAt_endIdx]

/-- A round after which the loop goes on uses up one of `rounds`. -/
theorem Round.rounds (h : Inv s) (hget : s.storeQueue.get? s.storeWBIt = some e)
    (hround : Round cfg env s e t true) : t.rounds < s.rounds := by
  have hl := IndexedQueue.lt_of_get? hget
  have hpass : ∀ u : LSQUnit, u.storeQueue.endIdx = s.storeQueue.endIdx →
      u.storeWBIt = s.storeWBIt + 1 → u.isStoreBlocked = s.isStoreBlocked →
        u.rounds < s.rounds := by
    intro u hend hwb hblk
    simp only [LSQUnit.rounds, hend, hwb, hblk]
    omega
  cases hround with
  | noPort | prefetch => exact hpass s.advance rfl rfl rfl
  | empty _ _ hco => exact hpass t hco.endIdx_eq hco.storeWBIt hco.isStoreBlocked
  | complete _ _ _ _ _ _ hco =>
    exact hpass t (hco.endIdx_eq.trans (IndexedQueue.modify_endIdx ..)) hco.storeWBIt
      hco.isStoreBlocked
  | @send r r' t hblk hdata hreq hr' hloc hsend =>
    obtain ⟨-, hahead⟩ := (h.entry _ _ hget).ahead (Nat.le_refl _)
    have hlt : r'.sentPackets < r'.numPackets := by
      rw [hr'.sentPackets, hr'.numPackets]
      exact (hahead r hreq).1
    obtain ⟨k, u, r1, hs, hout⟩ :=
      sendAtPointer_cases (startWrite_get? hget r') rfl hr'.built hlt hsend
    have hend : u.storeQueue.endIdx = s.storeQueue.endIdx := by
      rw [hs.queue]
      simp [startWrite, modifyEntry]
    have hwb : u.storeWBIt = s.storeWBIt := hs.storeWBIt
    rcases hout with ⟨-, hublk, rfl⟩ | ⟨-, hublk, rfl⟩
    · simp only [LSQUnit.rounds, storePostSend, hend, hwb, hublk, hblk]
      omega
    · simp only [LSQUnit.rounds, hend, hwb, hublk, hblk]
      simp

/-- A round of the loop as a step of the unit. -/
theorem iter_step (hcond : s.writebackCond cfg = true)
    (hport : s.cachePortAvailable cfg = true) (hiter : s.writebackIter cfg env = some (t, goOn)) :
    (unskipped cfg).step s (.writebackIter env) t := by
  refine ⟨⟨trivial, by simp [LSQUnit.step, hcond, hiter]⟩, fun hno => ?_⟩
  rw [hport] at hno
  cases hno

/-- The loop of a whole call returns, and is a run in which no store is skipped. -/
theorem writebackLoop_total (h : Ready cfg s) (hport : s.cachePortAvailable cfg = true)
    (hnormal : s.BlockedNormal) (hn : s.rounds ≤ n) :
    ∃ l t, writebackLoop cfg refusing n s = some t ∧ (unskipped cfg).Run s l t ∧
      (∀ op ∈ l, op = .writebackIter refusing) ∧ s.storeWBIt ≤ t.storeWBIt ∧
      (s.isStoreBlocked = true → t = s) := by
  induction n generalizing s with
  | zero =>
    have hcond : s.writebackCond cfg = false := by
      cases hget : s.storeQueue.get? s.storeWBIt with
      | none => simp [writebackCond, hget]
      | some e =>
        have hl := IndexedQueue.lt_of_get? hget
        unfold rounds at hn
        omega
    exact ⟨[], s, by simp [writebackLoop, hcond], .nil, by simp, Nat.le_refl _, fun _ => rfl⟩
  | succ n ih =>
    cases hcond : s.writebackCond cfg with
    | false =>
      exact ⟨[], s, by simp [writebackLoop, hcond], .nil, by simp, Nat.le_refl _, fun _ => rfl⟩
    | true =>
      have hcond' := hcond
      simp only [writebackCond, Bool.and_eq_true] at hcond'
      obtain ⟨e, hget, -⟩ := (Option.any_eq_true _ _).mp hcond'.1.2
      obtain ⟨⟨t, goOn⟩, hiter⟩ := h.writebackIter refusing rfl hget
        fun hb => hnormal hb e hget
      have hround := writebackIter_round hget
        (fun j a hj ha => ((h.inv.entry j a ha).ahead (Nat.le_of_lt hj)).1) hiter
      have hst := iter_step hcond hport hiter
      obtain ⟨hnormal', hle, hstay, -⟩ := hround.moves h hget hport hnormal
      cases goOn with
      | false =>
        obtain rfl := hstay rfl
        exact ⟨_, t, by simp [writebackLoop, hcond, hiter], .single hst, by simp, Nat.le_refl _,
          fun _ => rfl⟩
      | true =>
        have hport' : t.cachePortAvailable cfg = true := by
          rw [cachePortAvailable, hround.used]
          exact hport
        obtain ⟨l, u, hloop, hrun, hl, hle', hblk'⟩ :=
          ih (h.step hst) hport' hnormal'
            (Nat.le_of_lt_succ ((hround.rounds h.inv hget).trans_le hn))
        refine ⟨_, u, by simp [writebackLoop, hcond, hiter, hloop], (Transition.System.Run.single
          hst).trans hrun, ?_, hle.trans hle', fun hblk => ?_⟩
        · intro op hop
          rcases List.mem_append.mp hop with hop | hop
          · exact List.mem_singleton.mp hop
          · exact hl op hop
        · -- a blocked store ends the loop
          cases hround with
          | noPort hno =>
            rw [hport] at hno
            cases hno
          | empty hno | prefetch hno | complete hno | send hno =>
            rw [hblk] at hno
            cases hno

/-- The loop moves the pointer, or leaves the store it is at blocked. -/
theorem writebackLoop_moves (h : Ready cfg s) (hport : s.cachePortAvailable cfg = true)
    (hblk : s.isStoreBlocked = false) (hcond : s.writebackCond cfg = true)
    (hord : ∀ e r, s.storeQueue.get? s.storeWBIt = some e → e.request = some r →
      s.ordered r = true) (hn : s.rounds ≤ n) :
    ∃ l t, writebackLoop cfg refusing n s = some t ∧ (unskipped cfg).Run s l t ∧
      (∀ op ∈ l, op = .writebackIter refusing) ∧ s.Moves t := by
  have hnormal : s.BlockedNormal := by
    intro hb
    rw [hblk] at hb
    cases hb
  have hcond' := hcond
  simp only [writebackCond, Bool.and_eq_true] at hcond'
  obtain ⟨e, hget, -⟩ := (Option.any_eq_true _ _).mp hcond'.1.2
  obtain ⟨⟨t, goOn⟩, hiter⟩ := h.writebackIter refusing rfl hget fun hb => hnormal hb e hget
  have hround := writebackIter_round hget
    (fun j a hj ha => ((h.inv.entry j a ha).ahead (Nat.le_of_lt hj)).1) hiter
  have hst := iter_step hcond hport hiter
  obtain ⟨hnormal', -, -, hmoves⟩ := hround.moves h hget hport hnormal
  obtain ⟨rfl, hmove⟩ := hmoves hblk fun r hreq => hord e r hget hreq
  have hlt := hround.rounds h.inv hget
  obtain ⟨n, rfl⟩ : ∃ m, n = m + 1 := ⟨n - 1, by omega⟩
  have hport' : t.cachePortAvailable cfg = true := by
    rw [cachePortAvailable, hround.used]
    exact hport
  obtain ⟨l, u, hloop, hrun, hl, hle, hstay⟩ :=
    writebackLoop_total (h.step hst) hport' hnormal' (n := n) (by omega)
  refine ⟨_, u, by simp [writebackLoop, hcond, hiter, hloop], (Transition.System.Run.single
    hst).trans hrun, ?_, ?_⟩
  · intro op hop
    rcases List.mem_append.mp hop with hop | hop
    · exact List.mem_singleton.mp hop
    · exact hl op hop
  · rcases hmove with hlt | ⟨hwb, hb, hle'⟩
    · exact .inl (Nat.lt_of_lt_of_le hlt hle)
    · obtain rfl := hstay hb
      exact .inr ⟨hwb, hb, hle'⟩

end Loop

section Calls

/-- The label is one of a whole call of `writebackStores`. -/
def Op.ofCall (env : Answers) (op : Op) : Prop :=
  op = .writebackBlockedStore env ∨ op = .writebackIter env

/-- A call with a free port and a D-cache that refuses, when the store at the pointer may be
written. -/
theorem writebackStores_moves (h : Ready cfg s) (hport : s.cachePortAvailable cfg = true)
    (hget : s.storeQueue.get? s.storeWBIt = some e) (hcan : e.canWB = true)
    (hfl : (cfg.needsTSO && s.storeInFlight) = false)
    (hord : ∀ r, e.request = some r → s.ordered r = true) :
    ∃ l t, s.writebackStores cfg refusing = some t ∧ (unskipped cfg).Run s l t ∧
      (∀ op ∈ l, op.ofCall refusing) ∧ s.Moves t := by
  cases hblk : s.isStoreBlocked with
  | true =>
    obtain ⟨a, r, hat⟩ := h.inv.blocked hblk
    obtain ⟨t, ht⟩ := h.sendAtPointer refusing hat.get hat.request hat.built
    obtain ⟨-, hahead⟩ := (h.inv.entry _ _ hat.get).ahead (Nat.le_refl _)
    obtain ⟨hmoves, hnormal⟩ := sendAtPointer_moves hat.get hat.request hat.built
      (hahead r hat.request).1 (h.confined.flag _ a r hat.get hat.request) ht
    have hblocked : s.writebackBlockedStore cfg refusing = some t := by
      rw [writebackBlockedStore, if_pos hblk, ht]
    have hst : (unskipped cfg).step s (.writebackBlockedStore refusing) t :=
      ⟨⟨trivial, hblocked⟩, trivial⟩
    have hport' : t.cachePortAvailable cfg = true := by
      rw [cachePortAvailable, sendAtPointer_used ht]
      exact hport
    obtain ⟨l, u, hloop, hrun, hl, hle, hstay⟩ :=
      writebackLoop_total (h.step hst) hport' hnormal (Nat.le_refl _)
    refine ⟨_, u, by simp [writebackStores, hblk, hblocked, hloop],
      (Transition.System.Run.single hst).trans hrun, fun op hop => ?_, ?_⟩
    · rcases List.mem_append.mp hop with hop | hop
      · exact .inl (List.mem_singleton.mp hop)
      · exact .inr (hl op hop)
    · rcases hmoves with hlt | ⟨hwb, hb, hle'⟩
      · exact .inl (Nat.lt_of_lt_of_le hlt hle)
      · obtain rfl := hstay hb
        exact .inr ⟨hwb, hb, hle'⟩
  | false =>
    have hpos : 0 < s.storeQueue.count SQEntry.toWB := by
      refine List.countP_pos_iff.mpr ⟨e, IndexedQueue.mem_items hget, ?_⟩
      rw [SQEntry.toWB, hcan, ((h.inv.entry _ _ hget).ahead (Nat.le_refl _)).1]
      rfl
    have hcond : s.writebackCond cfg = true := by
      have hcount := h.inv.count
      simp only [writebackCond, hget, Option.any_some, hcan, hfl, Bool.not_false, Bool.and_true,
        decide_eq_true_eq]
      omega
    obtain ⟨l, t, hloop, hrun, hl, hmoves⟩ := writebackLoop_moves h hport hblk hcond
      (fun a r ha hr => hord r (by rw [Option.some.inj (hget.symm.trans ha), hr])) (Nat.le_refl _)
    exact ⟨l, t, by simp [writebackStores, hblk, hloop], hrun, fun op hop => .inr (hl op hop),
      hmoves⟩

/-- A cache that is ready again takes at least one packet of the blocked store. -/
theorem recvReqRetry_sends (h : Ready cfg s) (hport : s.cachePortAvailable cfg = true)
    (hblk : s.isStoreBlocked = true) :
    ∃ t, (unskipped cfg).step s (.recvReqRetry accepting) t ∧
      (s.storeWBIt < t.storeWBIt ∨
        t.storeWBIt = s.storeWBIt ∧ t.leftToSend < s.leftToSend) := by
  obtain ⟨e, r, hat⟩ := h.inv.blocked hblk
  obtain ⟨-, hahead⟩ := (h.inv.entry _ _ hat.get).ahead (Nat.le_refl _)
  have hlt := (hahead r hat.request).1
  have hflag := h.confined.flag _ e r hat.get hat.request
  have hget : { s with cacheBlocked := false }.storeQueue.get? s.storeWBIt = some e := hat.get
  obtain ⟨t, ht⟩ := sendAtPointer_isSome (s := { s with cacheBlocked := false }) cfg accepting
    hget hat.request hat.built hlt ((h.live.entry _ _ hat.get).received_le r hat.request) hflag
  have hst : s.step cfg (.recvReqRetry accepting) = some t := by
    have hready : s.recvReqRetry cfg accepting =
        { s with cacheBlocked := false }.writebackBlockedStore cfg accepting := if_pos hblk
    exact hready.trans ((if_pos hblk).trans ht)
  refine ⟨t, ⟨⟨trivial, hst⟩, trivial⟩, ?_⟩
  obtain ⟨k, u, r', hs, hnone, hout⟩ :=
    sendAtPointer_outcome (s := { s with cacheBlocked := false }) hget hat.request hat.built hlt ht
  have hself := hs.get?_self hget
  have hwb : u.storeWBIt = s.storeWBIt := hs.storeWBIt
  rcases hout with ⟨-, -, rfl⟩ | ⟨-, -, hra, rfl⟩
  · refine .inl ?_
    show s.storeWBIt < u.storeWBIt + 1
    rw [hwb]
    exact Nat.lt_succ_self _
  · have hk : 0 < k := by
      by_contra hk
      obtain ⟨v, hv⟩ := hnone (by omega)
      have hport' : ({ s with cacheBlocked := false } : LSQUnit).cachePortAvailable cfg = true :=
        hport
      simp [trySendPacket, hget, hat.request, hra, hport', accepting] at hv
    have hself' : t.storeQueue.get? t.storeWBIt = some _ := hwb ▸ hself
    refine .inr ⟨hwb, ?_⟩
    rw [leftToSend_eq hself' rfl, leftToSend_eq hat.get hat.request, hs.numPackets, hs.sentPackets]
    omega

end Calls

end LSQUnit
end Runahead
end Gem5
