import Gem5Runahead.RequestOwner

/-!
# PacketCount

The packets of a request are counted: a request that is sent, and whose packets come back in any
order, has as many outstanding packets as its two caches still have to answer.

* `Counted` — the invariant; `Sent`, `Received` — what sending and a response leave as they are.
* `sendPacketToCache_spec`, `receive_spec`, `replied_counted` — one lemma for each operation.
-/

namespace Gem5
namespace Runahead

namespace DataRequest

/-- The outstanding packets are those still to be answered. -/
structure Counted (d : DataRequest) : Prop where
  count : d.numOutstandingPackets = d.inDCache.length + d.inRCache.length
  unsent : d.isSplit = false → d.sent = false →
    d.inDCache = [] ∧ d.inRCache = [] ∧ d.rCachePackets = []
  single : d.isSplit = false → d.inDCache.length ≤ 1 ∧ d.inRCache.length ≤ 1 ∧
    ∀ i ∈ d.inRCache, d.rCachePackets.head? = some i

theorem built_counted (isLoad isRunahead : Bool) : Counted (built isLoad isRunahead) :=
  ⟨rfl, fun _ _ => ⟨rfl, rfl, rfl⟩, fun _ => ⟨Nat.zero_le _, Nat.zero_le _, fun _ hi => nomatch hi⟩⟩

theorem builtSplit_counted (isLoad isRunahead : Bool) (n : Nat) :
    Counted (builtSplit isLoad isRunahead n) :=
  ⟨rfl, fun h => (nomatch h), fun h => (nomatch h)⟩

/-- What sending leaves as it is. -/
structure Sent (d d' : DataRequest) : Prop where
  isSplit : d'.isSplit = d.isSplit
  isLoad : d'.isLoad = d.isLoad
  isRunahead : d'.isRunahead = d.isRunahead
  complete : d'.complete = d.complete
  le : d.numOutstandingPackets ≤ d'.numOutstandingPackets
  noRCache : d.isRunahead = false → d'.rCachePackets = d.rCachePackets
  noDCache : d.toDCache = false → d'.inDCache = d.inDCache

theorem Sent.trans {d d' d'' : DataRequest} (h : Sent d d') (h' : Sent d' d'') : Sent d d'' := by
  have hto : d'.toDCache = d.toDCache := by
    simp only [toDCache, h.isRunahead, h.isLoad]
  refine ⟨h'.isSplit.trans h.isSplit, h'.isLoad.trans h.isLoad,
    h'.isRunahead.trans h.isRunahead, h'.complete.trans h.complete, Nat.le_trans h.le h'.le,
    fun hr => ?_, fun hd => ?_⟩
  · rw [h'.noRCache (h.isRunahead.trans hr), h.noRCache hr]
  · rw [h'.noDCache (hto.trans hd), h.noDCache hd]

section Send

variable {d : DataRequest} {i : Nat}

/-- A packet that leaves, with the count it adds. -/
theorem trySendPacket_sent (env : SendResult) (unsent : List Nat) :
    Sent d { (d.trySendPacket i env).1 with
      numOutstandingPackets := d.numOutstandingPackets + (d.trySendPacket i env).2
      unsentPackets := unsent } := by
  unfold trySendPacket
  split
  · exact ⟨rfl, rfl, rfl, rfl, Nat.le_refl _, fun _ => rfl, fun _ => rfl⟩
  · refine ⟨rfl, rfl, rfl, rfl, Nat.le_add_right _ _, fun hr => ?_, fun hd => ?_⟩
    · simp [hr]
    · simp [hd]

theorem trySendPacket_counted (h : Counted d) (env : SendResult) (unsent : List Nat)
    (hs : d.isSplit = true ∨ d.sent = false) :
    Counted { (d.trySendPacket i env).1 with
      numOutstandingPackets := d.numOutstandingPackets + (d.trySendPacket i env).2
      unsentPackets := unsent } := by
  have hcount := h.count
  unfold trySendPacket
  split
  · refine ⟨hcount, fun hsplit _ => ?_, h.single⟩
    rcases hs with hs | hs
    · rw [hs] at hsplit
      cases hsplit
    · exact h.unsent hsplit hs
  · refine ⟨?_, fun _ hsent => (nomatch hsent), fun hsplit => ?_⟩
    · generalize (d.isRunahead && (!d.isLoad || env.hit)) = toR
      cases d.toDCache <;> cases toR <;> simp <;> omega
    · rcases hs with hs | hs
      · rw [hs] at hsplit
        cases hsplit
      · obtain ⟨hD, hR, hC⟩ := h.unsent hsplit hs
        simp only [hD, hR, hC, List.nil_append]
        generalize (d.isRunahead && (!d.isLoad || env.hit)) = toR
        cases d.toDCache <;> cases toR <;> simp

theorem sendUnsent_spec (env : Nat → SendResult) (l : List Nat) :
    ∀ d : DataRequest, Counted d → d.isSplit = true →
      Counted (sendUnsent env l d) ∧ Sent d (sendUnsent env l d) := by
  induction l with
  | nil =>
    intro d h _
    exact ⟨⟨h.count, h.unsent, h.single⟩,
      ⟨rfl, rfl, rfl, rfl, Nat.le_refl _, fun _ => rfl, fun _ => rfl⟩⟩
  | cons i rest ih =>
    intro d h hs
    have hsent := fun unsent => trySendPacket_sent (d := d) (i := i) (env i) unsent
    have hcounted := fun unsent =>
      trySendPacket_counted (i := i) h (env i) unsent (.inl hs)
    simp only [sendUnsent]
    have hnum : (d.trySendPacket i (env i)).1.numOutstandingPackets =
        d.numOutstandingPackets := by
      unfold trySendPacket
      split <;> rfl
    by_cases hzero : (d.trySendPacket i (env i)).2 = 0
    · rw [if_pos hzero]
      have hs' := hsent (i :: rest)
      have hc' := hcounted (i :: rest)
      rw [hzero, Nat.add_zero, ← hnum] at hs' hc'
      exact ⟨hc', hs'⟩
    · rw [if_neg hzero, hnum]
      obtain ⟨hc, hsent'⟩ := ih _ (hcounted rest) ((hsent rest).isSplit.trans hs)
      exact ⟨hc, (hsent rest).trans hsent'⟩

/-- A request that has not been sent as a whole can be sent. -/
theorem sendPacketToCache_spec (h : Counted d) (hs : d.sent = false) (env : Nat → SendResult) :
    ∃ d', d.sendPacketToCache env = some d' ∧ Counted d' ∧ Sent d d' := by
  unfold sendPacketToCache
  by_cases hsplit : d.isSplit = true
  · rw [if_pos hsplit]
    obtain ⟨hc, hsent⟩ := sendUnsent_spec env d.unsentPackets d h hsplit
    exact ⟨_, rfl, hc, hsent⟩
  · have hnone : d.numOutstandingPackets = 0 := by
      obtain ⟨hD, hR, -⟩ := h.unsent (by simpa using hsplit) hs
      rw [h.count, hD, hR]
      rfl
    have hnum : (d.trySendPacket 0 (env 0)).1.numOutstandingPackets =
        d.numOutstandingPackets := by
      unfold trySendPacket
      split <;> rfl
    rw [if_neg hsplit, if_neg (not_not.mpr hnone)]
    simp only [hnum]
    have hunsent : (d.trySendPacket 0 (env 0)).1.unsentPackets = d.unsentPackets := by
      unfold trySendPacket
      split <;> rfl
    have hc := trySendPacket_counted (i := 0) h (env 0) d.unsentPackets (.inr hs)
    have hsent := trySendPacket_sent (d := d) (i := 0) (env 0) d.unsentPackets
    rw [← hunsent] at hc hsent
    exact ⟨_, rfl, hc, hsent⟩

end Send

section Receive

variable {d d' : DataRequest} {i : Nat} {toRCache : Bool}

/-- The packet is one of those still to be answered. -/
def Awaits (d : DataRequest) (i : Nat) (toRCache : Bool) : Prop :=
  i ∈ if toRCache then d.inRCache else d.inDCache

/-- What the handling of a response leaves as it is. -/
structure Received (d d' : DataRequest) : Prop where
  isSplit : d'.isSplit = d.isSplit
  isLoad : d'.isLoad = d.isLoad
  isRunahead : d'.isRunahead = d.isRunahead
  sent : d'.sent = d.sent
  numOutstandingPackets : d'.numOutstandingPackets = d.numOutstandingPackets
  inDCache : d'.inDCache = d.inDCache
  inRCache : d'.inRCache = d.inRCache
  rCachePackets : d'.rCachePackets = d.rCachePackets

theorem recvSplit_received (d : DataRequest) (toRCache : Bool) :
    Received d (d.recvSplit toRCache) := by
  unfold recvSplit
  split
  · simp only
    split <;> exact ⟨rfl, rfl, rfl, rfl, rfl, rfl, rfl, rfl⟩
  · split
    · simp only
      split <;> exact ⟨rfl, rfl, rfl, rfl, rfl, rfl, rfl, rfl⟩
    · exact ⟨rfl, rfl, rfl, rfl, rfl, rfl, rfl, rfl⟩

theorem arrive_rCachePackets (d : DataRequest) (i : Nat) (toRCache : Bool) :
    (d.arrive i toRCache).rCachePackets = d.rCachePackets ∧
      (d.arrive i toRCache).numOutstandingPackets = d.numOutstandingPackets ∧
      (d.arrive i toRCache).isSplit = d.isSplit ∧ (d.arrive i toRCache).isLoad = d.isLoad ∧
      (d.arrive i toRCache).isRunahead = d.isRunahead ∧
      (d.arrive i toRCache).sent = d.sent := by
  cases toRCache <;> exact ⟨rfl, rfl, rfl, rfl, rfl, rfl⟩

/-- A packet that is awaited can be received. -/
theorem receive_spec (h : Counted d) (hi : d.Awaits i toRCache) :
    ∃ d', (d.arrive i toRCache).receive i toRCache = some d' ∧
      Received (d.arrive i toRCache) d' := by
  unfold receive
  obtain ⟨hpackets, hnum, hsplit, -⟩ := arrive_rCachePackets d i toRCache
  by_cases hs : d.isSplit = true
  · rw [if_pos (hsplit.trans hs)]
    exact ⟨_, rfl, recvSplit_received _ _⟩
  · rw [if_neg (by rwa [hsplit])]
    obtain ⟨hD, hR, hhead⟩ := h.single (by simpa using hs)
    have hpos : 0 < d.inDCache.length + d.inRCache.length := by
      have hone : 0 < (if toRCache then d.inRCache else d.inDCache).length :=
        List.length_pos_of_mem hi
      cases toRCache <;> simp at hone <;> omega
    have hcount := h.count
    have hrange : ¬((d.arrive i toRCache).numOutstandingPackets ≠ 1 ∧
        (d.arrive i toRCache).numOutstandingPackets ≠ 2) := by
      rw [hnum]
      omega
    have hrefl : Received (d.arrive i toRCache) (d.arrive i toRCache) :=
      ⟨rfl, rfl, rfl, rfl, rfl, rfl, rfl, rfl⟩
    have hcomplete : Received (d.arrive i toRCache) (d.arrive i toRCache).completeDataAccess :=
      ⟨rfl, rfl, rfl, rfl, rfl, rfl, rfl, rfl⟩
    unfold recvSingle
    rw [if_neg hrange]
    cases toRCache with
    | true =>
      have hfirst : (d.arrive i true).rCachePackets.head? = some i := by
        rw [hpackets]
        exact hhead i hi
      have hexpected : (d.arrive i true).rCacheExpected = true := by
        unfold rCacheExpected
        cases hnil : (d.arrive i true).rCachePackets with
        | nil =>
          rw [hnil] at hfirst
          cases hfirst
        | cons => rfl
      rw [if_pos hexpected, if_pos rfl, if_pos hfirst]
      exact ⟨_, rfl, hcomplete⟩
    | false =>
      split
      · exact ⟨_, rfl, hrefl⟩
      · exact ⟨_, rfl, hcomplete⟩

/-- Once a packet has been answered and subtracted, the others are counted again. -/
theorem replied_counted (h : Counted d) (hi : d.Awaits i toRCache)
    (hr : Received (d.arrive i toRCache) d') :
    ∃ d'', d'.packetReplied = some d'' ∧ Counted d'' ∧
      d'' = { d' with numOutstandingPackets := d.numOutstandingPackets - 1 } := by
  obtain ⟨hpackets, hnum, hsplit, -, -, hsent⟩ := arrive_rCachePackets d i toRCache
  have hnum' : d'.numOutstandingPackets = d.numOutstandingPackets :=
    hr.numOutstandingPackets.trans hnum
  have hcount := h.count
  have hone : 0 < (if toRCache then d.inRCache else d.inDCache).length :=
    List.length_pos_of_mem hi
  have hpos : d'.numOutstandingPackets ≠ 0 := by
    rw [hnum']
    cases toRCache <;> simp at hone <;> omega
  refine ⟨_, ?_, ?_, rfl⟩
  · rw [packetReplied, if_neg hpos, hnum']
  · refine ⟨?_, fun hs hu => ?_, fun hs => ?_⟩
    · change d.numOutstandingPackets - 1 = d'.inDCache.length + d'.inRCache.length
      rw [hr.inDCache, hr.inRCache]
      cases toRCache with
      | true =>
        have herase : (d.inRCache.erase i).length = d.inRCache.length - 1 :=
          List.length_erase_of_mem hi
        simp only [if_true] at hone
        change _ = d.inDCache.length + (d.inRCache.erase i).length
        omega
      | false =>
        have herase : (d.inDCache.erase i).length = d.inDCache.length - 1 :=
          List.length_erase_of_mem hi
        simp only [Bool.false_eq_true, if_false] at hone
        change _ = (d.inDCache.erase i).length + d.inRCache.length
        omega
    · obtain ⟨hD, hR, -⟩ := h.unsent ((hr.isSplit.trans hsplit).symm.trans hs)
        ((hr.sent.trans hsent).symm.trans hu)
      rw [hD, hR] at hone
      cases toRCache <;> simp at hone
    · obtain ⟨hD, hR, hhead⟩ := h.single ((hr.isSplit.trans hsplit).symm.trans hs)
      change d'.inDCache.length ≤ 1 ∧ d'.inRCache.length ≤ 1 ∧
        ∀ j ∈ d'.inRCache, d'.rCachePackets.head? = some j
      rw [hr.inDCache, hr.inRCache, hr.rCachePackets, hpackets]
      cases toRCache with
      | true =>
        exact ⟨hD, Nat.le_trans List.length_erase_le hR,
          fun j hj => hhead j (List.mem_of_mem_erase hj)⟩
      | false => exact ⟨Nat.le_trans List.length_erase_le hD, hR, hhead⟩

end Receive
end DataRequest
end Runahead
end Gem5
