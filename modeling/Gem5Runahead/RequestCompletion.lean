import Gem5Runahead.DataRequest

/-!
# RequestCompletion

When a memory request completes. With a runahead cache in play, a split load counts the responses
of the runahead cache only as soon as one fragment has hit there; the fragments that missed, and
those not sent yet, are not waited for. So the request completes once and with all its data as
long as the last response of the runahead cache finds every fragment sent, and those that missed
answered (`Covered`).

* `Inv` — what a response still to come stands for; `send_inv`, `resp_inv` — a step keeps it.
* `completes_once` — every run whose steps meet the condition.
* `uncovered_incomplete` — a response outside of it completes the request without all its data.
-/

namespace Gem5
namespace Runahead
namespace DataRequest

open Transition

variable {r r' t : DataRequest} {i : Nat} {env : Nat → SendResult}

/-- The fragments that are not sent yet. -/
def waiting (r : DataRequest) : List Nat :=
  if r.isSplit then r.unsentPackets else if r.sent then [] else [0]

/-- The responses that arrive count. -/
def live (r : DataRequest) : Bool := !r.released && !r.hasForgedResponse

/-- The fragment has its data: from the runahead cache, or, if it missed there, from the
D-cache. -/
def HasData (r : DataRequest) (past : List RequestEvent) (j : Nat) : Prop :=
  .rcacheResp j ∈ past ∨ j ∉ r.rCachePackets ∧ .dcacheResp j ∈ past

instance (r : DataRequest) (past : List RequestEvent) (j : Nat) : Decidable (r.HasData past j) :=
  inferInstanceAs (Decidable (_ ∨ _))

/-- Every response has arrived. -/
def AllArrived (r : DataRequest) : Prop := r.waiting = [] ∧ r.inDCache = [] ∧ r.inRCache = []

/-- The request completes at most once, with all its data, and does so by the last response. -/
structure CompletesOnce (r : DataRequest) : Prop where
  once : r.log.count .completeDataAccess ≤ 1
  withData : EachAfter (fun past e => e = .completeDataAccess →
    ∀ j < r.numPackets, r.HasData past j) r.log
  atEnd : r.AllArrived → r.live = true → r.log.count .completeDataAccess = 1

/-- Every fragment is sent, and those that missed in the runahead cache are answered. -/
def Covered (r : DataRequest) : Prop :=
  r.waiting = [] ∧ ∀ j < r.numPackets, j ∈ r.rCachePackets ∨ .dcacheResp j ∈ r.log

/-- The condition: the last response that is due from the runahead cache finds the request
covered. -/
def CoveredAtLast (r : DataRequest) : Label → Prop
  | .rcacheResp i => r.live = true → r.inRCache.erase i = [] → r.Covered
  | _ => True

instance (r : DataRequest) : Decidable r.Covered := inferInstanceAs (Decidable (_ ∧ _))

instance (r : DataRequest) : (l : Label) → Decidable (r.CoveredAtLast l)
  | .rcacheResp i =>
    inferInstanceAs (Decidable (r.live = true → r.inRCache.erase i = [] → r.Covered))
  | .sendPacketToCache _ => isTrue trivial
  | .dcacheResp _ => isTrue trivial
  | .release => isTrue trivial
  | .forgeResponse => isTrue trivial
  | .setRunahead => isTrue trivial

/-! ## The invariant -/

/-- The responses counted are those that have arrived; what is not sent is fresh; and unless the
request is complete, a response is still to come that it counts. -/
structure Inv (r : DataRequest) : Prop where
  pos : 0 < r.numPackets
  single : r.isSplit = false → r.numPackets = 1
  fresh : r.waiting.Nodup ∧ ∀ j ∈ r.waiting, j < r.numPackets ∧ j ∉ r.rCachePackets
  inRCache : ∀ j ∈ r.inRCache, j ∈ r.rCachePackets
  answeredR : ∀ j, .rcacheResp j ∈ r.log → j ∈ r.rCachePackets
  answeredD : ∀ j, j ∈ r.inDCache ∨ .dcacheResp j ∈ r.log → j ∉ r.waiting
  sent : ∀ j < r.numPackets, j ∉ r.waiting →
    j ∈ r.rCachePackets ∧ (j ∈ r.inRCache ∨ .rcacheResp j ∈ r.log) ∨
      j ∉ r.rCachePackets ∧ (j ∈ r.inDCache ∨ .dcacheResp j ∈ r.log)
  countR : r.isSplit = true → r.live = true →
    r.numReceivedRCachePackets + r.inRCache.length = r.rCachePackets.length
  countD : r.isSplit = true → r.live = true → r.rCachePackets = [] →
    r.numReceivedPackets + r.inDCache.length + r.waiting.length = r.numPackets
  oneR : r.isSplit = false → r.inRCache.length + r.waiting.length ≤ 1
  oneD : r.isSplit = false → r.inDCache.length + r.waiting.length ≤ 1
  pending : r.live = true → r.complete = false →
    if r.rCachePackets = [] then r.waiting ≠ [] ∨ r.inDCache ≠ [] else r.inRCache ≠ []
  done : r.complete = true →
    r.waiting = [] ∧ if r.rCachePackets = [] then r.inDCache = [] else r.inRCache = []
  count : r.log.count .completeDataAccess = r.complete.toNat
  withData : EachAfter (fun past e => e = .completeDataAccess →
    ∀ j < r.numPackets, r.HasData past j) r.log

theorem inv_completesOnce (h : Inv r) : CompletesOnce r := by
  refine ⟨?_, h.withData, ?_⟩
  · rw [h.count]
    exact Bool.toNat_le _
  · rintro ⟨hw, hD, hR⟩ hlive
    have hdone : r.complete = true := by
      by_contra hc
      have hp := h.pending hlive (by simpa using hc)
      split at hp
      · rcases hp with hp | hp
        · exact hp hw
        · exact hp hD
      · exact hp hR
    rw [h.count, hdone]
    rfl

theorem init_inv : ∀ r, system.init r → Inv r := by
  rintro r ⟨isLoad, isRunahead, rfl | ⟨n, hn, rfl⟩⟩
  · constructor <;> simp [built, waiting]
  · have hne : List.range n ≠ [] := by simp; omega
    constructor <;> simp [builtSplit, waiting, List.nodup_range, hn, hne]

theorem no_completion (h : Inv r) (hc : r.complete = false) :
    .completeDataAccess ∉ r.log := by
  have hcount := h.count
  rw [hc] at hcount
  exact List.count_eq_zero.mp hcount

theorem eachAfter_notMem {P : List RequestEvent → Prop} {l : List RequestEvent}
    (h : .completeDataAccess ∉ l) : EachAfter (fun past e => e = .completeDataAccess → P past) l := by
  induction l with
  | nil => trivial
  | cons e l ih =>
    rw [List.mem_cons, not_or] at h
    exact ⟨fun he => absurd he.symm h.1, ih h.2⟩

/-! ## Sending -/

section Send

/-- Packet `i` leaves, to the D-cache, to the runahead cache, or to both. -/
def sending (r : DataRequest) (i : Nat) (toD toR : Bool) (outstanding : Nat)
    (unsent : List Nat) : DataRequest :=
  { r with
    sent := true
    inDCache := if toD then r.inDCache ++ [i] else r.inDCache
    rCachePackets := if toR then r.rCachePackets ++ [i] else r.rCachePackets
    inRCache := if toR then r.inRCache ++ [i] else r.inRCache
    numOutstandingPackets := outstanding
    unsentPackets := unsent }

theorem sending_inv {toD toR : Bool} {k : Nat} {l rest : List Nat} (h : Inv r)
    (hor : toD = true ∨ toR = true) (hw : r.waiting = i :: rest)
    (hw' : (r.sending i toD toR k l).waiting = rest) : Inv (r.sending i toD toR k l) := by
  have hincomplete : r.complete = false := by
    by_contra hc
    have hdone := (h.done (by simpa using hc)).1
    rw [hw] at hdone
    cases hdone
  obtain ⟨hnodup, hfresh⟩ := h.fresh
  rw [hw, List.nodup_cons] at hnodup
  have hi : i ∉ r.rCachePackets := (hfresh i (hw ▸ List.mem_cons_self)).2
  have hrest : ∀ j ∈ rest, j ≠ i ∧ j < r.numPackets ∧ j ∉ r.rCachePackets := fun j hj =>
    ⟨fun he => hnodup.1 (he ▸ hj), hfresh j (hw ▸ List.mem_cons_of_mem i hj)⟩
  constructor
  case pos => exact h.pos
  case single => exact h.single
  case fresh =>
    rw [hw']
    refine ⟨hnodup.2, fun j hj => ?_⟩
    cases toR <;> simp [sending, hrest j hj]
  case answeredR =>
    intro j hj
    have hold := h.answeredR j hj
    cases toR <;> simp [sending, hold]
  case answeredD =>
    intro j hj
    rw [hw']
    have hold := h.answeredD j
    rw [hw, List.mem_cons, not_or] at hold
    have hcases : j = i ∨ j ∈ r.inDCache ∨ .dcacheResp j ∈ r.log := by
      cases toD <;> simp [sending] at hj <;> tauto
    rcases hcases with rfl | hj
    · exact hnodup.1
    · exact (hold hj).2
  case inRCache =>
    intro j hj
    have hold := h.inRCache j
    cases toR <;> simp only [sending, Bool.false_eq_true, if_false, if_true, List.mem_append] at hj ⊢
    · exact hold hj
    · exact hj.imp_left hold
  case sent =>
    intro j hj hjw
    rw [hw'] at hjw
    by_cases hji : j = i
    · subst hji
      cases toR with
      | true => simp [sending]
      | false => simp [sending, hi, hor.resolve_right Bool.false_ne_true]
    · have hold := h.sent j hj (by simp [hw, hji, hjw])
      cases toD <;> cases toR <;> simp [sending, hji] <;> tauto
  case countR =>
    intro hs hl
    have hold := h.countR hs hl
    cases toR <;> simp [sending] <;> omega
  case countD =>
    intro hs hl hr
    rw [hw']
    cases toR with
    | true => simp [sending] at hr
    | false =>
      have hold := h.countD hs hl hr
      rw [hw, List.length_cons] at hold
      simp [sending, hor.resolve_right Bool.false_ne_true]
      omega
  case oneR =>
    intro hs
    have hold := h.oneR hs
    rw [hw, List.length_cons] at hold
    rw [hw']
    cases toR <;> simp [sending] <;> omega
  case oneD =>
    intro hs
    have hold := h.oneD hs
    rw [hw, List.length_cons] at hold
    rw [hw']
    cases toD <;> simp [sending] <;> omega
  case pending =>
    intro hl _
    have hold := h.pending hl hincomplete
    cases toR with
    | true => simp [sending]
    | false =>
      have htoD := hor.resolve_right Bool.false_ne_true
      simp only [sending, htoD, Bool.false_eq_true, if_false, if_true]
      split
      · right
        simp
      · rename_i hr
        rwa [if_neg hr] at hold
  case done =>
    intro hc
    exact absurd (hincomplete.symm.trans hc) Bool.false_ne_true
  case count => exact h.count
  case withData =>
    have hlog : .completeDataAccess ∉ r.log := no_completion h hincomplete
    exact eachAfter_notMem hlog

/-- A packet that was not accepted leaves nothing behind but the cleared flag. -/
theorem notSent_inv (h : Inv r) (hs : r.isSplit = true ∨ r.sent = false) {l : List Nat}
    (hl : r.unsentPackets = l) :
    Inv { r with sent := false, unsentPackets := l } := by
  subst hl
  have hw : ({ r with sent := false, unsentPackets := r.unsentPackets } : DataRequest).waiting =
      r.waiting := by
    rcases hs with hs | hs <;> simp [waiting, hs]
  exact ⟨h.pos, h.single, hw ▸ h.fresh, h.inRCache, h.answeredR, hw ▸ h.answeredD, hw ▸ h.sent,
    h.countR, hw ▸ h.countD,
    hw ▸ h.oneR, hw ▸ h.oneD, hw ▸ h.pending, hw ▸ h.done, h.count, h.withData⟩

theorem trySendPacket_cases (r : DataRequest) (i : Nat) (env : SendResult) :
    r.trySendPacket i env = ({ r with sent := false }, 0) ∨
      ∃ toD toR : Bool, (toD = true ∨ toR = true) ∧
        r.trySendPacket i env =
          (r.sending i toD toR r.numOutstandingPackets r.unsentPackets, toD.toNat + toR.toNat) := by
  unfold trySendPacket
  split
  · exact .inl rfl
  · refine .inr ⟨r.toDCache, r.isRunahead && (!r.isLoad || env.hit), ?_, rfl⟩
    unfold toDCache
    cases r.isRunahead <;> cases r.isLoad <;> simp

theorem sendUnsent_inv (env : Nat → SendResult) (l : List Nat) :
    ∀ r : DataRequest, Inv r → r.isSplit = true → r.unsentPackets = l →
      Inv (sendUnsent env l r) := by
  induction l with
  | nil =>
    intro r h hs hl
    simpa [sendUnsent, ← hl] using h
  | cons i rest ih =>
    intro r h hs hl
    have hw : r.waiting = i :: rest := by simp [waiting, hs, hl]
    rcases trySendPacket_cases r i (env i) with heq | ⟨toD, toR, hor, heq⟩
    · simp only [sendUnsent, heq, if_true]
      exact notSent_inv h (.inl hs) hl
    · have hne : ¬ toD.toNat + toR.toNat = 0 := by
        rcases hor with rfl | rfl <;> simp
      simp only [sendUnsent, heq, if_neg hne]
      refine ih _ ?_ hs rfl
      exact sending_inv h hor hw (by simp [waiting, sending, hs])

theorem sendPacketToCache_inv (h : Inv r) (hs : r.sent = false)
    (hsend : r.sendPacketToCache env = some t) : Inv t := by
  unfold sendPacketToCache at hsend
  split at hsend
  · rename_i hsplit
    cases hsend
    exact sendUnsent_inv env _ r h hsplit rfl
  · rename_i hsplit
    have hsplit : r.isSplit = false := by simpa using hsplit
    split at hsend
    · cases hsend
    · have hw : r.waiting = [0] := by simp [waiting, hsplit, hs]
      rcases trySendPacket_cases r 0 (env 0) with heq | ⟨toD, toR, hor, heq⟩
      · simp only [heq] at hsend
        cases hsend
        exact notSent_inv h (.inr hs) rfl
      · simp only [heq] at hsend
        cases hsend
        exact sending_inv h hor hw (by simp [waiting, sending, hsplit])

end Send

/-! ## Responses -/

section Receive

def completeIf (r : DataRequest) (c : Bool) : DataRequest :=
  { r with
    complete := r.complete || c
    log := if c then .completeDataAccess :: r.log else r.log }

/-- A response arrives: the request completes if `c`, and the counters go on. -/
def answering (r : DataRequest) (e : RequestEvent) (c : Bool) (inD inR : List Nat)
    (outstanding countD countR : Nat) : DataRequest :=
  ({ r with
    inDCache := inD
    inRCache := inR
    numOutstandingPackets := outstanding
    numReceivedPackets := countD
    numReceivedRCachePackets := countR }.emit e).completeIf c

theorem packetReplied_eq (h : r.packetReplied = some t) :
    ∃ k, t = { r with numOutstandingPackets := k } := by
  unfold packetReplied at h
  split at h
  · cases h
  · cases h
    exact ⟨_, rfl⟩

/-- A response that does not count changes nothing. -/
theorem recvTimingResp_dead {b : Bool} (h : r.recvTimingResp i b = some t)
    (hl : r.live = false) : t = r := by
  unfold live at hl
  unfold recvTimingResp at h
  split at h
  · exact (Option.some.inj h).symm
  · rename_i hf
    split at h
    · cases h
    · split at h
      · exact (Option.some.inj h).symm
      · rename_i hr
        simp [hf, hr] at hl

theorem recvTimingResp_live {b : Bool} (h : r.recvTimingResp i b = some t)
    (hl : r.live = true) :
    (r.isSplit = true ∧ t = r.recvSplit b) ∨
      (r.isSplit = false ∧ r.recvSingle i b = some t) := by
  simp only [live, Bool.and_eq_true, Bool.not_eq_true'] at hl
  simp only [recvTimingResp, hl.1, hl.2, Bool.false_eq_true, if_false] at h
  split at h
  · cases h
  · split at h
    · rename_i hs
      exact .inl ⟨hs, (Option.some.inj h).symm⟩
    · rename_i hs
      exact .inr ⟨by simpa using hs, h⟩

theorem recv_rcache (h : r.recvTimingResp i true = some t) (hl : r.live = true)
    (hexp : r.rCachePackets ≠ []) :
    t = { r with
        numReceivedRCachePackets := r.numReceivedRCachePackets + r.isSplit.toNat }.completeIf
      (!r.isSplit || r.numReceivedRCachePackets + 1 == r.rCachePackets.length) := by
  rcases recvTimingResp_live h hl with ⟨hs, rfl⟩ | ⟨hs, h⟩
  · by_cases hc : r.numReceivedRCachePackets + 1 = r.rCachePackets.length <;>
      simp [recvSplit, rCacheExpected, hexp, hc, hs, completeIf, completeDataAccess, emit]
  · unfold recvSingle at h
    split at h
    · cases h
    · simp only [rCacheExpected, List.isEmpty_eq_false_iff.mpr hexp, Bool.not_false, if_true] at h
      split at h
      · cases h
        simp [hs, completeIf, completeDataAccess, emit]
      · cases h

theorem recv_dcache (h : r.recvTimingResp i false = some t) (hl : r.live = true)
    (hexp : r.rCachePackets = []) :
    t = { r with numReceivedPackets := r.numReceivedPackets + r.isSplit.toNat }.completeIf
      (!r.isSplit || r.numReceivedPackets + 1 == r.numPackets) := by
  rcases recvTimingResp_live h hl with ⟨hs, rfl⟩ | ⟨hs, h⟩
  · by_cases hc : r.numReceivedPackets + 1 = r.numPackets <;>
      simp [recvSplit, rCacheExpected, hexp, hc, hs, completeIf, completeDataAccess, emit]
  · unfold recvSingle at h
    split at h
    · cases h
    · simp only [rCacheExpected, hexp, List.isEmpty_nil, Bool.not_true, Bool.false_eq_true,
        if_false] at h
      cases h
      simp [hs, completeIf, completeDataAccess, emit]

/-- Once the runahead cache is expected to answer, the D-cache's responses are dropped. -/
theorem recv_dropped (h : r.recvTimingResp i false = some t) (hl : r.live = true)
    (hexp : r.rCachePackets ≠ []) : t = r := by
  rcases recvTimingResp_live h hl with ⟨-, rfl⟩ | ⟨-, h⟩
  · simp [recvSplit, rCacheExpected, hexp]
  · unfold recvSingle at h
    split at h
    · cases h
    · simp only [rCacheExpected, List.isEmpty_eq_false_iff.mpr hexp, Bool.not_false, if_true,
        Bool.false_eq_true, if_false] at h
      exact (Option.some.inj h).symm

/-- Taking a response in changes only the counters, the flag `Complete` and the log. -/
theorem recvTimingResp_frame {b : Bool} (h : r.recvTimingResp i b = some t) :
    ∃ nD nR c l, t = { r with
      numReceivedPackets := nD, numReceivedRCachePackets := nR, complete := c, log := l } := by
  unfold recvTimingResp at h
  split at h
  · cases h
    exact ⟨_, _, _, _, rfl⟩
  split at h
  · cases h
  split at h
  · cases h
    exact ⟨_, _, _, _, rfl⟩
  split at h
  · cases h
    unfold recvSplit
    dsimp only
    repeat' split
    all_goals exact ⟨_, _, _, _, rfl⟩
  · unfold recvSingle at h
    repeat' split at h
    all_goals cases h
    all_goals exact ⟨_, _, _, _, rfl⟩

theorem dcacheResp_frame (h : r.dcacheResp i = some t) : i ∈ r.inDCache ∧
    ∃ k nD nR c l, t = { r with
      inDCache := r.inDCache.erase i, numOutstandingPackets := k
      numReceivedPackets := nD, numReceivedRCachePackets := nR, complete := c, log := l } := by
  unfold dcacheResp at h
  split at h
  · rename_i hi
    obtain ⟨u, hu, hrep⟩ := Option.bind_eq_some_iff.mp h
    obtain ⟨nD, nR, c, l, rfl⟩ := recvTimingResp_frame hu
    obtain ⟨k, rfl⟩ := packetReplied_eq hrep
    exact ⟨hi, k, nD, nR, c, l, rfl⟩
  · cases h

theorem rcacheResp_frame (h : r.rcacheResp i = some t) : i ∈ r.inRCache ∧
    ∃ k nD nR c l, t = { r with
      inRCache := r.inRCache.erase i, numOutstandingPackets := k
      numReceivedPackets := nD, numReceivedRCachePackets := nR, complete := c, log := l } := by
  unfold rcacheResp at h
  split at h
  · rename_i hi
    obtain ⟨u, hu, hrep⟩ := Option.bind_eq_some_iff.mp h
    obtain ⟨nD, nR, c, l, rfl⟩ := recvTimingResp_frame hu
    obtain ⟨k, rfl⟩ := packetReplied_eq hrep
    exact ⟨hi, k, nD, nR, c, l, rfl⟩
  · cases h

/-- The request completes by the last response that is due from the runahead cache. -/
theorem rcacheResp_cases (h : Inv r) (hresp : r.rcacheResp i = some t) :
    i ∈ r.inRCache ∧ ∃ k,
      t = r.answering (.rcacheResp i) (r.live && (r.inRCache.erase i).isEmpty) r.inDCache
        (r.inRCache.erase i) k r.numReceivedPackets
        (r.numReceivedRCachePackets + (r.live && r.isSplit).toNat) := by
  unfold rcacheResp at hresp
  split at hresp
  · rename_i hi
    obtain ⟨u, hu, hrep⟩ := Option.bind_eq_some_iff.mp hresp
    obtain ⟨k, rfl⟩ := packetReplied_eq hrep
    refine ⟨hi, k, ?_⟩
    have hexp : r.rCachePackets ≠ [] := List.ne_nil_of_mem (h.inRCache i hi)
    have hlen := List.length_erase_of_mem hi
    have hpos := List.length_pos_of_mem hi
    cases hl : r.live with
    | false =>
      obtain rfl := recvTimingResp_dead hu hl
      simp [answering, completeIf, emit]
    | true =>
      obtain rfl := recv_rcache hu hl hexp
      have hlast : (!r.isSplit || r.numReceivedRCachePackets + 1 == r.rCachePackets.length) =
          (r.inRCache.erase i).isEmpty := by
        rw [Bool.eq_iff_iff, List.isEmpty_iff, ← List.length_eq_zero_iff]
        cases hs : r.isSplit with
        | true =>
          have hcount := h.countR hs hl
          simp only [Bool.not_true, Bool.false_or, beq_iff_eq]
          omega
        | false =>
          have hone := h.oneR hs
          simp only [Bool.not_false, Bool.true_or, true_iff]
          omega
      simp only [emit, hlast, answering, completeIf, Bool.true_and]
  · cases hresp

/-- With nothing in the runahead cache, the request completes by the last response of the
D-cache. -/
theorem dcacheResp_cases (h : Inv r) (hresp : r.dcacheResp i = some t) :
    i ∈ r.inDCache ∧ ∃ k,
      t = r.answering (.dcacheResp i)
        (r.live && r.rCachePackets.isEmpty && r.waiting.isEmpty && (r.inDCache.erase i).isEmpty)
        (r.inDCache.erase i) r.inRCache k
        (r.numReceivedPackets + (r.live && r.rCachePackets.isEmpty && r.isSplit).toNat)
        r.numReceivedRCachePackets := by
  unfold dcacheResp at hresp
  split at hresp
  · rename_i hi
    obtain ⟨u, hu, hrep⟩ := Option.bind_eq_some_iff.mp hresp
    obtain ⟨k, rfl⟩ := packetReplied_eq hrep
    refine ⟨hi, k, ?_⟩
    have hlen := List.length_erase_of_mem hi
    have hpos := List.length_pos_of_mem hi
    cases hl : r.live with
    | false =>
      obtain rfl := recvTimingResp_dead hu hl
      simp [answering, completeIf, emit]
    | true =>
      by_cases hexp : r.rCachePackets = []
      · obtain rfl := recv_dcache hu hl hexp
        have hlast : (!r.isSplit || r.numReceivedPackets + 1 == r.numPackets) =
            (r.waiting.isEmpty && (r.inDCache.erase i).isEmpty) := by
          rw [Bool.eq_iff_iff, Bool.and_eq_true, List.isEmpty_iff, List.isEmpty_iff,
            ← List.length_eq_zero_iff, ← List.length_eq_zero_iff]
          cases hs : r.isSplit with
          | true =>
            have hcount := h.countD hs hl hexp
            simp only [Bool.not_true, Bool.false_or, beq_iff_eq]
            omega
          | false =>
            have hone := h.oneD hs
            simp only [Bool.not_false, Bool.true_or, true_iff]
            omega
        simp only [emit, hlast, answering, completeIf, hexp, List.isEmpty_nil, Bool.true_and]
      · obtain rfl := recv_dropped hu hl hexp
        simp [answering, completeIf, emit, hexp]
  · cases hresp

section Answering

variable {e e' : RequestEvent} {c : Bool} {inD inR : List Nat} {k nD nR : Nat}

theorem mem_answering_log :
    e' ∈ (r.answering e c inD inR k nD nR).log ↔
      (c = true ∧ e' = .completeDataAccess) ∨ e' = e ∨ e' ∈ r.log := by
  cases c <;> simp [answering, completeIf, emit]

/-- The log after a response, which completes the request only if it is not complete yet and has
all its data. -/
theorem answering_log (h : Inv r) (he : e ≠ .completeDataAccess)
    (hc : c = true → r.complete = false)
    (hdata : c = true → ∀ j < r.numPackets, r.HasData (e :: r.log) j) :
    (r.answering e c inD inR k nD nR).log.count .completeDataAccess =
        (r.answering e c inD inR k nD nR).complete.toNat ∧
      EachAfter (fun past e' => e' = .completeDataAccess →
        ∀ j < r.numPackets, r.HasData past j) (r.answering e c inD inR k nD nR).log := by
  have hold : EachAfter (fun past e' => e' = .completeDataAccess →
      ∀ j < r.numPackets, r.HasData past j) (e :: r.log) :=
    ⟨fun hee => absurd hee he, h.withData⟩
  have hcons : (e :: r.log).count .completeDataAccess = r.complete.toNat := by
    rw [List.count_cons_of_ne he, h.count]
  cases c with
  | true =>
    refine ⟨?_, fun _ => hdata rfl, hold⟩
    simp [answering, completeIf, emit, hcons, hc rfl]
  | false =>
    refine ⟨?_, hold⟩
    simp [answering, completeIf, emit, hcons]

theorem rcacheResp_inv (h : Inv r) (hcov : r.CoveredAtLast (.rcacheResp i))
    (hresp : r.rcacheResp i = some t) : Inv t := by
  obtain ⟨hi, k, rfl⟩ := rcacheResp_cases h hresp
  have hexp : r.rCachePackets ≠ [] := List.ne_nil_of_mem (h.inRCache i hi)
  have hlen := List.length_erase_of_mem hi
  have hpos := List.length_pos_of_mem hi
  have hincomplete : r.complete = false := by
    by_contra hc
    have hdone := (h.done (by simpa using hc)).2
    rw [if_neg hexp] at hdone
    rw [hdone] at hi
    cases hi
  have hlast : (r.live && (r.inRCache.erase i).isEmpty) = true →
      r.Covered ∧ r.inRCache.erase i = [] := by
    intro hc
    rw [Bool.and_eq_true, List.isEmpty_iff] at hc
    exact ⟨hcov hc.1 hc.2, hc.2⟩
  have hstays : ∀ j ∈ r.inRCache, j ∈ r.inRCache.erase i ∨ j = i := by
    intro j hj
    by_cases hji : j = i
    · exact .inr hji
    · exact .inl ((List.mem_erase_of_ne hji).mpr hj)
  obtain ⟨hcount, hdata⟩ := @answering_log _ (.rcacheResp i) _ r.inDCache (r.inRCache.erase i) k
    r.numReceivedPackets (r.numReceivedRCachePackets + (r.live && r.isSplit).toNat)
    h (by simp) (fun _ => hincomplete) (fun hc j hj => by
      obtain ⟨⟨hw, hcovered⟩, hnil⟩ := hlast hc
      by_cases hjr : j ∈ r.rCachePackets
      · left
        rcases h.sent j hj (by simp [hw]) with ⟨-, hin | hin⟩ | ⟨hn, -⟩
        · rcases hstays j hin with hin | rfl
          · simp [hnil] at hin
          · exact List.mem_cons_self
        · exact List.mem_cons_of_mem _ hin
        · exact absurd hjr hn
      · exact .inr ⟨hjr, List.mem_cons_of_mem _ ((hcovered j hj).resolve_left hjr)⟩)
  constructor
  case pos => exact h.pos
  case single => exact h.single
  case fresh => exact h.fresh
  case inRCache => exact fun j hj => h.inRCache j (List.mem_of_mem_erase hj)
  case answeredR =>
    intro j hj
    simp only [mem_answering_log] at hj
    rcases hj with ⟨-, hj⟩ | hj | hj
    · cases hj
    · cases hj
      exact h.inRCache i hi
    · exact h.answeredR j hj
  case answeredD =>
    intro j hj
    simp only [mem_answering_log] at hj
    rcases hj with hj | ⟨-, hj⟩ | hj | hj
    · exact h.answeredD j (.inl hj)
    · cases hj
    · cases hj
    · exact h.answeredD j (.inr hj)
  case sent =>
    intro j hj hjw
    simp only [mem_answering_log]
    rcases h.sent j hj hjw with ⟨hr, hin | hin⟩ | ⟨hr, hin | hin⟩
    · refine .inl ⟨hr, ?_⟩
      rcases hstays j hin with hin | rfl
      · exact .inl hin
      · exact .inr (.inr (.inl rfl))
    · exact .inl ⟨hr, .inr (.inr (.inr hin))⟩
    · exact .inr ⟨hr, .inl hin⟩
    · exact .inr ⟨hr, .inr (.inr (.inr hin))⟩
  case countR =>
    intro hs hl
    have hold := h.countR hs hl
    replace hs : r.isSplit = true := hs
    replace hl : r.live = true := hl
    simp only [answering, completeIf, emit, hs, hl, Bool.and_self, Bool.toNat_true]
    omega
  case countD => exact fun _ _ hr => absurd hr hexp
  case oneR =>
    intro hs
    have hold := h.oneR hs
    change (r.inRCache.erase i).length + r.waiting.length ≤ 1
    omega
  case oneD => exact h.oneD
  case pending =>
    intro hl hc
    replace hl : r.live = true := hl
    simp only [answering, completeIf, emit, hl, Bool.true_and, Bool.or_eq_false_iff,
      List.isEmpty_eq_false_iff] at hc ⊢
    rw [if_neg hexp]
    exact hc.2
  case done =>
    intro hc
    simp only [answering, completeIf, emit, hincomplete, Bool.false_or] at hc ⊢
    obtain ⟨⟨hw, -⟩, hnil⟩ := hlast hc
    rw [if_neg hexp]
    exact ⟨hw, hnil⟩
  case count => exact hcount
  case withData => exact hdata

theorem dcacheResp_inv (h : Inv r) (hresp : r.dcacheResp i = some t) : Inv t := by
  obtain ⟨hi, k, rfl⟩ := dcacheResp_cases h hresp
  have hlen := List.length_erase_of_mem hi
  have hpos := List.length_pos_of_mem hi
  have hlast : (r.live && r.rCachePackets.isEmpty && r.waiting.isEmpty &&
      (r.inDCache.erase i).isEmpty) = true →
      r.rCachePackets = [] ∧ r.waiting = [] ∧ r.inDCache.erase i = [] := by
    intro hc
    simp only [Bool.and_eq_true, List.isEmpty_iff] at hc
    exact ⟨hc.1.1.2, hc.1.2, hc.2⟩
  have hincomplete : r.rCachePackets = [] → r.complete = false := by
    intro hexp
    by_contra hc
    have hdone := (h.done (by simpa using hc)).2
    rw [if_pos hexp] at hdone
    rw [hdone] at hi
    cases hi
  have hstays : ∀ j ∈ r.inDCache, j ∈ r.inDCache.erase i ∨ j = i := by
    intro j hj
    by_cases hji : j = i
    · exact .inr hji
    · exact .inl ((List.mem_erase_of_ne hji).mpr hj)
  obtain ⟨hcount, hdata⟩ := @answering_log _ (.dcacheResp i) _ (r.inDCache.erase i) r.inRCache k
    (r.numReceivedPackets + (r.live && r.rCachePackets.isEmpty && r.isSplit).toNat)
    r.numReceivedRCachePackets h (by simp)
    (fun hc => hincomplete (hlast hc).1) (fun hc j hj => by
      obtain ⟨hexp, hw, hnil⟩ := hlast hc
      rcases h.sent j hj (by simp [hw]) with ⟨hr, -⟩ | ⟨hr, hin | hin⟩
      · simp [hexp] at hr
      · rcases hstays j hin with hin | rfl
        · simp [hnil] at hin
        · exact .inr ⟨hr, List.mem_cons_self⟩
      · exact .inr ⟨hr, List.mem_cons_of_mem _ hin⟩)
  constructor
  case pos => exact h.pos
  case single => exact h.single
  case fresh => exact h.fresh
  case inRCache => exact h.inRCache
  case answeredR =>
    intro j hj
    simp only [mem_answering_log] at hj
    rcases hj with ⟨-, hj⟩ | hj | hj
    · cases hj
    · cases hj
    · exact h.answeredR j hj
  case answeredD =>
    intro j hj
    simp only [mem_answering_log] at hj
    rcases hj with hj | ⟨-, hj⟩ | hj | hj
    · exact h.answeredD j (.inl (List.mem_of_mem_erase hj))
    · cases hj
    · cases hj
      exact h.answeredD i (.inl hi)
    · exact h.answeredD j (.inr hj)
  case sent =>
    intro j hj hjw
    simp only [mem_answering_log]
    rcases h.sent j hj hjw with ⟨hr, hin | hin⟩ | ⟨hr, hin | hin⟩
    · exact .inl ⟨hr, .inl hin⟩
    · exact .inl ⟨hr, .inr (.inr (.inr hin))⟩
    · refine .inr ⟨hr, ?_⟩
      rcases hstays j hin with hin | rfl
      · exact .inl hin
      · exact .inr (.inr (.inl rfl))
    · exact .inr ⟨hr, .inr (.inr (.inr hin))⟩
  case countR => exact h.countR
  case countD =>
    intro hs hl hexp
    have hold := h.countD hs hl hexp
    replace hs : r.isSplit = true := hs
    replace hl : r.live = true := hl
    replace hexp : r.rCachePackets = [] := hexp
    change r.numReceivedPackets + (r.live && r.rCachePackets.isEmpty && r.isSplit).toNat +
      (r.inDCache.erase i).length + r.waiting.length = r.numPackets
    simp only [hs, hl, hexp, List.isEmpty_nil, Bool.and_self, Bool.toNat_true]
    omega
  case oneR => exact h.oneR
  case oneD =>
    intro hs
    have hold := h.oneD hs
    change (r.inDCache.erase i).length + r.waiting.length ≤ 1
    omega
  case pending =>
    intro hl hc
    replace hl : r.live = true := hl
    simp only [answering, completeIf, emit, Bool.or_eq_false_iff] at hc
    have hold := h.pending hl hc.1
    change if r.rCachePackets = [] then r.waiting ≠ [] ∨ r.inDCache.erase i ≠ [] else r.inRCache ≠ []
    split
    · rename_i hexp
      by_contra hnone
      rw [not_or, not_not, not_not] at hnone
      simp [hl, hexp, hnone.1, hnone.2] at hc
    · rename_i hexp
      rwa [if_neg hexp] at hold
  case done =>
    intro hc
    change r.waiting = [] ∧
      if r.rCachePackets = [] then r.inDCache.erase i = [] else r.inRCache = []
    simp only [answering, completeIf, emit, Bool.or_eq_true] at hc
    rcases hc with hc | hc
    · obtain ⟨hw, hnil⟩ := h.done hc
      by_cases hexp : r.rCachePackets = []
      · exact absurd (hincomplete hexp) (by simp [hc])
      · rw [if_neg hexp] at hnil ⊢
        exact ⟨hw, hnil⟩
    · obtain ⟨hexp, hw, hnil⟩ := hlast hc
      rw [if_pos hexp]
      exact ⟨hw, hnil⟩
  case count => exact hcount
  case withData => exact hdata

end Answering

end Receive

/-! ## Runs -/

section Runs

variable {l : Label} {ls : List Label}

theorem step_inv (h : Inv r) (hcov : r.CoveredAtLast l) (hst : r.step l = some t) : Inv t := by
  cases l with
  | sendPacketToCache env =>
    simp only [step] at hst
    split at hst
    · rename_i hs
      exact sendPacketToCache_inv h hs.1 hst
    · cases hst
  | dcacheResp i => exact dcacheResp_inv h hst
  | rcacheResp i => exact rcacheResp_inv h hcov hst
  | release =>
    cases hst
    have hdead : ∀ hl : (({ r with released := true } : DataRequest).live = true), False := by
      intro hl
      simp [live] at hl
    exact { h with
      countR := fun _ hl => (hdead hl).elim
      countD := fun _ hl => (hdead hl).elim
      pending := fun hl => (hdead hl).elim }
  | forgeResponse =>
    simp only [step] at hst
    split at hst
    · cases hst
      have hdead : ∀ hl : (({ r with hasForgedResponse := true } : DataRequest).live = true),
          False := by
        intro hl
        simp [live] at hl
      exact { h with
        countR := fun _ hl => (hdead hl).elim
        countD := fun _ hl => (hdead hl).elim
        pending := fun hl => (hdead hl).elim }
    · cases hst
  | setRunahead =>
    cases hst
    exact { h with }

theorem covered_inv (h : (system.guard CoveredAtLast).Reaches ls r) : Inv r := by
  refine h.invariant init_inv ?_
  rintro r l t hr ⟨hst, hcov⟩
  exact step_inv hr hcov hst

/-- A step outside the condition completes the request while a fragment lacks its data. -/
theorem uncovered_incomplete (h : Inv r) (hcov : ¬ r.CoveredAtLast l) (hst : r.step l = some t) :
    ¬ CompletesOnce t := by
  cases l with
  | rcacheResp i =>
    simp only [CoveredAtLast, Classical.not_imp] at hcov
    obtain ⟨hl, hnil, hcovered⟩ := hcov
    obtain ⟨hi, k, rfl⟩ := rcacheResp_cases h hst
    intro hall
    have hdata := hall.withData
    simp only [answering, completeIf, emit, hl, hnil, List.isEmpty_nil, Bool.and_self, if_true,
      eachAfter_cons] at hdata
    replace hdata := hdata.1 trivial
    -- a fragment that is not sent, or that missed and is not answered, has no data
    have hlacks : ∀ j, j ∉ r.rCachePackets → .dcacheResp j ∉ r.log →
        ¬ r.HasData (.rcacheResp i :: r.log) j := by
      rintro j hr hd (hin | ⟨-, hin⟩)
      · rcases List.mem_cons.mp hin with he | hin
        · cases he
          exact hr (h.inRCache i hi)
        · exact hr (h.answeredR j hin)
      · rcases List.mem_cons.mp hin with he | hin
        · cases he
        · exact hd hin
    simp only [Covered, not_and_or, not_forall, not_or] at hcovered
    rcases hcovered with hw | ⟨j, hj, hr, hd⟩
    · obtain ⟨j, hjw⟩ := List.exists_mem_of_ne_nil _ hw
      obtain ⟨hj, hr⟩ := h.fresh.2 j hjw
      exact hlacks j hr (fun hd => h.answeredD j (.inr hd) hjw) (hdata j hj)
    · exact hlacks j hr hd (hdata j hj)
  | _ => exact absurd trivial hcov

/-- **A request completes once, with all its data.** In every run whose responses of the runahead
cache meet the condition: at most one completion, by the last response at the latest, and at the
completion every fragment has its data. -/
theorem completes_once (h : (system.guard CoveredAtLast).Reaches ls r) : CompletesOnce r :=
  inv_completesOnce (covered_inv h)

/-- A load in two fragments, of which those in `hits` hit in the runahead cache: both are sent, and
the runahead cache answers. -/
def twoFragments (hits : List Nat) : List Label :=
  .sendPacketToCache (fun i => ⟨true, hits.contains i⟩) :: hits.map .rcacheResp

/-- Both fragments hit. -/
theorem completes_once_bothHit :
    ∃ r, (system.guard CoveredAtLast).Reaches (twoFragments [0, 1]) r ∧ CompletesOnce r := by
  have hrun : ((twoFragments [0, 1]).foldlM
      (fun (r : DataRequest) l => if r.CoveredAtLast l then r.step l else none)
      (builtSplit true true 2)).isSome = true := by decide
  obtain ⟨r, hrun⟩ := Option.isSome_iff_exists.mp hrun
  have hreach : (system.guard CoveredAtLast).Reaches (twoFragments [0, 1]) r := by
    refine ⟨builtSplit true true 2, ⟨true, true, .inr ⟨2, by decide, rfl⟩⟩, ?_⟩
    refine System.Run.of_foldlM (M := system.guard CoveredAtLast) (fun r l t hst => ?_) hrun
    split at hst
    · rename_i hcov
      exact ⟨hst, hcov⟩
    · cases hst
  exact ⟨r, hreach, completes_once hreach⟩

/-- One fragment hits and the other misses: the request completes when the runahead cache has
answered, before the D-cache has answered for the other fragment. -/
theorem partial_hit_completes_early :
    ∃ r, system.Reaches (twoFragments [0]) r ∧ ¬ CompletesOnce r := by
  have hrun : ((builtSplit true true 2).step
      (.sendPacketToCache fun i => ⟨true, [0].contains i⟩)).any (fun r =>
        decide (¬ r.CoveredAtLast (.rcacheResp 0)) && (r.step (.rcacheResp 0)).isSome) = true := by
    decide
  obtain ⟨r, hsent, hlast⟩ := (Option.any_eq_true _ _).mp hrun
  rw [Bool.and_eq_true, decide_eq_true_eq] at hlast
  obtain ⟨hcov, hsome⟩ := hlast
  obtain ⟨t, ht⟩ := Option.isSome_iff_exists.mp hsome
  have hreach : (system.guard CoveredAtLast).Reaches ((twoFragments [0]).take 1) r :=
    ⟨_, ⟨true, true, .inr ⟨2, by decide, rfl⟩⟩, .single ⟨hsent, trivial⟩⟩
  exact ⟨t, hreach.of_guard.snoc ht, uncovered_incomplete (covered_inv hreach) hcov ht⟩

end Runs

end DataRequest
end Runahead
end Gem5
