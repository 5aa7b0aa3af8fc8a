import Gem5Runahead.RequestCompletion
import Mathlib.Logic.Function.Basic

/-!
# ExitSignal

When the load/store queue signals that a runahead period may end. A response for the load that
caused the current period raises the signal before anything else is done with it, each packet's
response for itself; the trigger's response is discarded after that, since the load has been given
a forged one. Responses of the loads of earlier periods may arrive at any time.

* `recvTimingResp` — a response arrives, and signals or not.
* `Signal.Proper` — a signal by the current trigger, with all its packets answered.
* `signals_proper` — every signal of the periods entered on the trigger's last packet.
* `first_fragment_signals` — a period entered before that.
-/

namespace Gem5
namespace Runahead

open Transition

/-- A call of `CPU::runaheadLLLReturn`. -/
structure Signal where
  /-- The load whose response has raised it. -/
  load : Nat
  /-- Its request, the response taken away. -/
  request : DataRequest
  /-- The loads that have triggered a period, the last one first. -/
  causes : List Nat

/-- The load has triggered the current period and no other, and its request is answered. -/
def Signal.Proper (sig : Signal) : Prop :=
  (∃ earlier, sig.causes = sig.load :: earlier ∧ sig.load ∉ earlier) ∧ sig.request.AllArrived

/-- The loads of a run by sequence number, and the CPU's runahead mode. -/
structure RunaheadLoads where
  requests : Nat → DataRequest
  /-- `DynInst::isRunahead`. -/
  runahead : Nat → Bool
  inRunahead : Bool := false
  runaheadCause : Nat := 0
  causes : List Nat := []
  signals : List Signal := []

namespace RunaheadLoads

variable {s s' : RunaheadLoads}

section Step

def setRequest (s : RunaheadLoads) (i : Nat) (req : DataRequest) : RunaheadLoads :=
  { s with requests := Function.update s.requests i req }

def instCausedRunahead (s : RunaheadLoads) (i : Nat) : Bool :=
  s.inRunahead && i == s.runaheadCause

def runaheadLLLReturn (s : RunaheadLoads) (i : Nat) : RunaheadLoads :=
  { s with signals := ⟨i, s.requests i, s.causes⟩ :: s.signals }

/-- `LSQUnit::recvTimingResp`; `req` is what the response makes of the request of load `i`. -/
def recvTimingResp (s : RunaheadLoads) (i : Nat) (req : DataRequest) : RunaheadLoads :=
  if s.runahead i && s.instCausedRunahead i then (s.setRequest i req).runaheadLLLReturn i
  else s.setRequest i req

/-- The instructions in flight are marked runahead, with their requests. -/
def markRunahead (s : RunaheadLoads) (inFlight : Nat → Bool) : RunaheadLoads :=
  { s with
    runahead := fun j => s.runahead j || inFlight j
    requests := fun j => { s.requests j with isRunahead := (s.requests j).isRunahead || inFlight j } }

def handleRunaheadLLL (s : RunaheadLoads) (i : Nat) : Option RunaheadLoads := do
  let req ← (s.requests i).step .forgeResponse
  return s.setRequest i req

/-- `CPU::enterRunahead`, for the load at the head of the ROB. -/
def enterRunahead (s : RunaheadLoads) (i : Nat) (inFlight : Nat → Bool) : Option RunaheadLoads :=
  if s.inRunahead || s.runahead i || !inFlight i then none
  else { s.markRunahead inFlight with
    inRunahead := true
    runaheadCause := i
    causes := i :: s.causes }.handleRunaheadLLL i

inductive Label where
  | sendPacketToCache (i : Nat) (env : Nat → DataRequest.SendResult)
  /-- The D-cache answers packet `j` of load `i`. -/
  | dcacheResp (i j : Nat)
  | rcacheResp (i j : Nat)
  | release (i : Nat)
  /-- A runahead load at the head of the ROB gets a forged response. -/
  | forgeResponse (i : Nat)
  | enterRunahead (i : Nat) (inFlight : Nat → Bool)
  | exitRunahead

def step (s : RunaheadLoads) : Label → Option RunaheadLoads
  | .sendPacketToCache i env => do
    let req ← (s.requests i).step (.sendPacketToCache env)
    return s.setRequest i req
  | .dcacheResp i j => do
    let req ← (s.requests i).step (.dcacheResp j)
    return s.recvTimingResp i req
  | .rcacheResp i j => do
    let req ← (s.requests i).step (.rcacheResp j)
    return s.recvTimingResp i req
  | .release i => do
    let req ← (s.requests i).step .release
    return s.setRequest i req
  | .forgeResponse i => if s.inRunahead && s.runahead i then s.handleRunaheadLLL i else none
  | .enterRunahead i inFlight => s.enterRunahead i inFlight
  | .exitRunahead => if s.inRunahead then some { s with inRunahead := false } else none

/-- Any number of loads, each with a new request; those fetched in runahead are runahead from the
start. -/
def system : System RunaheadLoads Label where
  init s := ∃ requests runahead,
    (∀ i, DataRequest.system.init (requests i) ∧ (requests i).isLoad = true ∧
      (requests i).isRunahead = runahead i) ∧
    s = { requests, runahead }
  step s l s' := s.step l = some s'

end Step

section Proper

/-- The packets of a request that are sent and not answered, or not sent yet. -/
def unanswered (r : DataRequest) : Nat :=
  r.waiting.length + r.inDCache.length + r.inRCache.length

/-- The condition: a period is entered with at most one packet of its trigger to be answered. -/
def OnLastPacket (s : RunaheadLoads) : Label → Prop
  | .enterRunahead i _ => unanswered (s.requests i) ≤ 1
  | _ => True

instance (s : RunaheadLoads) : (l : Label) → Decidable (s.OnLastPacket l)
  | .enterRunahead i _ => inferInstanceAs (Decidable (unanswered (s.requests i) ≤ 1))
  | .sendPacketToCache .. => isTrue trivial
  | .dcacheResp .. => isTrue trivial
  | .rcacheResp .. => isTrue trivial
  | .release _ => isTrue trivial
  | .forgeResponse _ => isTrue trivial
  | .exitRunahead => isTrue trivial

/-- The trigger of the current period has caused no other one and is sent, and one packet of it at
most is on its way. -/
structure Inv (s : RunaheadLoads) : Prop where
  sent : ∀ i, (s.requests i).sent = true → (s.requests i).waiting = []
  triggered : ∀ i ∈ s.causes, s.runahead i = true
  current : s.inRunahead = true →
    (∃ earlier, s.causes = s.runaheadCause :: earlier ∧ s.runaheadCause ∉ earlier) ∧
      (s.requests s.runaheadCause).sent = true ∧ unanswered (s.requests s.runaheadCause) ≤ 1
  proper : ∀ sig ∈ s.signals, sig.Proper

/-! ### Requests -/

section Requests

open DataRequest (trySendPacket_cases dcacheResp_frame rcacheResp_frame)

variable {r t : DataRequest} {i : Nat} {env : Nat → DataRequest.SendResult}

theorem unanswered_eq_zero (h : unanswered r = 0) : r.AllArrived := by
  unfold unanswered at h
  refine ⟨?_, ?_, ?_⟩ <;> rw [← List.length_eq_zero_iff] <;> omega

/-- The loop ends with every packet sent, or at one that was not accepted. -/
theorem sendUnsent_sent (env : Nat → DataRequest.SendResult) (l : List Nat) (r : DataRequest) :
    (DataRequest.sendUnsent env l r).isSplit = r.isSplit ∧
      ((DataRequest.sendUnsent env l r).unsentPackets = [] ∨
        (DataRequest.sendUnsent env l r).sent = false) := by
  induction l generalizing r with
  | nil => exact ⟨rfl, .inl rfl⟩
  | cons i rest ih =>
    rcases trySendPacket_cases r i (env i) with heq | ⟨toD, toR, hor, heq⟩
    · simp [DataRequest.sendUnsent, heq]
    · have hne : ¬ toD.toNat + toR.toNat = 0 := by
        rcases hor with rfl | rfl <;> simp
      simp only [DataRequest.sendUnsent, heq, if_neg hne]
      exact ih _

theorem send_sent (h : r.step (.sendPacketToCache env) = some t) :
    r.sent = false ∧ (t.sent = true → t.waiting = []) := by
  simp only [DataRequest.step] at h
  split at h
  · rename_i hs
    refine ⟨hs.1, fun hsent => ?_⟩
    unfold DataRequest.sendPacketToCache at h
    split at h
    · rename_i hsplit
      cases h
      obtain ⟨hframe, hall | hrefused⟩ := sendUnsent_sent env r.unsentPackets r
      · simp [DataRequest.waiting, hframe, hsplit, hall]
      · exact absurd (hrefused.symm.trans hsent) Bool.false_ne_true
    · rename_i hsplit
      split at h
      · cases h
      · rcases trySendPacket_cases r 0 (env 0) with heq | ⟨toD, toR, -, heq⟩
        · simp only [heq] at h
          cases h
          cases hsent
        · simp only [heq] at h
          cases h
          simp [DataRequest.waiting, DataRequest.sending, hsplit]
  · cases h

/-- A response takes one packet away. -/
structure Answers (r t : DataRequest) : Prop where
  sent : t.sent = r.sent
  waiting : t.waiting = r.waiting
  unanswered : unanswered t + 1 = unanswered r

theorem dcacheResp_answers (h : r.dcacheResp i = some t) : Answers r t := by
  obtain ⟨hi, k, nD, nR, c, l, rfl⟩ := dcacheResp_frame h
  have hlen := List.length_erase_of_mem hi
  have hpos := List.length_pos_of_mem hi
  refine ⟨rfl, rfl, ?_⟩
  change r.waiting.length + (r.inDCache.erase i).length + r.inRCache.length + 1 = unanswered r
  unfold unanswered
  omega

theorem rcacheResp_answers (h : r.rcacheResp i = some t) : Answers r t := by
  obtain ⟨hi, k, nD, nR, c, l, rfl⟩ := rcacheResp_frame h
  have hlen := List.length_erase_of_mem hi
  have hpos := List.length_pos_of_mem hi
  refine ⟨rfl, rfl, ?_⟩
  change r.waiting.length + r.inDCache.length + (r.inRCache.erase i).length + 1 = unanswered r
  unfold unanswered
  omega

theorem forgeResponse_eq (h : r.step .forgeResponse = some t) :
    r.sent = true ∧ t = { r with hasForgedResponse := true } := by
  simp only [DataRequest.step] at h
  split at h
  · rename_i hs
    exact ⟨hs.2.1, (Option.some.inj h).symm⟩
  · cases h

end Requests

/-! ### Steps -/

section Keeps

variable {i : Nat} {req : DataRequest}

theorem setRequest_inv (h : Inv s) (hsent : req.sent = true → req.waiting = [])
    (hkeeps : (s.requests i).sent = true →
      req.sent = true ∧ unanswered req ≤ unanswered (s.requests i)) :
    Inv (s.setRequest i req) := by
  refine ⟨fun j hj => ?_, h.triggered, fun hin => ?_, h.proper⟩
  · by_cases hji : j = i
    · subst hji
      simp only [setRequest, Function.update_self] at hj ⊢
      exact hsent hj
    · simp only [setRequest, Function.update_of_ne hji] at hj ⊢
      exact h.sent j hj
  · obtain ⟨hcauses, hs, hlast⟩ := h.current hin
    refine ⟨hcauses, ?_⟩
    by_cases hci : s.runaheadCause = i
    · have hnew := hkeeps (hci ▸ hs)
      rw [hci] at hlast
      simp only [setRequest, hci, Function.update_self]
      exact ⟨hnew.1, Nat.le_trans hnew.2 hlast⟩
    · simp only [setRequest, Function.update_of_ne hci]
      exact ⟨hs, hlast⟩

theorem recvTimingResp_inv (h : Inv s) (hans : Answers (s.requests i) req) :
    Inv (s.recvTimingResp i req) := by
  have hset : Inv (s.setRequest i req) := by
    refine setRequest_inv h (fun hs => ?_) (fun hs => ⟨hans.sent.trans hs, ?_⟩)
    · rw [hans.waiting]
      exact h.sent i (hans.sent ▸ hs)
    · have := hans.unanswered
      omega
  unfold recvTimingResp
  split
  · rename_i hsignals
    simp only [instCausedRunahead, Bool.and_eq_true, beq_iff_eq] at hsignals
    obtain ⟨-, hin, rfl⟩ := hsignals
    obtain ⟨hcauses, -, hlast⟩ := h.current hin
    have hdone : unanswered req = 0 := by
      have := hans.unanswered
      omega
    refine ⟨hset.sent, hset.triggered, hset.current, List.forall_mem_cons.mpr ⟨⟨hcauses, ?_⟩, h.proper⟩⟩
    simp only [setRequest, Function.update_self]
    exact unanswered_eq_zero hdone
  · exact hset

/-- A forged response changes nothing that the signals depend on. -/
theorem handleRunaheadLLL_inv (h : Inv s) (hst : s.handleRunaheadLLL i = some s') : Inv s' := by
  obtain ⟨req, hreq, hs'⟩ := Option.bind_eq_some_iff.mp hst
  cases hs'
  obtain ⟨hsent, rfl⟩ := forgeResponse_eq hreq
  exact setRequest_inv h (fun _ => h.sent i hsent) (fun hs => ⟨hs, Nat.le_refl _⟩)

theorem enterRunahead_inv {inFlight : Nat → Bool} (h : Inv s)
    (hlast : unanswered (s.requests i) ≤ 1) (hst : s.enterRunahead i inFlight = some s') :
    Inv s' := by
  unfold enterRunahead at hst
  split at hst
  · cases hst
  · rename_i henters
    simp only [Bool.or_eq_true, not_or, Bool.not_eq_true, Bool.not_eq_false'] at henters
    obtain ⟨⟨-, hfresh⟩, hin⟩ := henters
    have hsent : (s.requests i).sent = true := by
      obtain ⟨req, hreq, -⟩ := Option.bind_eq_some_iff.mp hst
      exact (forgeResponse_eq hreq).1
    have hnew : i ∉ s.causes := fun hmem =>
      absurd (hfresh.symm.trans (h.triggered i hmem)) Bool.false_ne_true
    have hentered : Inv { s.markRunahead inFlight with
        inRunahead := true, runaheadCause := i, causes := i :: s.causes } := by
      refine ⟨h.sent, ?_, fun _ => ⟨⟨s.causes, rfl, hnew⟩, hsent, hlast⟩, h.proper⟩
      intro j hj
      rcases List.mem_cons.mp hj with rfl | hj
      · simp [markRunahead, hin]
      · simp [markRunahead, h.triggered j hj]
    exact handleRunaheadLLL_inv hentered hst

theorem step_inv {l : Label} (h : Inv s) (hlast : s.OnLastPacket l) (hst : s.step l = some s') :
    Inv s' := by
  cases l with
  | sendPacketToCache i env =>
    obtain ⟨req, hreq, hs'⟩ := Option.bind_eq_some_iff.mp hst
    cases hs'
    obtain ⟨hunsent, hsent⟩ := send_sent hreq
    exact setRequest_inv h hsent (fun hs => absurd (hunsent.symm.trans hs) Bool.false_ne_true)
  | dcacheResp i j =>
    obtain ⟨req, hreq, hs'⟩ := Option.bind_eq_some_iff.mp hst
    cases hs'
    exact recvTimingResp_inv h (dcacheResp_answers hreq)
  | rcacheResp i j =>
    obtain ⟨req, hreq, hs'⟩ := Option.bind_eq_some_iff.mp hst
    cases hs'
    exact recvTimingResp_inv h (rcacheResp_answers hreq)
  | release i =>
    cases hst
    exact setRequest_inv h (h.sent i) (fun hs => ⟨hs, Nat.le_refl _⟩)
  | forgeResponse i =>
    simp only [step] at hst
    split at hst
    · exact handleRunaheadLLL_inv h hst
    · cases hst
  | enterRunahead i inFlight => exact enterRunahead_inv h hlast hst
  | exitRunahead =>
    simp only [step] at hst
    split at hst
    · cases hst
      exact ⟨h.sent, h.triggered, by simp, h.proper⟩
    · cases hst

end Keeps

theorem init_inv : ∀ s, system.init s → Inv s := by
  rintro s ⟨requests, runahead, hnew, rfl⟩
  refine ⟨fun i hi => ?_, by simp, by simp, by simp⟩
  obtain ⟨isLoad, isRunahead, heq | ⟨n, -, heq⟩⟩ := (hnew i).1
  · simp [heq, DataRequest.built] at hi
  · simp [heq, DataRequest.builtSplit] at hi

/-- Every signal of a run that enters its periods on the last packet of their triggers is raised by
the current trigger, when all its packets are answered. -/
theorem signals_proper {ls : List Label} (h : (system.guard OnLastPacket).Reaches ls s) :
    ∀ sig ∈ s.signals, sig.Proper := by
  refine (h.invariant (I := Inv) init_inv ?_).proper
  rintro s l s' hinv ⟨hst, hlast⟩
  exact step_inv hinv hlast hst

/-- Loads like `req`, all of them fetched before the period. -/
def loads (req : DataRequest) : RunaheadLoads where
  requests := fun _ => req
  runahead := fun _ => false

/-- Two split loads trigger a period each, when one fragment of them has come back. The other
fragment of the first comes back in the period of the second. -/
def laterTrigger : List Label :=
  [.sendPacketToCache 1 (fun _ => ⟨true, false⟩), .dcacheResp 1 0, .enterRunahead 1 (· == 1),
    .exitRunahead, .sendPacketToCache 2 (fun _ => ⟨true, false⟩), .dcacheResp 2 1,
    .enterRunahead 2 (· == 2), .dcacheResp 1 1, .dcacheResp 2 0]

theorem signals_proper_laterTrigger : ∃ s sig, (system.guard OnLastPacket).Reaches laterTrigger s ∧
    s.causes = [2, 1] ∧ s.signals = [sig] ∧ sig.load = 2 ∧ sig.Proper := by
  have hrun : (laterTrigger.foldlM (fun s l => if OnLastPacket s l then step s l else none)
      (loads (.builtSplit true false 2))).any (fun s =>
        s.causes == [2, 1] && s.signals.map (·.load) == [2]) = true := by decide +kernel
  obtain ⟨s, hs, hends⟩ := (Option.any_eq_true _ _).mp hrun
  rw [Bool.and_eq_true, beq_iff_eq, beq_iff_eq] at hends
  obtain ⟨hcauses, hloads⟩ := hends
  obtain ⟨sig, hsignals, hload⟩ := List.map_eq_singleton_iff.mp hloads
  have hreach : (system.guard OnLastPacket).Reaches laterTrigger s := by
    refine ⟨_, ⟨_, _, fun _ => ⟨⟨true, false, .inr ⟨2, by decide, rfl⟩⟩, rfl, rfl⟩, rfl⟩,
      .of_foldlM ?_ hs⟩
    intro s l t hst
    split at hst
    · rename_i hlast
      exact ⟨hst, hlast⟩
    · cases hst
  have hsig : sig ∈ s.signals := by rw [hsignals]; exact List.mem_singleton_self sig
  exact ⟨s, sig, hreach, hcauses, hsignals, hload, signals_proper hreach sig hsig⟩

/-- A load is sent and triggers a period; the D-cache answers its packet `0`. -/
def triggered : List Label :=
  [.sendPacketToCache 1 (fun _ => ⟨true, false⟩), .enterRunahead 1 (· == 1), .dcacheResp 1 0]

/-- The first of two fragments signals that the period may end; the other one is still in the
D-cache. -/
theorem first_fragment_signals : ∃ s, system.Reaches triggered s ∧
    ∃ sig ∈ s.signals, sig.load = s.runaheadCause ∧ sig.request.inDCache = [1] ∧
      ¬ sig.Proper := by
  have hrun : (triggered.foldlM step (loads (.builtSplit true false 2))).any (fun s =>
      s.signals.any fun sig => sig.load == s.runaheadCause && sig.request.inDCache == [1]) =
        true := by decide +kernel
  obtain ⟨s, hs, hearly⟩ := (Option.any_eq_true _ _).mp hrun
  obtain ⟨sig, hsig, hh⟩ := List.any_eq_true.mp hearly
  rw [Bool.and_eq_true, beq_iff_eq, beq_iff_eq] at hh
  have himproper : ¬ sig.Proper := fun hproper => by
    rw [hproper.2.2.1] at hh
    cases hh.2
  refine ⟨s, ⟨_, ?_, .of_foldlM (M := system) (fun _ _ _ h => h) hs⟩, sig, hsig, hh.1, hh.2,
    himproper⟩
  exact ⟨_, _, fun _ => ⟨⟨true, false, .inr ⟨2, by decide, rfl⟩⟩, rfl, rfl⟩, rfl⟩

end Proper

end RunaheadLoads

end Runahead
end Gem5
