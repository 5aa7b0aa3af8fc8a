import Gem5Runahead.DynInst
import Gem5Runahead.RequestCompletion

/-!
# LoadPoison

How the poison of a runahead-cache block gets to the load that reads it. A read of a poisoned block
marks the request. When the access completes, `writeback` poisons the load if the request is marked
and the packet it is given, the request's main packet, is one of those the runahead cache has
answered with. The main packet of a single request is its runahead-cache packet. A split request
has a main packet of its own, and it assembles a response that counts as a runahead-cache packet for
`completeDataAccess`, but that is not the packet handed on.

* `writeback`, `completeDataAccess` — from the request to the instruction.
* `load_poison_iff` — the runs in which the poison arrives.
* `split_load_loses_poison` — a run in which it does not.
-/

namespace Gem5
namespace Runahead

/-- The packets around a load's request. -/
inductive PacketPtr where
  /-- Of `_packets`. -/
  | packet (i : Nat)
  /-- The runahead cache's copy. -/
  | rCachePacket (i : Nat)
  /-- `_mainPacket` of a split request. -/
  | mainPacket
  /-- What `SplitDataRequest::recvTimingResp` assembles. -/
  | resp
  /-- The copy that `forgeResponse` makes. -/
  | forged
deriving DecidableEq

/-- The load is handed to `instToCommit`. -/
structure Handed where
  /-- Whether the load was poisoned before its writeback. -/
  before : Bool
  /-- Whether a read of the runahead cache has marked the request. -/
  marked : Bool
  poisoned : Bool

/-- When the load is handed to commit, it is poisoned if it was before, or if the request is
marked. -/
def Handed.Exact (h : Handed) : Prop := h.poisoned = (h.before || h.marked)

instance (h : Handed) : Decidable h.Exact := inferInstanceAs (Decidable (_ = _))

/-- A load, with the request it has sent. -/
structure LoadAccess where
  req : DataRequest
  inst : DynInst
  inRunahead : Bool
  /-- The flag `Poisoned` of the request. -/
  reqPoisoned : Bool := false
  /-- A writeback event for a forged response is scheduled. -/
  forged : Bool := false
  /-- The last one first; the code does not keep it. -/
  handed : List Handed := []

namespace LoadAccess

variable {s s' : LoadAccess}

section Writeback

/-- `_rCachePackets`. -/
def rCachePackets (s : LoadAccess) : List PacketPtr := s.req.rCachePackets.map .rCachePacket

def mainPacket (s : LoadAccess) : Option PacketPtr :=
  if s.req.isSplit then some .mainPacket
  else if s.req.rCacheExpected then
    match s.req.rCachePackets with
    | [i] => some (.rCachePacket i)
    | _ => none
  else if s.req.numPackets = 1 then some (.packet 0) else none

/-- `LSQUnit::writeback`; `rCachePackets` is the list of the request at this moment. -/
def writeback (s : LoadAccess) (rCachePackets : List PacketPtr) (pkt : PacketPtr) : LoadAccess :=
  if s.inst.squashed then s
  else if s.inst.runahead && !s.inRunahead then s
  else
    let poisoned := s.inst.poisoned || decide (pkt ∈ rCachePackets) && s.reqPoisoned
    { s with
      inst := { s.inst with poisoned, executed := true }
      handed := ⟨s.inst.poisoned, s.reqPoisoned, poisoned⟩ :: s.handed }

/-- `LSQUnit::completeDataAccess` for the packet that completes the request. -/
def completeDataAccess (s : LoadAccess) (rCachePackets : List PacketPtr) (pkt : PacketPtr) :
    Option LoadAccess :=
  if s.req.rCacheExpected && decide (pkt ∉ rCachePackets) then some s
  else do
    let main ← s.mainPacket
    return s.writeback rCachePackets main

/-- The response `pkt` has completed the request. A split request assembles a packet, and tracks it
as one of the runahead cache for the time being. -/
def complete (s : LoadAccess) (pkt : PacketPtr) : Option LoadAccess :=
  if s.req.isSplit then
    s.completeDataAccess (if s.req.rCacheExpected then s.rCachePackets ++ [.resp]
      else s.rCachePackets) .resp
  else s.completeDataAccess s.rCachePackets pkt

end Writeback

section Step

inductive Label where
  /-- `poisonedBlock i`: the block that packet `i` reads in the runahead cache is poisoned. -/
  | sendPacketToCache (env : Nat → DataRequest.SendResult) (poisonedBlock : Nat → Bool)
  | dcacheResp (i : Nat)
  | rcacheResp (i : Nat)
  | forgeResponse
  | forgedWriteback
  | release
  | squash
  | enterRunahead
  | exitRunahead

def completions (r : DataRequest) : Nat := r.log.count .completeDataAccess

/-- The request has taken the response `pkt`; if it is complete now, the load is written back. -/
def recvTimingResp (s : LoadAccess) (req : DataRequest) (pkt : PacketPtr) : Option LoadAccess :=
  if completions s.req < completions req then { s with req }.complete pkt
  else some { s with req }

/-- `RunaheadCache::read` marks the request for a packet that hits a poisoned block. -/
def sendPacketToCache (s : LoadAccess) (req : DataRequest) (poisonedBlock : Nat → Bool) :
    LoadAccess :=
  { s with
    req
    reqPoisoned := s.reqPoisoned ||
      (req.rCachePackets.drop s.req.rCachePackets.length).any poisonedBlock }

def step (s : LoadAccess) : Label → Option LoadAccess
  | .sendPacketToCache env poisonedBlock => do
    let req ← s.req.step (.sendPacketToCache env)
    return s.sendPacketToCache req poisonedBlock
  | .dcacheResp i => do
    let req ← s.req.step (.dcacheResp i)
    s.recvTimingResp req (.packet i)
  | .rcacheResp i => do
    let req ← s.req.step (.rcacheResp i)
    s.recvTimingResp req (.rCachePacket i)
  | .forgeResponse => do
    -- `CPU::handleRunaheadLLL`
    if s.inst.runahead then
      let req ← s.req.step .forgeResponse
      return { s with
        req
        inst := s.inst.setPoisoned.setExecuted
        forged := true }
    else none
  | .forgedWriteback =>
    if s.forged then some { s.writeback s.rCachePackets .forged with forged := false } else none
  | .release => do
    let req ← s.req.step .release
    return { s with req }
  | .squash => some { s with inst := s.inst.setSquashed }
  | .enterRunahead => do
    let req ← s.req.step .setRunahead
    return { s with req, inst := s.inst.setRunahead, inRunahead := true }
  | .exitRunahead => some { s with inRunahead := false }

/-- A load with a new request, single or split into any number of fragments. -/
def system : Transition.System LoadAccess Label where
  init s := ∃ req inst, DataRequest.system.init req ∧ req.isLoad = true ∧ inst.isLoad = true ∧
    inst.runahead = req.isRunahead ∧ inst.poisoned = false ∧
    s = { req, inst, inRunahead := req.isRunahead }
  step s l s' := s.step l = some s'

end Step

section Exact

open DataRequest (recv_rcache recv_dropped recvTimingResp_dead packetReplied_eq dcacheResp_frame
  rcacheResp_frame)

/-- What `writeback` does not drop. -/
def Heard (s : LoadAccess) : Prop :=
  s.inst.squashed = false ∧ (s.inst.runahead = true → s.inRunahead = true)

/-- The last response of the runahead cache completes a split request that a read of the runahead
cache has marked, and the load is not poisoned otherwise. -/
structure LosesPoison (s : LoadAccess) (l : Label) : Prop where
  split : s.req.isSplit = true
  marked : s.reqPoisoned = true
  unpoisoned : s.inst.poisoned = false
  heard : s.Heard
  last : (∃ i, l = .rcacheResp i) ∧ s.req.live = true ∧
    s.req.numReceivedRCachePackets + 1 = s.req.rCachePackets.length

/-- What is marked has hit in the runahead cache, and a load with a forged response is poisoned. -/
structure Inv (s : LoadAccess) : Prop where
  marked : s.reqPoisoned = true → s.req.rCachePackets ≠ []
  forged : s.forged = true → s.inst.poisoned = true

theorem writeback_cases (s : LoadAccess) (l : List PacketPtr) (pkt : PacketPtr) :
    ¬ s.Heard ∧ s.writeback l pkt = s ∨
      s.Heard ∧ ∃ h : Handed,
        (h.Exact ↔ (s.reqPoisoned = true → s.inst.poisoned = true ∨ pkt ∈ l)) ∧
        (s.inst.poisoned = true → h.poisoned = true) ∧
        s.writeback l pkt = { s with
          inst := { s.inst with poisoned := h.poisoned, executed := true }
          handed := h :: s.handed } := by
  unfold writeback Heard
  split
  · rename_i hsquashed
    exact .inl ⟨by simp [hsquashed], rfl⟩
  · rename_i hlive
    split
    · rename_i hstale
      rw [Bool.and_eq_true, Bool.not_eq_true'] at hstale
      exact .inl ⟨by simp [hstale], rfl⟩
    · rename_i hcurrent
      refine .inr ⟨⟨by simpa using hlive, fun hrunahead => ?_⟩, ⟨s.inst.poisoned, s.reqPoisoned, _⟩,
        ?_, ?_, rfl⟩
      · simpa [hrunahead] using hcurrent
      · unfold Handed.Exact
        cases s.inst.poisoned <;> cases s.reqPoisoned <;> simp
      · intro hpoisoned
        simp [hpoisoned]

theorem writeback_inv (h : Inv s) (l : List PacketPtr) (pkt : PacketPtr) :
    Inv (s.writeback l pkt) := by
  rcases writeback_cases s l pkt with ⟨-, heq⟩ | ⟨-, hd, -, hpoisoned, heq⟩
  · rwa [heq]
  · rw [heq]
    exact ⟨h.marked, fun hforged => hpoisoned (h.forged hforged)⟩

/-! ### Sending -/

section Send

open DataRequest (trySendPacket_cases)

variable {r t : DataRequest} {env : Nat → DataRequest.SendResult}

theorem trySendPacket_prefix (r : DataRequest) (i : Nat) (env : DataRequest.SendResult) :
    r.rCachePackets <+: (r.trySendPacket i env).1.rCachePackets := by
  rcases trySendPacket_cases r i env with heq | ⟨toD, toR, -, heq⟩
  · simp [heq]
  · rw [heq]
    cases toR
    · exact List.prefix_rfl
    · exact List.prefix_append ..

theorem sendUnsent_prefix (env : Nat → DataRequest.SendResult) (l : List Nat) (r : DataRequest) :
    r.rCachePackets <+: (DataRequest.sendUnsent env l r).rCachePackets := by
  induction l generalizing r with
  | nil => exact List.prefix_rfl
  | cons i rest ih =>
    have hsent := trySendPacket_prefix r i (env i)
    simp only [DataRequest.sendUnsent]
    split
    · exact hsent
    · exact hsent.trans (ih { (r.trySendPacket i (env i)).1 with
        numOutstandingPackets := _, unsentPackets := rest })

theorem send_prefix (h : r.step (.sendPacketToCache env) = some t) :
    r.rCachePackets <+: t.rCachePackets := by
  simp only [DataRequest.step] at h
  split at h
  · unfold DataRequest.sendPacketToCache at h
    split at h
    · cases h
      exact sendUnsent_prefix env _ r
    · split at h
      · cases h
      · cases h
        exact trySendPacket_prefix r 0 (env 0)
  · cases h

end Send

/-! ### Responses -/

section Response

variable {r t : DataRequest} {i : Nat} {b : Bool} {pkt : PacketPtr}

theorem dcacheResp_recv (h : r.dcacheResp i = some t) :
    ∃ u k, ({ r with inDCache := r.inDCache.erase i }.emit (.dcacheResp i)).recvTimingResp i false =
      some u ∧ t = { u with numOutstandingPackets := k } := by
  unfold DataRequest.dcacheResp at h
  split at h
  · obtain ⟨u, hu, hreplied⟩ := Option.bind_eq_some_iff.mp h
    obtain ⟨k, rfl⟩ := packetReplied_eq hreplied
    exact ⟨u, k, hu, rfl⟩
  · cases h

theorem rcacheResp_recv (h : r.rcacheResp i = some t) :
    ∃ u k, ({ r with inRCache := r.inRCache.erase i }.emit (.rcacheResp i)).recvTimingResp i true =
      some u ∧ t = { u with numOutstandingPackets := k } := by
  unfold DataRequest.rcacheResp at h
  split at h
  · obtain ⟨u, hu, hreplied⟩ := Option.bind_eq_some_iff.mp h
    obtain ⟨k, rfl⟩ := packetReplied_eq hreplied
    exact ⟨u, k, hu, rfl⟩
  · cases h

/-- Once a fragment has hit in the runahead cache, the D-cache completes nothing. -/
theorem dcacheResp_completions (h : r.dcacheResp i = some t) (hexp : r.rCachePackets ≠ []) :
    completions t = completions r := by
  obtain ⟨u, k, hu, rfl⟩ := dcacheResp_recv h
  cases hlive : r.live with
  | false =>
    rw [recvTimingResp_dead hu hlive]
    simp [completions, DataRequest.emit]
  | true =>
    rw [recv_dropped hu hlive hexp]
    simp [completions, DataRequest.emit]

theorem rcacheResp_completions (h : r.rcacheResp i = some t) (hsplit : r.isSplit = true)
    (hexp : r.rCachePackets ≠ []) :
    completions r < completions t ↔
      r.live = true ∧ r.numReceivedRCachePackets + 1 = r.rCachePackets.length := by
  obtain ⟨u, k, hu, rfl⟩ := rcacheResp_recv h
  cases hlive : r.live with
  | false =>
    rw [recvTimingResp_dead hu hlive]
    simp [completions, DataRequest.emit]
  | true =>
    rw [recv_rcache hu hlive hexp]
    by_cases hlast : r.numReceivedRCachePackets + 1 = r.rCachePackets.length
    · simp [completions, DataRequest.emit, DataRequest.completeIf, hlast]
    · simp [completions, DataRequest.emit, DataRequest.completeIf, hlast, hsplit]

end Response

/-! ### Steps -/

/-- A split request hands its own main packet on, which is not among those of the runahead
cache. -/
theorem complete_split (s : LoadAccess) (pkt : PacketPtr) (hsplit : s.req.isSplit = true) :
    ∃ l, .mainPacket ∉ l ∧ s.complete pkt = some (s.writeback l .mainPacket) := by
  have hmain : s.mainPacket = some .mainPacket := by
    simp [mainPacket, hsplit]
  refine ⟨if s.req.rCacheExpected then s.rCachePackets ++ [.resp] else s.rCachePackets, ?_, ?_⟩
  · split <;> simp [rCachePackets]
  · simp only [complete, hsplit, if_true, completeDataAccess, hmain]
    rw [if_neg]
    · rfl
    · cases hexp : s.req.rCacheExpected <;> simp

/-- A single request that the runahead cache has answered hands on its answer. -/
theorem complete_single {pkt : PacketPtr} (hsplit : s.req.isSplit = false)
    (h : s.complete pkt = some s') :
    s' = s ∨ ∃ main, (s.req.rCachePackets ≠ [] → main ∈ s.rCachePackets) ∧
      s' = s.writeback s.rCachePackets main := by
  simp only [complete, hsplit, Bool.false_eq_true, if_false, completeDataAccess] at h
  split at h
  · exact .inl (Option.some.inj h).symm
  · obtain ⟨main, hmain, hs'⟩ := Option.bind_eq_some_iff.mp h
    refine .inr ⟨main, fun hexp => ?_, (Option.some.inj hs').symm⟩
    simp only [mainPacket, hsplit, Bool.false_eq_true, if_false, DataRequest.rCacheExpected,
      List.isEmpty_eq_false_iff.mpr hexp, Bool.not_false, if_true] at hmain
    split at hmain
    · rename_i i hlist
      cases hmain
      simp [rCachePackets, hlist]
    · cases hmain

/-- What a step hands to commit, if anything, is exact unless the step loses the poison. -/
def HandsOn (s : LoadAccess) (l : Label) (s' : LoadAccess) : Prop :=
  s'.handed = s.handed ∧ ¬ s.LosesPoison l ∨
    ∃ h, s'.handed = h :: s.handed ∧ (Handed.Exact h ↔ ¬ s.LosesPoison l)

theorem recvTimingResp_handsOn {l : Label} {req : DataRequest} {pkt : PacketPtr} (hinv : Inv s)
    (hframe : req.isSplit = s.req.isSplit ∧ req.rCachePackets = s.req.rCachePackets)
    (hlast : s.req.isSplit = true → s.req.rCachePackets ≠ [] →
      (completions s.req < completions req ↔ (∃ i, l = .rcacheResp i) ∧ s.req.live = true ∧
        s.req.numReceivedRCachePackets + 1 = s.req.rCachePackets.length))
    (h : s.recvTimingResp req pkt = some s') : Inv s' ∧ s.HandsOn l s' := by
  have hinv' : Inv { s with req } := ⟨fun hm => hframe.2 ▸ hinv.marked hm, hinv.forged⟩
  unfold recvTimingResp at h
  split at h
  · rename_i hcompletes
    cases hsplit : s.req.isSplit with
    | true =>
      obtain ⟨rc, hmem, heq⟩ := complete_split { s with req } pkt (hframe.1.trans hsplit)
      rw [heq] at h
      cases h
      refine ⟨writeback_inv hinv' rc _, ?_⟩
      rcases writeback_cases { s with req } rc .mainPacket with
        ⟨hdropped, hwb⟩ | ⟨hheard, hd, hexact, -, hwb⟩
      · exact .inl ⟨by rw [hwb], fun hloses => hdropped hloses.heard⟩
      · refine .inr ⟨hd, by rw [hwb], hexact.trans ⟨fun hpoison hloses => ?_, fun hkeeps hmarked => ?_⟩⟩
        · rcases hpoison hloses.marked with hpoisoned | hin
          · exact absurd (hloses.unpoisoned.symm.trans hpoisoned) Bool.false_ne_true
          · exact hmem hin
        · by_contra hnot
          rw [not_or] at hnot
          have hexp := hinv.marked hmarked
          exact hkeeps ⟨hsplit, hmarked, by simpa using hnot.1, hheard,
            (hlast hsplit hexp).mp hcompletes⟩
    | false =>
      have hkeeps : ¬ s.LosesPoison l := fun hloses =>
        absurd (hsplit.symm.trans hloses.split) Bool.false_ne_true
      rcases complete_single (hframe.1.trans hsplit) h with rfl | ⟨main, hmain, rfl⟩
      · exact ⟨hinv', .inl ⟨rfl, hkeeps⟩⟩
      · refine ⟨writeback_inv hinv' _ _, ?_⟩
        rcases writeback_cases { s with req } ({ s with req } : LoadAccess).rCachePackets main with
          ⟨-, hwb⟩ | ⟨-, hd, hexact, -, hwb⟩
        · exact .inl ⟨by rw [hwb], hkeeps⟩
        · refine .inr ⟨hd, by rw [hwb], iff_of_true (hexact.mpr fun hmarked => .inr ?_) hkeeps⟩
          exact hmain (hinv'.marked hmarked)
  · rename_i hpending
    cases h
    refine ⟨hinv', .inl ⟨rfl, fun hloses => hpending ?_⟩⟩
    exact (hlast hloses.split (hinv.marked hloses.marked)).mpr hloses.last

/-- Nothing is handed on by a label that is not a response of the runahead cache. -/
theorem handsOn_frame {l : Label} (hl : ∀ i, l ≠ .rcacheResp i) (h : s'.handed = s.handed) :
    s.HandsOn l s' :=
  .inl ⟨h, fun hloses => by
    obtain ⟨i, rfl⟩ := hloses.last.1
    exact hl i rfl⟩

theorem step_inv {l : Label} (hinv : Inv s) (h : s.step l = some s') :
    Inv s' ∧ s.HandsOn l s' := by
  cases l with
  | sendPacketToCache env poisonedBlock =>
    obtain ⟨req, hreq, hs'⟩ := Option.bind_eq_some_iff.mp h
    cases hs'
    refine ⟨⟨fun hmarked hnil => ?_, hinv.forged⟩, handsOn_frame (by simp) rfl⟩
    obtain ⟨sent, hsent⟩ := send_prefix hreq
    replace hnil : req.rCachePackets = [] := hnil
    simp only [sendPacketToCache, hnil, List.drop_nil, List.any_nil, Bool.or_false] at hmarked
    rw [hnil, List.append_eq_nil_iff] at hsent
    exact hinv.marked hmarked hsent.1
  | dcacheResp i =>
    obtain ⟨req, hreq, hs'⟩ := Option.bind_eq_some_iff.mp h
    have hframe : req.isSplit = s.req.isSplit ∧ req.rCachePackets = s.req.rCachePackets := by
      obtain ⟨-, k, nD, nR, c, log, rfl⟩ := dcacheResp_frame hreq
      exact ⟨rfl, rfl⟩
    refine recvTimingResp_handsOn hinv hframe (fun _ hexp => ?_) hs'
    rw [dcacheResp_completions hreq hexp]
    simp
  | rcacheResp i =>
    obtain ⟨req, hreq, hs'⟩ := Option.bind_eq_some_iff.mp h
    have hframe : req.isSplit = s.req.isSplit ∧ req.rCachePackets = s.req.rCachePackets := by
      obtain ⟨-, k, nD, nR, c, log, rfl⟩ := rcacheResp_frame hreq
      exact ⟨rfl, rfl⟩
    refine recvTimingResp_handsOn hinv hframe (fun hsplit hexp => ?_) hs'
    rw [rcacheResp_completions hreq hsplit hexp]
    simp
  | forgeResponse =>
    simp only [step] at h
    split at h
    · obtain ⟨req, hreq, hs'⟩ := Option.bind_eq_some_iff.mp h
      cases hs'
      simp only [DataRequest.step] at hreq
      split at hreq
      · cases hreq
        exact ⟨⟨hinv.marked, fun _ => rfl⟩, handsOn_frame (by simp) rfl⟩
      · cases hreq
    · cases h
  | forgedWriteback =>
    simp only [step] at h
    split at h
    · rename_i hforged
      cases h
      have hpoisoned := hinv.forged hforged
      have hkept := writeback_inv hinv s.rCachePackets .forged
      refine ⟨⟨hkept.marked, fun hf => by cases hf⟩, ?_⟩
      have hkeeps : ¬ s.LosesPoison .forgedWriteback := fun hloses =>
        absurd (hloses.unpoisoned.symm.trans hpoisoned) Bool.false_ne_true
      rcases writeback_cases s s.rCachePackets .forged with ⟨-, hwb⟩ | ⟨-, hd, hexact, -, hwb⟩
      · exact .inl ⟨by rw [hwb], hkeeps⟩
      · exact .inr ⟨hd, by rw [hwb], iff_of_true (hexact.mpr fun _ => .inl hpoisoned) hkeeps⟩
    · cases h
  | release =>
    cases h
    exact ⟨⟨hinv.marked, hinv.forged⟩, handsOn_frame (by simp) rfl⟩
  | squash =>
    cases h
    exact ⟨⟨hinv.marked, hinv.forged⟩, handsOn_frame (by simp) rfl⟩
  | enterRunahead =>
    cases h
    exact ⟨⟨hinv.marked, hinv.forged⟩, handsOn_frame (by simp) rfl⟩
  | exitRunahead =>
    cases h
    exact ⟨⟨hinv.marked, hinv.forged⟩, handsOn_frame (by simp) rfl⟩

theorem init_inv : ∀ s, system.init s → Inv s ∧ s.handed = [] := by
  rintro s ⟨req, inst, -, -, -, -, -, rfl⟩
  exact ⟨⟨by simp, by simp⟩, rfl⟩

/-- The loads that are handed to commit with the poison of their requests: those whose runs lose it
in no step. -/
theorem load_poison_iff (ls : List Label) (s : LoadAccess) :
    (system.guard fun s l => ¬ s.LosesPoison l).Reaches ls s ↔
      system.Reaches ls s ∧ ∀ h ∈ s.handed, h.Exact := by
  constructor
  · intro h
    let I (s : LoadAccess) : Prop := Inv s ∧ ∀ h ∈ s.handed, h.Exact
    refine ⟨h.of_guard, (h.invariant (I := I) ?_ ?_).2⟩
    · intro s hs
      obtain ⟨hinv, hnil⟩ := init_inv s hs
      exact ⟨hinv, by simp [hnil]⟩
    · rintro s l s' ⟨hinv, hexact⟩ ⟨hst, hkeeps⟩
      obtain ⟨hinv', hh | ⟨hd, hh, hiff⟩⟩ := step_inv hinv hst
      · exact ⟨hinv', hh.1 ▸ hexact⟩
      · refine ⟨hinv', ?_⟩
        rw [hh]
        exact List.forall_mem_cons.mpr ⟨hiff.mpr hkeeps, hexact⟩
  · rintro ⟨h, hexact⟩
    let I (ls : List Label) (s : LoadAccess) : Prop := Inv s ∧
      ((∀ h ∈ s.handed, h.Exact) → (system.guard fun s l => ¬ s.LosesPoison l).Reaches ls s)
    refine (h.history (I := I) (fun s hs => ⟨(init_inv s hs).1, fun _ => .start hs⟩) ?_).2 hexact
    rintro ls s l s' ⟨hinv, hreach⟩ hst
    obtain ⟨hinv', hh | ⟨hd, hh, hiff⟩⟩ := step_inv hinv hst
    · exact ⟨hinv', fun hexact => (hreach (hh.1 ▸ hexact)).snoc ⟨hst, hh.2⟩⟩
    · refine ⟨hinv', fun hexact => ?_⟩
      rw [hh, List.forall_mem_cons] at hexact
      exact (hreach hexact.2).snoc ⟨hst, hiff.mp hexact.1⟩

/-- A load of two fragments that both hit in the runahead cache, the first one in a poisoned
block. -/
def poisonedHit : List Label :=
  [.sendPacketToCache (fun _ => ⟨true, true⟩) (· == 0), .rcacheResp 0, .rcacheResp 1]

def splitLoad : LoadAccess where
  req := DataRequest.builtSplit true true 2
  inst := { isLoad := true, runahead := true }
  inRunahead := true

/-- The load is handed to commit with the data of the poisoned block, and without its poison. -/
theorem split_load_loses_poison : ∃ s, system.Reaches poisonedHit s ∧
    ∃ h ∈ s.handed, h.marked = true ∧ h.poisoned = false := by
  have hrun : (poisonedHit.foldlM step splitLoad).any (fun s =>
      s.handed.any fun h => h.marked && !h.poisoned) = true := by decide +kernel
  obtain ⟨s, hs, hlost⟩ := (Option.any_eq_true _ _).mp hrun
  obtain ⟨h, hmem, hh⟩ := List.any_eq_true.mp hlost
  rw [Bool.and_eq_true, Bool.not_eq_true'] at hh
  refine ⟨s, ⟨splitLoad, ?_, .of_foldlM (M := system) (fun _ _ _ h => h) hs⟩, h, hmem, hh⟩
  exact ⟨_, _, ⟨true, true, .inr ⟨2, by decide, rfl⟩⟩, rfl, rfl, rfl, rfl, rfl⟩

end Exact

end LoadAccess

end Runahead
end Gem5
