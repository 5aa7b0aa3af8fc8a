import Gem5Runahead.PacketCount

/-!
# RequestOwnerInv

What holds of an instruction and its requests in every run in which no load is forwarded to, or put
off, while packets of its request are on their way. Then an instruction never has two requests that
are not deleted, and the one it has is the saved one.

* `Owned`, `Live` — what holds between an instruction and the request it has.
* `Quiet` — an instruction without a request.
* `MemInst.Inv` — the invariant of an instruction; `step_inv` — each step succeeds and keeps it.
-/

namespace Gem5
namespace Runahead

open Arena

namespace MemRequest

/-- Nothing of the request is outstanding. -/
structure Idle (q : MemRequest) : Prop where
  numInTranslation : q.numInTranslation = 0
  numOutstandingPackets : q.data.numOutstandingPackets = 0
  inDCache : q.data.inDCache = []
  inRCache : q.data.inRCache = []
  writeback : (q.writebackScheduled && !q.writebackDone) = false

theorem idle_iff {q : MemRequest} (hc : q.data.Counted) :
    q.Idle ↔ q.isAnyOutstandingRequest = false := by
  constructor
  · intro h
    simp [isAnyOutstandingRequest, h.numInTranslation, h.numOutstandingPackets, h.writeback]
  · intro h
    simp only [isAnyOutstandingRequest, Bool.or_eq_false_iff, decide_eq_false_iff_not,
      Nat.not_lt, Nat.le_zero] at h
    obtain ⟨⟨htrans, hnum⟩, hwb⟩ := h
    have hcount := hc.count
    rw [hnum] at hcount
    exact ⟨htrans, hnum, List.length_eq_zero_iff.mp (by omega),
      List.length_eq_zero_iff.mp (by omega), hwb⟩

/-- One more packet has been answered. -/
def answered (q : MemRequest) : MemRequest :=
  { q with data :=
      { q.data with numOutstandingPackets := q.data.numOutstandingPackets - 1 } }

end MemRequest

namespace MemInst

/-! ## The invariant -/

/-- What holds between an instruction and the request it has. `bare` is a request without
sub-requests: nothing will ever be outstanding for it. `head`: the instruction is at the head of the
ROB. `marked`: a request without sub-requests is marked as its instruction is, too. -/
structure Owned (marked : Prop) (mode : Bool) (head : Prop) (m : MemInst) (r : Nat)
    (q : MemRequest) : Prop where
  entry : m.entry = if q.entryFreed then none else some (some r)
  reqMade : m.reqMade = true
  discarded : q.discarded = false
  saved : m.savedRequest = if q.hasReqs then some r else none
  bare : q.hasReqs = false → m.executed = true ∧ m.translationStarted = false ∧ q.Idle
  started : q.hasReqs = true → q.entryFreed = false → m.translationStarted = true
  counted : q.data.Counted
  isLoad : q.data.isLoad = m.isLoad
  unsent : 0 < q.numInTranslation → q.data.numOutstandingPackets = 0 ∧ q.data.sent = false ∧
    q.writebackScheduled = false ∧ (q.entryFreed = true → m.squashed = true)
  translating : 0 < q.numInTranslation → m.squashed = true ∨
    m.executed = false ∧ m.translationCompleted = false ∧ m.storeCompleted = false
  events : (q.writebackScheduled && !q.writebackDone) = !m.events.isEmpty
  event : m.events.length ≤ 1
  later : false ∈ m.events → q.data.numOutstandingPackets = 0
  now : true ∈ m.events → q.entryFreed = false ∧ m.kind = .load
  forged : m.kind = .load → q.writebackScheduled = true → q.data.sent = true →
    m.hasForgedResponse = true
  loadDone : m.kind = .load → q.writebackDone = true →
    m.executed = true ∨ m.squashed = true ∨ m.runahead = true ∧ mode = false
  storeDone : m.kind ≠ .load → q.writebackScheduled = true ∨ q.writebackDone = true →
    m.storeCompleted = true
  rCache : q.data.rCachePackets ≠ [] → m.runahead = true
  flag : q.hasReqs = true ∨ marked → q.data.isRunahead = m.runahead
  flagged : q.data.isRunahead = true → m.runahead = true
  stores : m.isStore = true → q.data.inDCache ≠ [] →
    m.runahead = false ∧ (m.committed = true ∨ head)

/-- The request is held by the entry, or waits for something that is outstanding. -/
structure Live (marked : Prop) (mode : Bool) (head : Prop) (m : MemInst) (r : Nat)
    (q : MemRequest) : Prop extends Owned marked mode head m r q where
  waits : q.entryFreed = true → q.isAnyOutstandingRequest = true

/-- No request has been made yet, or it has been deleted. -/
structure Quiet (m : MemInst) : Prop where
  noLive : m.requests.NoLive
  saved : m.savedRequest = none
  entry : ∀ r, m.entry ≠ some (some r)
  events : m.events = []
  started : m.entry ≠ none ∨ m.requests = [] → m.translationStarted = false

structure Inv (marked : Prop) (mode : Bool) (head : Prop) (m : MemInst) : Prop where
  done : m.committed = true → m.squashed = true ∨ m.executed = true
  forged : m.hasForgedResponse = true → m.executed = true
  freed : Freed MemRequest.Idle m.requests
  live : m.Quiet ∨ ∃ r q, m.requests.OneLive r q ∧ m.Live marked mode head r q

/-- What no step changes, or takes back. -/
structure Kept (m m' : MemInst) : Prop where
  threadNumber : m'.threadNumber = m.threadNumber
  committed : m.committed = true → m'.committed = true
  squashed : m.squashed = true → m'.squashed = true
  runahead : m'.runahead = m.runahead

theorem Kept.trans {m m' m'' : MemInst} (h : Kept m m') (h' : Kept m' m'') : Kept m m'' where
  threadNumber := h'.threadNumber.trans h.threadNumber
  committed hc := h'.committed (h.committed hc)
  squashed hs := h'.squashed (h.squashed hs)
  runahead := h'.runahead.trans h.runahead

variable {marked : Prop} {mode : Bool} {head : Prop} {m m' : MemInst} {r : Nat}
  {q q' : MemRequest}

theorem inv_new (tid : Nat) (kind : MemKind) (runahead : Bool) :
    Inv marked mode head { threadNumber := tid, kind := kind, runahead := runahead } where
  done hc := nomatch hc
  forged hf := nomatch hf
  freed _ _ hcell := nomatch hcell
  live := .inl ⟨fun _ => rfl, rfl, fun _ he => (nomatch he), rfl, fun _ => rfl⟩

/-! ## Reading and writing the request -/

section Request

theorem modifyRequest_eq (ho : m.requests.OneLive r q) (f : MemRequest → MemRequest) :
    m.modifyRequest r f = some { m with requests := m.requests.put r (f q) } := by
  simp [modifyRequest, ho.get]

theorem delete_eq (ho : m.requests.OneLive r q) :
    m.delete r = some { m with requests := m.requests.free r, savedRequest := none } := by
  simp [delete, ho.get]

theorem Owned.saved_of_some (h : Owned marked mode head m r q) (hs : m.savedRequest ≠ none) :
    m.savedRequest = some r ∧ q.hasReqs = true := by
  have hsaved := h.saved
  by_cases hreqs : q.hasReqs = true
  · rw [if_pos hreqs] at hsaved
    exact ⟨hsaved, hreqs⟩
  · rw [if_neg hreqs] at hsaved
    exact absurd hsaved hs

theorem Owned.entry_of_some (h : Owned marked mode head m r q) (he : m.entry ≠ none) :
    m.entry = some (some r) ∧ q.entryFreed = false := by
  have hentry := h.entry
  by_cases hfreed : q.entryFreed = true
  · rw [if_pos hfreed] at hentry
    exact absurd hentry he
  · rw [if_neg hfreed] at hentry
    exact ⟨hentry, by simpa using hfreed⟩

/-- A request is only released by giving up its entry. -/
theorem Owned.isReleased (h : Owned marked mode head m r q) : q.isReleased = q.entryFreed := by
  simp [MemRequest.isReleased, h.discarded]

/-- A request for which something is outstanding has sub-requests. -/
theorem Owned.hasReqs (h : Owned marked mode head m r q) (hidle : ¬ q.Idle) :
    q.hasReqs = true := by
  by_contra hreqs
  obtain ⟨-, -, hq⟩ := h.bare (by simpa using hreqs)
  exact hidle hq

theorem Owned.events_eq_nil (h : Owned marked mode head m r q) :
    m.events = [] ↔ (q.writebackScheduled && !q.writebackDone) = false := by
  rw [h.events, Bool.not_eq_false', List.isEmpty_iff]

theorem Owned.live (h : Owned marked mode head m r q) (hq : q.entryFreed = false) :
    Live marked mode head m r q :=
  { h with waits := fun hfreed => (by rw [hq] at hfreed; cases hfreed) }

/-- The request is deleted. -/
theorem Inv.delete (hfreed : Freed MemRequest.Idle m.requests) (ho : m.requests.OneLive r q)
    (hidle : q.Idle) (hrequests : m'.requests = m.requests.free r)
    (hdone : m'.committed = true → m'.squashed = true ∨ m'.executed = true)
    (hforged : m'.hasForgedResponse = true → m'.executed = true)
    (hsaved : m'.savedRequest = none) (hentry : ∀ r, m'.entry ≠ some (some r))
    (hevents : m'.events = []) (hstarted : m'.entry ≠ none → m'.translationStarted = false) :
    Inv marked mode head m' where
  done := hdone
  forged := hforged
  freed := by
    rw [hrequests]
    exact hfreed.free ho.get hidle
  live := by
    refine .inl ⟨?_, hsaved, hentry, hevents, ?_⟩
    · rw [hrequests]
      exact ho.free
    · rintro (hsome | hnil)
      · exact hstarted hsome
      · rw [hrequests] at hnil
        exact absurd hnil (free_ne_nil ho.get)

/-- The request is written. -/
theorem Inv.put (h : Inv marked mode head m) (ho : m.requests.OneLive r q)
    (hrequests : m'.requests = m.requests.put r q')
    (hdone : m'.committed = true → m'.squashed = true ∨ m'.executed = true)
    (hforged : m'.hasForgedResponse = true → m'.executed = true)
    (hl : Live marked mode head m' r q') : Inv marked mode head m' where
  done := hdone
  forged := hforged
  freed := by
    rw [hrequests]
    exact h.freed.put ho.get q'
  live := by
    refine .inr ⟨r, q', ?_, hl⟩
    rw [hrequests]
    exact ho.put

/-- The one request of an instruction whose saved request is followed. -/
theorem Inv.of_get (h : Inv marked mode head m) (hr : m.requests.get? r = some q) :
    m.requests.OneLive r q ∧ Live marked mode head m r q := by
  rcases h.live with hquiet | ⟨r', q', ho, hl⟩
  · rw [hquiet.noLive r] at hr
    cases hr
  · obtain ⟨rfl, rfl⟩ := ho.eq hr
    exact ⟨ho, hl⟩

/-- What is outstanding has not been freed. -/
theorem Inv.of_cell (h : Inv marked mode head m) {c : Cell MemRequest}
    (hc : m.requests[r]? = some c) (hidle : ¬ c.val.Idle) :
    m.requests.OneLive r c.val ∧ Live marked mode head m r c.val := by
  obtain ⟨q, freed⟩ := c
  cases freed with
  | true => exact absurd (h.freed r q hc) hidle
  | false => exact h.of_get (get?_eq_some.mpr hc)

end Request

/-! ## Giving up the entry -/

section ClearEntry

/-- Its request is deleted at once, or flagged when something is outstanding. -/
theorem clearEntry_spec (h : Inv marked mode head m) (hnow : true ∉ m.events)
    (hfree : m.squashed = true ∨ m.executed = true ∨ m.storeCompleted = true) :
    ∃ m', m.clearEntry = some m' ∧ Inv marked mode head m' ∧ Kept m m' := by
  rcases h.live with hquiet | ⟨r, q, ho, hl⟩
  · have hclear : m.clearEntry = some { m with entry := none } := by
      unfold clearEntry
      split
      · rename_i r he
        exact absurd he (hquiet.entry r)
      · rfl
    refine ⟨_, hclear, ⟨h.done, h.forged, h.freed, .inl ?_⟩, rfl, id, id, rfl⟩
    refine ⟨hquiet.noLive, hquiet.saved, fun r he => (nomatch he), hquiet.events, ?_⟩
    rintro (hnone | hnil)
    · exact absurd rfl hnone
    · exact hquiet.started (.inr hnil)
  · by_cases hfreed : q.entryFreed = true
    · have hentry : m.entry = none := by rw [hl.entry, if_pos hfreed]
      have hclear : m.clearEntry = some m := by
        simp only [clearEntry, hentry]
        rw [← hentry]
      exact ⟨m, hclear, h, rfl, id, id, rfl⟩
    · have hentry : m.entry = some (some r) := by rw [hl.entry, if_neg hfreed]
      by_cases hout : q.isAnyOutstandingRequest = true
      · have hclear : m.clearEntry = some { m with
            requests := m.requests.put r { q with entryFreed := true }
            entry := none } := by
          simp [clearEntry, hentry, release, ho.get, hout, modifyRequest]
        refine ⟨_, hclear, h.put ho rfl h.done h.forged ?_, rfl, id, id, rfl⟩
        have hreqs : q.hasReqs = true := hl.hasReqs fun hidle => by
          rw [(MemRequest.idle_iff hl.counted).mp hidle] at hout
          cases hout
        refine { hl with
          entry := rfl
          bare := fun hbare => ?_
          started := fun _ hf => (nomatch hf)
          unsent := fun htrans => ?_
          now := fun ht => absurd ht hnow
          waits := fun _ => hout }
        · rw [hreqs] at hbare
          cases hbare
        · obtain ⟨hnum, hsent, hws, -⟩ := hl.unsent htrans
          refine ⟨hnum, hsent, hws, fun _ => ?_⟩
          rcases hl.translating htrans with hsq | ⟨hexec, -, hcompleted⟩
          · exact hsq
          · rw [hexec, hcompleted] at hfree
            simpa using hfree
      · have hidle : q.Idle := (MemRequest.idle_iff hl.counted).mpr (by simpa using hout)
        have hclear : m.clearEntry = some { m with
            requests := m.requests.free r
            savedRequest := none
            entry := none } := by
          simp [clearEntry, hentry, release, ho.get, hout, MemInst.delete]
        have hevents : m.events = [] := hl.events_eq_nil.mpr hidle.writeback
        exact ⟨_, hclear, .delete h.freed ho hidle rfl h.done h.forged rfl
          (fun _ he => nomatch he) hevents (absurd rfl), rfl, id, id, rfl⟩

end ClearEntry

/-! ## Flags of the instruction -/

section Flags

theorem Quiet.congr (h : m.Quiet) (hrequests : m'.requests = m.requests)
    (hsaved : m'.savedRequest = m.savedRequest) (hentry : m'.entry = m.entry)
    (hevents : m'.events = m.events) (hstarted : m'.translationStarted = m.translationStarted) :
    m'.Quiet := by
  refine ⟨?_, ?_, ?_, ?_, ?_⟩
  · rw [hrequests]
    exact h.noLive
  · rw [hsaved]
    exact h.saved
  · rw [hentry]
    exact h.entry
  · rw [hevents]
    exact h.events
  · rw [hentry, hrequests, hstarted]
    exact h.started

theorem Inv.setExecuted (h : Inv marked mode head m)
    (hd : m.squashed = true ∨ m.isTranslationDelayed = false) :
    Inv marked mode head { m with executed := true } where
  done _ := .inr rfl
  forged _ := rfl
  freed := h.freed
  live := by
    rcases h.live with hquiet | ⟨r, q, ho, hl⟩
    · exact .inl (hquiet.congr rfl rfl rfl rfl rfl)
    · refine .inr ⟨r, q, ho, { hl with
        bare := fun hbare => ?_
        translating := fun htrans => ?_
        loadDone := fun _ _ => .inl rfl }⟩
      · obtain ⟨-, hstarted, hidle⟩ := hl.bare hbare
        exact ⟨rfl, hstarted, hidle⟩
      · rcases hl.translating htrans with hsq | ⟨-, hcompleted, -⟩
        · exact .inl hsq
        · rcases hd with hsq | hdelayed
          · exact .inl hsq
          · -- a translation that has not come to its end delays the instruction
            have hreqs : q.hasReqs = true := hl.hasReqs fun hidle =>
              Nat.ne_of_gt htrans hidle.numInTranslation
            by_cases hfreed : q.entryFreed = true
            · obtain ⟨-, -, -, hsq⟩ := hl.unsent htrans
              exact .inl (hsq hfreed)
            · have hstarted := hl.started hreqs (by simpa using hfreed)
              simp [isTranslationDelayed, hstarted, hcompleted] at hdelayed

theorem Inv.setSquashed (h : Inv marked mode head m) :
    Inv marked mode head { m with squashed := true } where
  done _ := .inl rfl
  forged := h.forged
  freed := h.freed
  live := by
    rcases h.live with hquiet | ⟨r, q, ho, hl⟩
    · exact .inl (hquiet.congr rfl rfl rfl rfl rfl)
    · refine .inr ⟨r, q, ho, { hl with
        unsent := fun htrans => ?_
        translating := fun _ => .inl rfl
        loadDone := fun _ _ => .inr (.inl rfl) }⟩
      obtain ⟨hnum, hsent, hws, -⟩ := hl.unsent htrans
      exact ⟨hnum, hsent, hws, fun _ => rfl⟩

theorem Inv.setCommitted (h : Inv marked mode head m)
    (hd : m.squashed = true ∨ m.executed = true) :
    Inv marked mode head { m with committed := true } where
  done _ := hd
  forged := h.forged
  freed := h.freed
  live := by
    rcases h.live with hquiet | ⟨r, q, ho, hl⟩
    · exact .inl (hquiet.congr rfl rfl rfl rfl rfl)
    · refine .inr ⟨r, q, ho, { hl with stores := fun hstore hne => ?_ }⟩
      obtain ⟨hrun, -⟩ := hl.stores hstore hne
      exact ⟨hrun, .inl rfl⟩

theorem Inv.setStoreCompleted (h : Inv marked mode head m)
    (hd : m.squashed = true ∨ m.executed = true ∨ m.translationCompleted = true) :
    Inv marked mode head { m with storeCompleted := true } where
  done := h.done
  forged := h.forged
  freed := h.freed
  live := by
    rcases h.live with hquiet | ⟨r, q, ho, hl⟩
    · exact .inl (hquiet.congr rfl rfl rfl rfl rfl)
    · refine .inr ⟨r, q, ho, { hl with
        translating := fun htrans => ?_
        storeDone := fun _ _ => rfl }⟩
      rcases hl.translating htrans with hsq | ⟨hexec, hcompleted, -⟩
      · exact .inl hsq
      · rw [hexec, hcompleted] at hd
        exact .inl (by simpa using hd)

/-- Once it is committed, it does not matter whether it is at the head of the ROB. -/
theorem Inv.congr_head (h : Inv marked mode head m) {head' : Prop}
    (hh : head → m.committed = true ∨ head') : Inv marked mode head' m where
  done := h.done
  forged := h.forged
  freed := h.freed
  live := by
    rcases h.live with hquiet | ⟨r, q, ho, hl⟩
    · exact .inl hquiet
    · refine .inr ⟨r, q, ho, { hl with stores := fun hstore hne => ?_ }⟩
      obtain ⟨hrun, hat⟩ := hl.stores hstore hne
      exact ⟨hrun, hat.elim .inl hh⟩

/-- The mode of the thread changes. Instructions of an earlier period are done when it is entered
again. -/
theorem Inv.changeMode (h : Inv marked mode head m) {mode' : Bool}
    (hd : mode' = true → m.runahead = true → m.squashed = true ∨ m.executed = true) :
    Inv marked mode' head m where
  done := h.done
  forged := h.forged
  freed := h.freed
  live := by
    rcases h.live with hquiet | ⟨r, q, ho, hl⟩
    · exact .inl hquiet
    · refine .inr ⟨r, q, ho, { hl with loadDone := fun hload hdone => ?_ }⟩
      rcases hl.loadDone hload hdone with hexec | hsq | ⟨hrun, -⟩
      · exact .inl hexec
      · exact .inr (.inl hsq)
      · cases mode' with
        | false => exact .inr (.inr ⟨hrun, rfl⟩)
        | true =>
          rcases hd rfl hrun with hsq | hexec
          · exact .inr (.inl hsq)
          · exact .inl hexec

end Flags

/-! ## Write-back events -/

section Events

theorem scheduleWriteback_eq (ho : m.requests.OneLive r q) (hs : m.savedRequest = some r)
    (hws : q.writebackScheduled = false) (now : Bool) :
    m.scheduleWriteback now = some { m with
      requests := m.requests.put r { q with writebackScheduled := true }
      events := m.events ++ [now] } := by
  simp [scheduleWriteback, hs, ho.get, hws, modifyRequest]

/-- A load that can be executed again has not been written back. -/
theorem Owned.unscheduled (h : Owned marked mode head m r q) (hk : m.kind = .load)
    (he : m.events = []) (hexec : m.executed = false) (hsq : m.squashed = false)
    (hmode : m.runahead = true → mode = true) :
    q.writebackScheduled = false ∧ q.writebackDone = false := by
  have hdone : q.writebackDone = false := by
    by_contra hd
    rcases h.loadDone hk (by simpa using hd) with he' | hs' | ⟨hrun, hoff⟩
    · rw [hexec] at he'
      cases he'
    · rw [hsq] at hs'
      cases hs'
    · rw [hmode hrun] at hoff
      cases hoff
  have hev := h.events_eq_nil.mp he
  rw [hdone] at hev
  exact ⟨by simpa using hev, hdone⟩

/-- The event of a load that is not waiting for anything else is scheduled. -/
theorem scheduleWriteback_spec (h : Inv marked mode head m) (hk : m.kind = .load)
    (he : m.events = []) (ho : m.requests.OneLive r q) (hl : Live marked mode head m r q)
    (hreqs : q.hasReqs = true) (hws : q.writebackScheduled = false)
    (hwd : q.writebackDone = false) (htrans : q.numInTranslation = 0)
    (hentry : m.entry ≠ none) (now : Bool)
    (hlater : now = false → q.data.numOutstandingPackets = 0)
    (hsent : q.data.sent = true → m.hasForgedResponse = true) :
    ∃ m', m.scheduleWriteback now = some m' ∧ Inv marked mode head m' ∧ Kept m m' := by
  have hsaved : m.savedRequest = some r := by rw [hl.saved, if_pos hreqs]
  obtain ⟨-, hfreed⟩ := hl.entry_of_some hentry
  refine ⟨_, scheduleWriteback_eq ho hsaved hws now, h.put ho rfl h.done h.forged ?_,
    rfl, id, id, rfl⟩
  refine { hl with
    bare := fun hbare => ?_
    unsent := fun hpos => ?_
    events := ?_
    event := ?_
    later := fun hfalse => ?_
    now := fun _ => ⟨hfreed, hk⟩
    forged := fun _ _ hs => hsent hs
    storeDone := fun hne => absurd hk hne
    waits := fun hf => ?_ }
  · rw [hreqs] at hbare
    cases hbare
  · exact absurd htrans (Nat.ne_of_gt hpos)
  · simp [he, hwd]
  · simp [he]
  · rw [he] at hfalse
    exact hlater (by simpa using hfalse)
  · rw [hfreed] at hf
    cases hf

theorem writeback_spec (hs : m.savedRequest = some r) (hget : m.requests.get? r = some q) :
    ∃ executed, m.writeback mode = some { m with executed := executed } ∧
      (m.executed = true → executed = true) ∧
      (executed = true ∨ m.squashed = true ∨ m.runahead = true ∧ mode = false) := by
  unfold writeback
  split
  · rename_i hsq
    exact ⟨m.executed, rfl, id, .inr (.inl hsq)⟩
  · split
    · rename_i hrun
      simp only [Bool.and_eq_true, Bool.not_eq_true'] at hrun
      exact ⟨m.executed, rfl, id, .inr (.inr hrun)⟩
    · refine ⟨true, ?_, fun _ => rfl, .inl rfl⟩
      simp [hs, hget]

theorem processWriteback_spec (h : Inv marked mode head m) (he : m.events ≠ []) :
    ∃ m', m.processWriteback mode = some m' ∧ Inv marked mode head m' ∧ Kept m m' := by
  rcases h.live with hquiet | ⟨r, q, ho, hl⟩
  · exact absurd hquiet.events he
  have hscheduled : q.writebackScheduled = true ∧ q.writebackDone = false := by
    have hev : ¬ (q.writebackScheduled && !q.writebackDone) = false := fun hev =>
      he (hl.events_eq_nil.mpr hev)
    simpa using hev
  obtain ⟨hws, hwd⟩ := hscheduled
  have hreqs : q.hasReqs = true := hl.hasReqs fun hidle => by
    have hwb := hidle.writeback
    rw [hws, hwd] at hwb
    cases hwb
  have hsaved : m.savedRequest = some r := by rw [hl.saved, if_pos hreqs]
  have htrans : q.numInTranslation = 0 := by
    by_contra hne
    obtain ⟨-, -, hunscheduled, -⟩ := hl.unsent (Nat.pos_of_ne_zero hne)
    rw [hws] at hunscheduled
    cases hunscheduled
  obtain ⟨executed, hwrite, hmono, hload⟩ := @writeback_spec mode _ _ _ hsaved ho.get
  have htail : m.events.tail = [] := by
    have hlen := hl.event
    exact List.length_eq_zero_iff.mp (by rw [List.length_tail]; omega)
  have hdone : m.committed = true → m.squashed = true ∨ executed = true := fun hc =>
    (h.done hc).imp_right hmono
  have hforged : m.hasForgedResponse = true → executed = true := fun hf => hmono (h.forged hf)
  have hl' : Owned marked mode head { m with
      requests := m.requests.put r { q with writebackDone := true }
      executed := executed
      events := [] } r { q with writebackDone := true } := { hl with
    bare := fun hbare => (by rw [hreqs] at hbare; cases hbare)
    unsent := fun hpos => absurd htrans (Nat.ne_of_gt hpos)
    translating := fun hpos => absurd htrans (Nat.ne_of_gt hpos)
    events := by simp
    event := Nat.zero_le _
    later := fun hf => nomatch hf
    now := fun ht => nomatch ht
    loadDone := fun _ _ => hload
    storeDone := fun hne _ => hl.storeDone hne (.inl hws) }
  by_cases hfreed : q.entryFreed = true
  · have hrel : q.isReleased = true := hl.isReleased.trans hfreed
    have hproc : m.processWriteback mode = some { m with
        executed := executed
        requests := (m.requests.put r { q with writebackDone := true }).free r
        savedRequest := none
        events := [] } := by
      simp [processWriteback, hwrite, hsaved, writebackDone, modifyRequest, ho.get, hrel,
        MemInst.delete, ho.put.get, htail]
    -- the event was not for the current tick, so that no packet is on its way
    have hnow : m.events = [false] := by
      have hlen := hl.event
      match hevents : m.events with
      | [] => exact absurd hevents he
      | [true] =>
        obtain ⟨hkept, -⟩ := hl.now (by rw [hevents]; exact List.mem_singleton_self true)
        rw [hfreed] at hkept
        cases hkept
      | [false] => rfl
      | _ :: _ :: _ =>
        rw [hevents] at hlen
        simp at hlen
    have hnum := hl.later (by rw [hnow]; exact List.mem_singleton_self false)
    have hidle : MemRequest.Idle { q with writebackDone := true } := by
      refine (MemRequest.idle_iff hl'.counted).mpr ?_
      simp [MemRequest.isAnyOutstandingRequest, htrans, hnum]
    have hentry : m.entry = none := by rw [hl.entry, if_pos hfreed]
    let m₁ : MemInst :=
      { m with requests := m.requests.put r { q with writebackDone := true } }
    refine ⟨_, hproc, .delete (m := m₁) (h.freed.put ho.get _) ho.put hidle rfl hdone hforged rfl
      ?_ rfl ?_, rfl, id, id, rfl⟩
    · intro r' he'
      change m.entry = _ at he'
      rw [hentry] at he'
      cases he'
    · exact fun hsome => absurd hentry hsome
  · have hrel : q.isReleased = false := hl.isReleased.trans (by simpa using hfreed)
    have hproc : m.processWriteback mode = some { m with
        executed := executed
        requests := m.requests.put r { q with writebackDone := true }
        events := [] } := by
      simp [processWriteback, hwrite, hsaved, writebackDone, modifyRequest, ho.get, hrel,
        htail]
    exact ⟨_, hproc, h.put ho rfl hdone hforged (hl'.live (by simpa using hfreed)),
      rfl, id, id, rfl⟩

end Events

/-! ## Stores -/

section Stores

theorem completeStore_spec (h : Inv marked mode head m) (he : m.entry ≠ none)
    (hnow : true ∉ m.events)
    (hd : m.squashed = true ∨ m.executed = true ∨ m.translationCompleted = true) (front : Bool) :
    ∃ m', m.completeStore front = some m' ∧ Inv marked mode head m' ∧ Kept m m' := by
  have hinv := h.setStoreCompleted hd
  cases front with
  | true =>
    obtain ⟨m', hclear, hinv', hkept⟩ := clearEntry_spec hinv hnow (.inr (.inr rfl))
    exact ⟨m', by simp [completeStore, he, hclear], hinv',
      hkept.threadNumber, hkept.committed, hkept.squashed, hkept.runahead⟩
  | false => exact ⟨_, by simp [completeStore, he], hinv, rfl, id, id, rfl⟩

/-- What is sent by the store at `storeWBIt`. -/
theorem WritesBack.live (h : Inv marked mode head m) (hw : m.WritesBack) :
    ∃ r q, m.entry = some (some r) ∧ m.requests.OneLive r q ∧ Live marked mode head m r q ∧
      q.hasReqs = true ∧ q.data.sent = false ∧ q.numInTranslation = 0 ∧
      q.writebackScheduled = false ∧ q.writebackDone = false := by
  obtain ⟨-, hload, hsq, hstore, -, hcompleted, r, q, he, hr, hreqs, hsent⟩ := hw
  obtain ⟨ho, hl⟩ := h.of_get hr
  have htrans : q.numInTranslation = 0 := by
    by_contra hne
    rcases hl.translating (Nat.pos_of_ne_zero hne) with hs | ⟨-, hc, -⟩
    · rw [hsq] at hs
      cases hs
    · rw [hcompleted] at hc
      cases hc
  have hunscheduled : ¬ (q.writebackScheduled = true ∨ q.writebackDone = true) := by
    intro hwb
    have hc := hl.storeDone hload hwb
    rw [hstore] at hc
    cases hc
  exact ⟨r, q, he, ho, hl, hreqs, hsent, htrans, by simpa using hunscheduled⟩

theorem failStoreConditional_spec (h : Inv marked mode head m) (hw : m.WritesBack)
    (hidle : m.NoneInFlight) (front : Bool) :
    ∃ m', m.failStoreConditional front = some m' ∧ Inv marked mode head m' ∧ Kept m m' := by
  obtain ⟨r, q, he, ho, hl, hreqs, -, htrans, hws, hwd⟩ := hw.live h
  obtain ⟨-, hload, hsq, -, hevents, hcompleted, -⟩ := hw
  have hsaved : m.savedRequest = some r := by rw [hl.saved, if_pos hreqs]
  have hnum : q.data.numOutstandingPackets = 0 := hidle r hsaved q ho.get
  let q₁ : MemRequest := { q with data := { q.data with sent := true, complete := true } }
  let m₁ : MemInst := { m with requests := m.requests.put r q₁ }
  let m₂ : MemInst := { m₁ with
    requests := m₁.requests.put r { q₁ with writebackScheduled := true }
    events := m₁.events ++ [false] }
  let m₃ : MemInst := { m₂ with storeCompleted := true }
  have hmodify : m.modifyRequest r (fun q =>
      { q with data := { q.data with sent := true, complete := true } }) = some m₁ :=
    modifyRequest_eq ho _
  have hschedule : m₁.scheduleWriteback false = some m₂ :=
    scheduleWriteback_eq (m := m₁) (q := q₁) ho.put hsaved hws false
  have hne : m.entry ≠ none := by
    rw [he]
    exact fun hnone => nomatch hnone
  have hcomplete : m₂.completeStore front = if front then m₃.clearEntry else some m₃ :=
    if_neg hne
  have hfail : m.failStoreConditional front = if front then m₃.clearEntry else some m₃ := by
    have hentry : m.entry.join = some r := by rw [he]; rfl
    simp only [failStoreConditional, hentry, Option.bind_eq_bind, Option.bind_some, hmodify,
      hschedule, hcomplete]
  obtain ⟨-, hfreed⟩ := hl.entry_of_some hne
  have hl₃ : Live marked mode head m₃ r { q₁ with writebackScheduled := true } := { hl with
    bare := fun hbare => (by rw [hreqs] at hbare; cases hbare)
    counted := ⟨hl.counted.count, fun _ hs => (nomatch hs), hl.counted.single⟩
    unsent := fun hpos => absurd htrans (Nat.ne_of_gt hpos)
    translating := fun hpos => absurd htrans (Nat.ne_of_gt hpos)
    events := by simp [m₃, m₂, q₁, hwd]
    event := by simp [m₃, m₂, m₁, hevents]
    later := fun _ => hnum
    now := fun ht => (by simp [m₃, m₂, m₁, hevents] at ht)
    forged := fun hk => absurd hk hload
    storeDone := fun _ _ => rfl
    waits := fun hf => (by rw [hfreed] at hf; cases hf) }
  have hinv₃ : Inv marked mode head m₃ :=
    ⟨h.done, h.forged, (h.freed.put ho.get q₁).put ho.put.get _, .inr ⟨r, _, ho.put.put, hl₃⟩⟩
  rw [hfail]
  cases front with
  | true =>
    have hnow : true ∉ m₃.events := by simp [m₃, m₂, m₁, hevents]
    obtain ⟨m', hclear, hinv', hkept⟩ := clearEntry_spec hinv₃ hnow (.inr (.inr rfl))
    exact ⟨m', hclear, hinv', hkept.threadNumber, hkept.committed, hkept.squashed, hkept.runahead⟩
  | false => exact ⟨m₃, rfl, hinv₃, rfl, id, id, rfl⟩

end Stores

/-! ## Translation -/

section Translation

theorem finish_spec (h : Inv marked mode head m) {c : Cell MemRequest}
    (hc : m.requests[r]? = some c) (hpos : 0 < c.val.numInTranslation) :
    ∃ m', m.finish r = some m' ∧ Inv marked mode head m' ∧ Kept m m' := by
  obtain ⟨q, freed⟩ := c
  change 0 < q.numInTranslation at hpos
  have hidle : ¬ q.Idle := fun hidle => Nat.ne_of_gt hpos hidle.numInTranslation
  obtain ⟨ho, hl⟩ := h.of_cell hc hidle
  have hreqs : q.hasReqs = true := hl.hasReqs hidle
  obtain ⟨hnum, hsent, hws, hfreed⟩ := hl.unsent hpos
  let q₁ : MemRequest := { q with numInTranslation := q.numInTranslation - 1 }
  let m₁ : MemInst := { m with requests := m.requests.put r q₁ }
  have hl₁ : Owned marked mode head m₁ r q₁ := { hl with
    bare := fun hbare => (by rw [hreqs] at hbare; cases hbare)
    unsent := fun _ => hl.unsent hpos
    translating := fun _ => hl.translating hpos }
  have hfinish : m.finish r =
      if q.numInTranslation ≤ 1 then
        if m.squashed then m₁.squashTranslation r
        else some { m₁ with translationCompleted := true }
      else some m₁ := by
    simp only [finish, ho.get, modifyRequest, Option.bind_eq_bind, Option.bind_some]
    rfl
  rw [hfinish]
  by_cases hlast : q.numInTranslation ≤ 1
  · rw [if_pos hlast]
    by_cases hsq : m.squashed = true
    · rw [if_pos hsq]
      by_cases hent : q.entryFreed = true
      · have hrel : q₁.isReleased = true := hl₁.isReleased.trans hent
        have hdelete : m₁.squashTranslation r = some { m₁ with
            requests := m₁.requests.free r
            savedRequest := none } := by
          have hget : m₁.requests.get? r = some q₁ := ho.put.get
          simp [squashTranslation, hget, hrel, MemInst.delete]
        have hidle₁ : q₁.Idle := by
          refine (MemRequest.idle_iff hl₁.counted).mpr ?_
          have htrans : q₁.numInTranslation = 0 := by
            change q.numInTranslation - 1 = 0
            omega
          have hnum₁ : q₁.data.numOutstandingPackets = 0 := hnum
          have hws₁ : q₁.writebackScheduled = false := hws
          simp [MemRequest.isAnyOutstandingRequest, htrans, hnum₁, hws₁]
        have hentry : m.entry = none := by rw [hl.entry, if_pos hent]
        refine ⟨_, hdelete, .delete (m := m₁) (h.freed.put ho.get q₁) ho.put hidle₁ rfl h.done
          h.forged rfl ?_ (hl.events_eq_nil.mpr (by rw [hws]; rfl)) ?_, rfl, id, id, rfl⟩
        · intro r' he
          change m.entry = _ at he
          rw [hentry] at he
          cases he
        · exact fun hne => absurd hentry hne
      · have hrel : q₁.isReleased = false := hl₁.isReleased.trans (by simpa using hent)
        have hsame : m₁.squashTranslation r = some m₁ := by
          have hget : m₁.requests.get? r = some q₁ := ho.put.get
          simp [squashTranslation, hget, hrel]
        exact ⟨_, hsame, h.put ho rfl h.done h.forged (hl₁.live (by simpa using hent)),
          rfl, id, id, rfl⟩
    · rw [if_neg hsq]
      have hkept : q.entryFreed = false := by
        by_contra hent
        exact hsq (hfreed (by simpa using hent))
      have htrans : q₁.numInTranslation = 0 := by
        change q.numInTranslation - 1 = 0
        omega
      have hl₂ : Owned marked mode head { m₁ with translationCompleted := true } r q₁ := { hl₁ with
        translating := fun hpos₁ => absurd htrans (Nat.ne_of_gt hpos₁) }
      exact ⟨_, rfl, h.put ho rfl h.done h.forged (hl₂.live hkept), rfl, id, id, rfl⟩
  · rw [if_neg hlast]
    refine ⟨_, rfl, h.put ho rfl h.done h.forged { hl₁ with waits := fun _ => ?_ },
      rfl, id, id, rfl⟩
    have hpos₁ : 0 < q₁.numInTranslation := by
      change 0 < q.numInTranslation - 1
      omega
    simp [MemRequest.isAnyOutstandingRequest, hpos₁]

end Translation

/-! ## Execution -/

section Execution

/-- The request of a load that reads memory. -/
theorem Reads.live (h : Inv marked mode head m) (hr : m.Reads mode) :
    ∃ r q, m.savedRequest = some r ∧ m.requests.OneLive r q ∧ Live marked mode head m r q ∧
      q.hasReqs = true ∧ q.data.sent = false ∧ q.numInTranslation = 0 ∧
      q.writebackScheduled = false ∧ q.writebackDone = false := by
  obtain ⟨⟨he, hexec, hsq, hmode, -, hevents⟩, hk, hstarted, hcompleted, hsent⟩ := hr
  rcases h.live with hquiet | ⟨r, q, ho, hl⟩
  · rw [hquiet.started (.inl he)] at hstarted
    cases hstarted
  · have hreqs : q.hasReqs = true := by
      by_contra hbare
      obtain ⟨hexec', -⟩ := hl.bare (by simpa using hbare)
      rw [hexec] at hexec'
      cases hexec'
    have hsaved : m.savedRequest = some r := by rw [hl.saved, if_pos hreqs]
    have htrans : q.numInTranslation = 0 := by
      by_contra hne
      rcases hl.translating (Nat.pos_of_ne_zero hne) with hs | ⟨-, hc, -⟩
      · rw [hsq] at hs
        cases hs
      · rw [hcompleted] at hc
        cases hc
    obtain ⟨hws, hwd⟩ := hl.unscheduled hk hevents hexec hsq hmode
    exact ⟨r, q, hsaved, ho, hl, hreqs, hsent r hsaved q ho.get, htrans, hws, hwd⟩

theorem reschedule_spec (h : Inv marked mode head m) (hr : m.Reads mode)
    (hidle : m.NoneInFlight) :
    ∃ m', m.reschedule = some m' ∧ Inv marked mode head m' ∧ Kept m m' := by
  obtain ⟨r, q, hsaved, ho, hl, -, -, htrans, hws, -⟩ := hr.live h
  have hnum : q.data.numOutstandingPackets = 0 := hidle r hsaved q ho.get
  have hout : q.isAnyOutstandingRequest = false := by
    simp [MemRequest.isAnyOutstandingRequest, htrans, hnum, hws]
  have hreschedule : m.reschedule = some { m with
      requests := m.requests.free r
      savedRequest := none
      translationStarted := false
      translationCompleted := false
      entry := some none } := by
    simp [reschedule, hsaved, release, ho.get, hout, MemInst.delete]
  have hq : q.Idle := (MemRequest.idle_iff hl.counted).mpr hout
  exact ⟨_, hreschedule, .delete h.freed ho hq rfl h.done h.forged rfl (fun r he => nomatch he)
    (hl.events_eq_nil.mpr hq.writeback) (fun _ => rfl), rfl, id, id, rfl⟩

theorem readLocal_spec (h : Inv marked mode head m) (hr : m.Reads mode) (hidle : m.NoneInFlight) :
    ∃ m', m.scheduleWriteback false = some m' ∧ Inv marked mode head m' ∧ Kept m m' := by
  obtain ⟨r, q, hsaved, ho, hl, hreqs, hsent, htrans, hws, hwd⟩ := hr.live h
  obtain ⟨⟨he, -, -, -, -, hevents⟩, hk, -⟩ := hr
  refine scheduleWriteback_spec h hk hevents ho hl hreqs hws hwd htrans he false
    (fun _ => hidle r hsaved q ho.get) fun hs => ?_
  rw [hsent] at hs
  cases hs

theorem forward_spec (h : Inv marked mode head m) (hr : m.Reads mode) (hidle : m.NoneInFlight) :
    ∃ m', m.forward = some m' ∧ Inv marked mode head m' ∧ Kept m m' := by
  obtain ⟨r, q, hsaved, ho, hl, hreqs, hsent, htrans, hws, hwd⟩ := hr.live h
  obtain ⟨⟨he, -, -, -, -, hevents⟩, hk, -⟩ := hr
  have hnum : q.data.numOutstandingPackets = 0 := hidle r hsaved q ho.get
  have hout : q.isAnyOutstandingRequest = false := by
    simp [MemRequest.isAnyOutstandingRequest, htrans, hnum, hws]
  have hforward : m.forward = m.scheduleWriteback true := by
    simp [forward, hsaved, ho.get, hout]
  rw [hforward]
  refine scheduleWriteback_spec h hk hevents ho hl hreqs hws hwd htrans he true
    (fun hfalse => nomatch hfalse) fun hs => ?_
  rw [hsent] at hs
  cases hs

/-- A request that is translated and has not been sent as a whole is sent. -/
theorem send_spec (h : Inv marked mode head m) (ho : m.requests.OneLive r q)
    (hl : Live marked mode head m r q) (hreqs : q.hasReqs = true) (hsent : q.data.sent = false)
    (htrans : q.numInTranslation = 0) (hws : q.writebackScheduled = false)
    (hevents : m.events = []) (he : m.entry ≠ none)
    (hstore : m.isStore = true → m.committed = true ∨ head) (env : Nat → DataRequest.SendResult) :
    ∃ m', m.send r env = some m' ∧ Inv marked mode head m' ∧ Kept m m' := by
  obtain ⟨d, hd, hcounted, hsame⟩ := DataRequest.sendPacketToCache_spec hl.counted hsent env
  have hsend : m.send r env = some { m with
      requests := m.requests.put r { q with data := d } } := by
    have hassert : ¬ (q.data.toDCache && q.data.isRunahead && !q.data.isLoad) = true := by
      unfold DataRequest.toDCache
      cases q.data.isRunahead <;> cases q.data.isLoad <;> simp
    have hassert' : ¬ (q.data.isRunahead &&
        decide (q.data.numOutstandingPackets < d.numOutstandingPackets) &&
        !m.runahead) = true := by
      intro hboth
      simp only [Bool.and_eq_true, Bool.not_eq_true'] at hboth
      obtain ⟨⟨hflag, -⟩, hrun⟩ := hboth
      rw [hl.flagged hflag] at hrun
      cases hrun
    simp only [send, ho.get, Option.bind_eq_bind, Option.bind_some]
    rw [if_neg hassert, hd, Option.bind_some, if_neg hassert', modifyRequest_eq ho]
  obtain ⟨-, hfreed⟩ := hl.entry_of_some he
  refine ⟨_, hsend, h.put ho rfl h.done h.forged ?_, rfl, id, id, rfl⟩
  refine { hl with
    bare := fun hbare => (by rw [hreqs] at hbare; cases hbare)
    counted := hcounted
    isLoad := hsame.isLoad.trans hl.isLoad
    unsent := fun hpos => absurd htrans (Nat.ne_of_gt hpos)
    later := fun hf => (by rw [hevents] at hf; cases hf)
    forged := fun _ hs => (by rw [hws] at hs; cases hs)
    rCache := fun hne => ?_
    flag := fun _ => hsame.isRunahead.trans (hl.flag (.inl hreqs))
    flagged := fun hflag => hl.flagged (hsame.isRunahead.symm.trans hflag)
    stores := fun hst hne => ?_
    waits := fun hf => (by rw [hfreed] at hf; cases hf) }
  · by_cases hflag : q.data.isRunahead = true
    · exact hl.flagged hflag
    · rw [hsame.noRCache (by simpa using hflag)] at hne
      exact hl.rCache hne
  · by_cases hrun : m.runahead = true
    · -- a runahead store does not go to the D-cache
      have hload : q.data.isLoad = false := by
        rw [hl.isLoad]
        unfold isStore at hst
        unfold isLoad
        cases hk : m.kind <;> simp [hk] at hst ⊢
      have hto : q.data.toDCache = false := by
        simp [DataRequest.toDCache, hl.flag (.inl hreqs), hrun, hload]
      rw [hsame.noDCache hto] at hne
      exact hl.stores hst hne
    · exact ⟨by simpa using hrun, hstore hst⟩

theorem readCache_spec (h : Inv marked mode head m) (hr : m.Reads mode)
    (env : Nat → DataRequest.SendResult) :
    ∃ m', m.readCache env = some m' ∧ Inv marked mode head m' ∧ Kept m m' := by
  obtain ⟨r, q, hsaved, ho, hl, hreqs, hsent, htrans, hws, -⟩ := hr.live h
  obtain ⟨⟨he, -, -, -, -, hevents⟩, hk, -⟩ := hr
  have hstore : m.isStore = true → m.committed = true ∨ head := by
    intro hst
    simp [isStore, hk] at hst
  have hread : m.readCache env = m.send r env := by simp [readCache, hsaved]
  rw [hread]
  exact send_spec h ho hl hreqs hsent htrans hws hevents he hstore env

theorem writebackStore_spec (h : Inv marked mode head m) (hw : m.WritesBack)
    (hstore : m.committed = true ∨ head) (env : Nat → DataRequest.SendResult) :
    ∃ m', m.writebackStore env = some m' ∧ Inv marked mode head m' ∧ Kept m m' := by
  obtain ⟨r, q, he, ho, hl, hreqs, hsent, htrans, hws, -⟩ := hw.live h
  obtain ⟨-, -, -, -, hevents, -⟩ := hw
  have hne : m.entry ≠ none := by
    rw [he]
    exact fun hnone => nomatch hnone
  have hwrite : m.writebackStore env = m.send r env := by simp [writebackStore, he]
  rw [hwrite]
  exact send_spec h ho hl hreqs hsent htrans hws hevents hne (fun _ => hstore) env

/-- A new request is made, when the one before has been deleted. -/
theorem pushRequest_new (h : Inv marked mode head m) (hquiet : m.Quiet) (he : m.Executes mode)
    (hstarted : m.translationStarted = false) (active isSplit : Bool) (numPackets pending : Nat) :
    ∃ m', m.pushRequest active isSplit numPackets pending = some m' ∧
      Inv marked mode head m' ∧ Kept m m' := by
  obtain ⟨hentry, hexec, hsq, hmode, hstore, hevents⟩ := he
  let r := m.requests.length
  let d : DataRequest :=
    if isSplit then .builtSplit m.isLoad false numPackets else .built m.isLoad false
  let q₀ : MemRequest :=
    { data := d, hasReqs := active, numInTranslation := if active then pending else 0 }
  let q : MemRequest :=
    { q₀ with data := { d with isRunahead := m.runahead } }
  have hq : (if m.runahead then { q₀ with data := { q₀.data with isRunahead := true } } else q₀) =
      q := by
    by_cases hrun : m.runahead = true
    · simp [q, q₀, hrun]
    · have hoff : m.runahead = false := by simpa using hrun
      simp only [q, q₀, hoff, Bool.false_eq_true, if_false]
      cases isSplit <;> rfl
  have hd : d.Counted ∧ d.isLoad = m.isLoad ∧ d.numOutstandingPackets = 0 ∧ d.sent = false ∧
      d.inDCache = [] ∧ d.inRCache = [] ∧ d.rCachePackets = [] := by
    cases isSplit with
    | true => exact ⟨DataRequest.builtSplit_counted _ _ _, rfl, rfl, rfl, rfl, rfl, rfl⟩
    | false => exact ⟨DataRequest.built_counted _ _, rfl, rfl, rfl, rfl, rfl, rfl⟩
  obtain ⟨hcounted, hload, hnum, hsent, hD, hR, hC⟩ := hd
  have ho₀ : (m.requests.alloc q₀).OneLive r q₀ := hquiet.noLive.alloc q₀
  have hfreed : Freed MemRequest.Idle ((m.requests.alloc q₀).put r q) :=
    (h.freed.alloc q₀).put ho₀.get q
  -- the state in which the request is marked
  let m₁ : MemInst := { m with
    requests := m.requests.alloc q₀
    entry := some (some r)
    reqMade := true
    savedRequest := if active then some r else m.savedRequest
    translationStarted := active || m.translationStarted
    translationCompleted := if active then pending == 0 else m.translationCompleted
    executed := !active || m.executed }
  let m' : MemInst := { m₁ with requests := (m.requests.alloc q₀).put r q }
  have hpush : m.pushRequest active isSplit numPackets pending = some m' := by
    have hmark : m.pushRequest active isSplit numPackets pending = m₁.modifyRequest r fun q =>
        if m.runahead then { q with data := { q.data with isRunahead := true } } else q := by
      unfold pushRequest
      rw [if_neg (by rw [hstarted]; exact Bool.false_ne_true)]
      cases active <;> rfl
    rw [hmark, modifyRequest_eq (m := m₁) ho₀, hq]
  have ho : m'.requests.OneLive r q := ho₀.put
  refine ⟨m', hpush, ⟨fun hc => ?_, fun hf => ?_, hfreed, .inr ⟨r, q, ho, ?_⟩⟩, rfl, id, id, rfl⟩
  · rcases h.done hc with hs | hx
    · exact .inl hs
    · rw [hexec] at hx
      cases hx
  · have hx := h.forged hf
    rw [hexec] at hx
    cases hx
  · have htrans : 0 < q.numInTranslation → active = true := by
      intro hpos
      by_contra hne
      simp only [q, q₀, hne] at hpos
      cases hpos
    exact {
      entry := rfl
      reqMade := rfl
      discarded := rfl
      saved := by
        change (if active then some r else m.savedRequest) = if active then some r else none
        rw [hquiet.saved]
      bare := fun hbare => by
        have hoff : active = false := hbare
        subst hoff
        exact ⟨rfl, hstarted, rfl, hnum, hD, hR, rfl⟩
      started := fun hreqs _ => by
        have hon : active = true := hreqs
        subst hon
        rfl
      counted := ⟨hcounted.count, hcounted.unsent, hcounted.single⟩
      isLoad := hload
      unsent := fun _ => ⟨hnum, hsent, rfl, fun hf => nomatch hf⟩
      translating := fun hpos => by
        have hon := htrans hpos
        subst hon
        have hpending : pending ≠ 0 := Nat.ne_of_gt hpos
        exact .inr ⟨hexec, by simpa [m', m₁] using hpending, hstore⟩
      events := by
        change false = !m.events.isEmpty
        rw [hevents]
        rfl
      event := by
        change m.events.length ≤ 1
        rw [hevents]
        exact Nat.zero_le 1
      later := fun _ => hnum
      now := fun ht => by
        change true ∈ m.events at ht
        rw [hevents] at ht
        cases ht
      forged := fun _ hs => nomatch hs
      loadDone := fun _ hs => nomatch hs
      storeDone := fun _ hs => hs.elim (fun hs => nomatch hs) (fun hs => nomatch hs)
      rCache := fun hne => absurd hC hne
      flag := fun _ => rfl
      flagged := id
      stores := fun _ hne => absurd hD hne
      waits := fun hf => nomatch hf }

theorem pushRequest_spec (h : Inv marked mode head m) (he : m.Executes mode)
    (active isSplit : Bool) (numPackets pending : Nat) :
    ∃ m', m.pushRequest active isSplit numPackets pending = some m' ∧
      Inv marked mode head m' ∧ Kept m m' := by
  rcases h.live with hquiet | ⟨r, q, ho, hl⟩
  · exact pushRequest_new h hquiet he (hquiet.started (.inl he.1)) active isSplit numPackets pending
  · obtain ⟨hentry, hexec, -⟩ := he
    have hreqs : q.hasReqs = true := by
      by_contra hbare
      obtain ⟨hexec', -⟩ := hl.bare (by simpa using hbare)
      rw [hexec] at hexec'
      cases hexec'
    obtain ⟨-, hkept⟩ := hl.entry_of_some hentry
    have hstarted := hl.started hreqs hkept
    have hsaved : m.savedRequest = some r := by rw [hl.saved, if_pos hreqs]
    -- its request is marked already
    have hsame : (if m.runahead then { q with data := { q.data with isRunahead := true } } else q) =
        q := by
      by_cases hrun : m.runahead = true
      · rw [if_pos hrun, ← hrun, ← hl.flag (.inl hreqs)]
      · rw [if_neg hrun]
    have hpush : m.pushRequest active isSplit numPackets pending =
        some { m with requests := m.requests.put r q } := by
      simp only [pushRequest, hstarted, if_true, hsaved, Option.map_some, Option.bind_eq_bind,
        Option.bind_some]
      rw [modifyRequest_eq ho, hsame]
      simp only [hstarted, hsaved]
    have hl' : Live marked mode head { m with requests := m.requests.put r q } r q := { hl with }
    exact ⟨_, hpush, h.put ho rfl h.done h.forged hl', rfl, id, id, rfl⟩

theorem forgeResponse_spec (h : Inv marked mode head m) (hk : m.kind = .load)
    (hmode : mode = true) (hsq : m.squashed = false) (hexec : m.executed = false)
    (he : m.entry ≠ none) (hr : m.savedRequest = some r) (hget : m.requests.get? r = some q)
    (hsent : q.data.sent = true) :
    ∃ m', m.forgeResponse = some m' ∧ Inv marked mode head m' ∧ Kept m m' := by
  obtain ⟨ho, hl⟩ := h.of_get hget
  obtain ⟨-, hreqs⟩ := hl.saved_of_some (by rw [hr]; exact fun hnone => nomatch hnone)
  have htrans : q.numInTranslation = 0 := by
    by_contra hne
    obtain ⟨-, hunsent, -⟩ := hl.unsent (Nat.pos_of_ne_zero hne)
    rw [hsent] at hunsent
    cases hunsent
  have hws : q.writebackScheduled = false := by
    by_contra hws
    have hx := h.forged (hl.forged hk (by simpa using hws) hsent)
    rw [hexec] at hx
    cases hx
  have hevents : m.events = [] := hl.events_eq_nil.mpr (by rw [hws]; rfl)
  obtain ⟨-, hwd⟩ := hl.unscheduled hk hevents hexec hsq fun _ => hmode
  let m₁ : MemInst := { m with executed := true, hasForgedResponse := true }
  have hinv₁ : Inv marked mode head m₁ := by
    refine ⟨fun _ => .inr rfl, fun _ => rfl, h.freed, .inr ⟨r, q, ho, ?_⟩⟩
    exact { hl with
      bare := fun hbare => (by rw [hreqs] at hbare; cases hbare)
      translating := fun hpos => absurd htrans (Nat.ne_of_gt hpos)
      forged := fun _ _ _ => rfl
      loadDone := fun _ _ => .inl rfl }
  have hl₁ : Live marked mode head m₁ r q := (hinv₁.of_get hget).2
  obtain ⟨m', hschedule, hinv', hkept⟩ := scheduleWriteback_spec hinv₁ hk hevents ho hl₁ hreqs hws
    hwd htrans he true (fun hfalse => nomatch hfalse) fun _ => rfl
  refine ⟨m', ?_, hinv', hkept.threadNumber, hkept.committed, hkept.squashed, hkept.runahead⟩
  have heq := scheduleWriteback_eq (m := m₁) ho hr hws true
  have hforge : m.forgeResponse = m₁.scheduleWriteback true := by
    rw [heq]
    have hplain := scheduleWriteback_eq (m := { m with executed := true }) ho hr hws true
    simp only [forgeResponse, hplain, Option.bind_eq_bind, Option.bind_some]
    rfl
  rw [hforge, hschedule]

end Execution

/-! ## Responses -/

section Responses

/-- A packet of the request has come back and is not subtracted yet. -/
structure Replying (marked : Prop) (mode : Bool) (head : Prop) (m : MemInst) (r : Nat)
    (q : MemRequest) : Prop where
  done : m.committed = true → m.squashed = true ∨ m.executed = true
  forged : m.hasForgedResponse = true → m.executed = true
  freed : Freed MemRequest.Idle m.requests
  one : m.requests.OneLive r q
  owned : Owned marked mode head m r q.answered
  positive : 0 < q.data.numOutstandingPackets
  translated : q.numInTranslation = 0
  events : m.events = []

/-- The packet is subtracted, and a request that waits for nothing else is deleted. -/
theorem packetReplied_spec (h : Replying marked mode head m r q) :
    ∃ m', m.packetReplied r = some m' ∧ Inv marked mode head m' ∧ Kept m m' := by
  have hrel : q.isReleased = q.entryFreed := h.owned.isReleased
  let m₁ : MemInst := { m with requests := m.requests.put r q.answered }
  have hl₁ : Owned marked mode head m₁ r q.answered := { h.owned with }
  have hreplied : m.packetReplied r =
      if q.answered.data.numOutstandingPackets = 0 ∧ q.isReleased = true then m₁.delete r
      else some m₁ := by
    simp only [packetReplied, h.one.get, DataRequest.packetReplied, Option.bind_eq_bind,
      Option.bind_some, if_neg (Nat.ne_of_gt h.positive), modifyRequest]
    rfl
  have hwb : (q.writebackScheduled && !q.writebackDone) = false :=
    h.owned.events_eq_nil.mp h.events
  rw [hreplied]
  by_cases hlast : q.answered.data.numOutstandingPackets = 0 ∧ q.isReleased = true
  · obtain ⟨hnum, hfreed⟩ := hlast
    rw [hrel] at hfreed
    have hidle : q.answered.Idle := by
      refine (MemRequest.idle_iff hl₁.counted).mpr ?_
      have htrans : q.answered.numInTranslation = 0 := h.translated
      have hwb' : (q.answered.writebackScheduled && !q.answered.writebackDone) = false := hwb
      simp [MemRequest.isAnyOutstandingRequest, htrans, hnum, hwb']
    have hentry : m.entry = none := by
      have he := h.owned.entry
      change m.entry = if q.entryFreed then none else some (some r) at he
      rw [he, if_pos hfreed]
    rw [if_pos ⟨hnum, hrel.trans hfreed⟩, delete_eq (m := m₁) h.one.put]
    refine ⟨_, rfl, .delete (m := m₁) (h.freed.put h.one.get _) h.one.put hidle rfl h.done
      h.forged rfl ?_ h.events ?_, rfl, id, id, rfl⟩
    · intro r' he
      change m.entry = _ at he
      rw [hentry] at he
      cases he
    · exact fun hne => absurd hentry hne
  · rw [if_neg hlast]
    refine ⟨m₁, rfl, ⟨h.done, h.forged, h.freed.put h.one.get _, .inr ⟨r, _, h.one.put, ?_⟩⟩,
      rfl, id, id, rfl⟩
    refine { hl₁ with waits := fun hf => ?_ }
    have hnum : q.answered.data.numOutstandingPackets ≠ 0 := fun hzero =>
      hlast ⟨hzero, hrel.trans hf⟩
    simp [MemRequest.isAnyOutstandingRequest, Nat.pos_of_ne_zero hnum]

/-- The counts of the request, whatever its handler has done with the response. -/
theorem Replying.received {i : Nat} {toRCache : Bool} {d : DataRequest}
    (h : Inv marked mode head m) (ho : m.requests.OneLive r q) (hl : Live marked mode head m r q)
    (hi : q.data.Awaits i toRCache) (hevents : m.events = [])
    (hd : DataRequest.Received (q.data.arrive i toRCache) d) :
    Replying marked mode head { m with requests := m.requests.put r { q with data := d } } r
      { q with data := d } := by
  obtain ⟨hpackets, hnum, -, hload, hflag, hsent⟩ :=
    DataRequest.arrive_rCachePackets q.data i toRCache
  obtain ⟨d', -, hcounted, hd'⟩ := DataRequest.replied_counted hl.counted hi hd
  have hpos : 0 < q.data.numOutstandingPackets := by
    have hone : 0 < (if toRCache then q.data.inRCache else q.data.inDCache).length :=
      List.length_pos_of_mem hi
    have hcount := hl.counted.count
    cases toRCache <;> simp at hone <;> omega
  have hnum' : d.numOutstandingPackets = q.data.numOutstandingPackets :=
    hd.numOutstandingPackets.trans hnum
  have htrans : q.numInTranslation = 0 := by
    by_contra hne
    obtain ⟨hzero, -⟩ := hl.unsent (Nat.pos_of_ne_zero hne)
    exact Nat.ne_of_gt hpos hzero
  have hreqs : q.hasReqs = true := hl.hasReqs fun hidle =>
    Nat.ne_of_gt hpos hidle.numOutstandingPackets
  rw [← hnum'] at hpos hd'
  subst hd'
  refine ⟨h.done, h.forged, h.freed.put ho.get _, ho.put, ?_, hpos, htrans, hevents⟩
  exact { hl.toOwned with
    bare := fun hbare => (by rw [show q.hasReqs = false from hbare] at hreqs; cases hreqs)
    counted := hcounted
    isLoad := (hd.isLoad.trans hload).trans hl.isLoad
    unsent := fun hpos => absurd htrans (Nat.ne_of_gt hpos)
    later := fun hf => (by
      change false ∈ m.events at hf
      rw [hevents] at hf
      cases hf)
    forged := fun hk hs hsnt => hl.forged hk hs ((hd.sent.trans hsent).symm.trans hsnt)
    rCache := fun hne => hl.rCache ((hd.rCachePackets.trans hpackets) ▸ hne)
    flag := fun hm => (hd.isRunahead.trans hflag).trans (hl.flag hm)
    flagged := fun hf => hl.flagged ((hd.isRunahead.trans hflag).symm.trans hf)
    stores := fun hst hne => hl.stores hst fun hnil => hne (by
      change d.inDCache = []
      rw [hd.inDCache]
      cases toRCache with
      | true => exact hnil
      | false =>
        change q.data.inDCache.erase i = []
        rw [hnil]
        rfl) }

theorem Replying.setExecuted (h : Replying marked mode head m r q) {executed : Bool}
    (hmono : m.executed = true → executed = true) :
    Replying marked mode head { m with executed := executed } r q where
  done hc := (h.done hc).imp_right hmono
  forged hf := hmono (h.forged hf)
  freed := h.freed
  one := h.one
  owned := { h.owned with
    bare := fun hbare => by
      obtain ⟨hexec, hstarted, hidle⟩ := h.owned.bare hbare
      exact ⟨hmono hexec, hstarted, hidle⟩
    translating := fun hpos => absurd h.translated (Nat.ne_of_gt hpos)
    loadDone := fun hk hd => (h.owned.loadDone hk hd).imp_left hmono }
  positive := h.positive
  translated := h.translated
  events := h.events

/-- A store, or a request that is written back, is completed. -/
theorem Replying.setStoreCompleted (h : Replying marked mode head m r q) (written : Bool)
    (hk : written = true → m.kind ≠ .load) :
    Replying marked mode head
      { m with
        storeCompleted := true
        requests := m.requests.put r { q with writebackDone := written || q.writebackDone } } r
      { q with writebackDone := written || q.writebackDone } where
  done := h.done
  forged := h.forged
  freed := h.freed.put h.one.get _
  one := h.one.put
  owned := by
    have hwb : (q.writebackScheduled && !(written || q.writebackDone)) = false := by
      have hold : (q.writebackScheduled && !q.writebackDone) = false :=
        h.owned.events_eq_nil.mp h.events
      cases written with
      | true => simp
      | false => simpa using hold
    refine { h.owned with
      bare := fun hbare => ?_
      translating := fun hpos => absurd h.translated (Nat.ne_of_gt hpos)
      events := ?_
      loadDone := fun hload hd => ?_
      storeDone := fun _ _ => rfl }
    · obtain ⟨hexec, hstarted, hidle⟩ := h.owned.bare hbare
      exact ⟨hexec, hstarted, hidle.1, hidle.2, hidle.3, hidle.4, hwb⟩
    · change (q.writebackScheduled && !(written || q.writebackDone)) = !m.events.isEmpty
      rw [hwb, h.events]
      rfl
    · have hnot : written = false := by
        by_contra hw
        exact hk (by simpa using hw) hload
      subst hnot
      exact h.owned.loadDone hload hd
  positive := h.positive
  translated := h.translated
  events := h.events

/-- Its packet is outstanding, so that the request is not deleted with the entry. -/
theorem Replying.clearEntry (h : Replying marked mode head m r q) (he : m.entry = some (some r)) :
    ∃ m' q', m.clearEntry = some m' ∧ Replying marked mode head m' r q' ∧ Kept m m' := by
  have hout : q.isAnyOutstandingRequest = true := by
    simp [MemRequest.isAnyOutstandingRequest, h.positive]
  have hclear : m.clearEntry = some { m with
      requests := m.requests.put r { q with entryFreed := true }
      entry := none } := by
    simp [MemInst.clearEntry, he, release, h.one.get, hout, modifyRequest]
  refine ⟨_, _, hclear, ⟨h.done, h.forged, h.freed.put h.one.get _, h.one.put, ?_, h.positive,
    h.translated, h.events⟩, rfl, id, id, rfl⟩
  exact { h.owned with
    entry := rfl
    bare := fun hbare => by
      obtain ⟨hexec, hstarted, hidle⟩ := h.owned.bare hbare
      exact ⟨hexec, hstarted, hidle.1, hidle.2, hidle.3, hidle.4, hidle.5⟩
    started := fun _ hf => nomatch hf
    unsent := fun hpos => absurd h.translated (Nat.ne_of_gt hpos)
    now := fun ht => by
      change true ∈ m.events at ht
      rw [h.events] at ht
      cases ht }

/-- A store is completed, and gives up its entry when it is the first of the store queue. -/
theorem Replying.completeStore (h : Replying marked mode head m r q)
    (hentry : q.entryFreed = false) (written front : Bool) (hk : written = true → m.kind ≠ .load) :
    ∃ m' q', ({ m with
        requests := m.requests.put r { q with writebackDone := written || q.writebackDone } } :
          MemInst).completeStore front = some m' ∧
      Replying marked mode head m' r q' ∧ Kept m m' := by
  have he : m.entry = some (some r) := by
    have hif := h.owned.entry
    change m.entry = if q.entryFreed then none else some (some r) at hif
    rw [hif, hentry]
    rfl
  have hne : m.entry ≠ none := by
    rw [he]
    exact fun hnone => nomatch hnone
  have hcompleted := h.setStoreCompleted written hk
  cases front with
  | true =>
    obtain ⟨m', q', hclear, hreplying, hkept⟩ := hcompleted.clearEntry he
    refine ⟨m', q', ?_, hreplying, hkept.threadNumber, hkept.committed, hkept.squashed,
      hkept.runahead⟩
    simp only [MemInst.completeStore]
    rw [if_neg hne]
    exact hclear
  | false =>
    refine ⟨_, _, ?_, hcompleted, rfl, id, id, rfl⟩
    simp only [MemInst.completeStore]
    rw [if_neg hne]
    rfl

theorem completeDataAccess_spec (h : Replying marked mode head m r q) (hreqs : q.hasReqs = true)
    (hentry : q.entryFreed = false) (front : Bool) :
    ∃ m' q', m.completeDataAccess mode r front = some m' ∧
      Replying marked mode head m' r q' ∧ Kept m m' := by
  have hsaved : m.savedRequest = some r := by
    have hif := h.owned.saved
    change m.savedRequest = if q.hasReqs then some r else none at hif
    rw [hif, if_pos hreqs]
  obtain ⟨executed, hwrite, hmono, -⟩ := @writeback_spec mode _ _ _ hsaved h.one.get
  have hexecuted := h.setExecuted hmono
  unfold completeDataAccess
  split
  · exact ⟨_, q, hwrite, hexecuted, rfl, id, id, rfl⟩
  · rename_i hload
    split
    · obtain ⟨m', q', hstore, hreplying, hkept⟩ :=
        h.completeStore hentry false front fun hw => nomatch hw
      simp only [Bool.false_or, put_self h.one.get] at hstore
      exact ⟨m', q', hstore, hreplying, hkept⟩
    · obtain ⟨m', q', hstore, hreplying, hkept⟩ :=
        hexecuted.completeStore hentry true front fun _ => hload
      refine ⟨m', q', ?_, hreplying, hkept.threadNumber, hkept.committed, hkept.squashed,
        hkept.runahead⟩
      have hrel : q.isReleased = false := h.owned.isReleased.trans hentry
      rw [hwrite]
      simp only [Option.bind_eq_bind, Option.bind_some, writebackDone, h.one.get, modifyRequest,
        hrel, Bool.false_eq_true, if_false]
      exact hstore

theorem reply_spec {i : Nat} {toRCache : Bool} {c : Cell MemRequest}
    (h : Inv marked mode head m) (hnow : true ∉ m.events) (hc : m.requests[r]? = some c)
    (hi : c.val.data.Awaits i toRCache) (front : Bool) :
    ∃ m', m.reply mode r i toRCache front = some m' ∧ Inv marked mode head m' ∧ Kept m m' := by
  obtain ⟨q, freed⟩ := c
  change q.data.Awaits i toRCache at hi
  have hidle : ¬ q.Idle := by
    intro hidle
    unfold DataRequest.Awaits at hi
    rw [hidle.inDCache, hidle.inRCache] at hi
    cases toRCache <;> cases hi
  obtain ⟨ho, hl⟩ := h.of_cell hc hidle
  change Live marked mode head m r q at hl
  have hreqs : q.hasReqs = true := hl.hasReqs hidle
  have hnum : q.data.numOutstandingPackets ≠ 0 := by
    intro hzero
    have hcount := hl.counted.count
    rw [hzero] at hcount
    have hone : 0 < (if toRCache then q.data.inRCache else q.data.inDCache).length :=
      List.length_pos_of_mem hi
    cases toRCache <;> simp at hone <;> omega
  have hevents : m.events = [] := by
    match hev : m.events with
    | [] => rfl
    | true :: _ => exact absurd (hev ▸ List.mem_cons_self) hnow
    | false :: _ => exact absurd (hl.later (hev ▸ List.mem_cons_self)) hnum
  let q₁ : MemRequest := { q with data := q.data.arrive i toRCache }
  let m₁ : MemInst := { m with requests := m.requests.put r q₁ }
  have hrefl : DataRequest.Received (q.data.arrive i toRCache) (q.data.arrive i toRCache) :=
    ⟨rfl, rfl, rfl, rfl, rfl, rfl, rfl, rfl⟩
  have harrived : Replying marked mode head m₁ r q₁ := .received h ho hl hi hevents hrefl
  obtain ⟨d, hd, hreceived⟩ := DataRequest.receive_spec hl.counted hi
  -- the handler keeps the request as one whose packet is still to be subtracted
  have hrecv : ∃ m₂ q₂, m₁.recvTimingResp mode r i toRCache front = some m₂ ∧
      Replying marked mode head m₂ r q₂ ∧ Kept m m₂ := by
    have hget : m₁.requests.get? r = some q₁ := ho.put.get
    have hstore : ¬ (m₁.isStore && m₁.runahead && !toRCache) = true := by
      intro hall
      simp only [Bool.and_eq_true, Bool.not_eq_true'] at hall
      obtain ⟨⟨hst, hrun⟩, rfl⟩ := hall
      have hne : q.data.inDCache ≠ [] := List.ne_nil_of_mem hi
      obtain ⟨hoff, -⟩ := hl.stores hst hne
      rw [show m.runahead = true from hrun] at hoff
      cases hoff
    have hexpected : ¬ (q₁.data.rCacheExpected && !m₁.runahead) = true := by
      intro hall
      simp only [Bool.and_eq_true, Bool.not_eq_true', DataRequest.rCacheExpected,
        List.isEmpty_eq_false_iff] at hall
      obtain ⟨hne, hoff⟩ := hall
      have hrun := harrived.owned.rCache hne
      rw [hoff] at hrun
      cases hrun
    simp only [recvTimingResp, hget, Option.bind_eq_bind, Option.bind_some]
    by_cases hforged : m₁.hasForgedResponse = true
    · rw [if_pos hforged]
      exact ⟨m₁, q₁, rfl, harrived, rfl, id, id, rfl⟩
    rw [if_neg hforged, if_neg hstore]
    by_cases hrel : q₁.isReleased = true
    · rw [if_pos hrel]
      exact ⟨m₁, q₁, rfl, harrived, rfl, id, id, rfl⟩
    rw [if_neg hrel, if_neg hexpected, hd]
    have hfreed : q.entryFreed = false := by
      have hsame : q₁.isReleased = q.entryFreed := hl.isReleased
      rw [hsame] at hrel
      simpa using hrel
    let q₂ : MemRequest := { q with data := d }
    let m₂ : MemInst := { m with requests := m.requests.put r q₂ }
    have hmodify : m₁.modifyRequest r (fun q => { q with data := d }) = some m₂ := by
      rw [modifyRequest_eq (m := m₁) ho.put, put_put]
    have hanswer : Replying marked mode head m₂ r q₂ := .received h ho hl hi hevents hreceived
    rw [Option.bind_some, hmodify, Option.bind_some]
    by_cases hcompleted : d.justCompleted = true
    · rw [if_pos hcompleted]
      obtain ⟨m₃, q₃, hdone, hreplying, hkept⟩ :=
        completeDataAccess_spec hanswer hreqs hfreed front
      exact ⟨m₃, q₃, hdone, hreplying, hkept.threadNumber, hkept.committed, hkept.squashed,
        hkept.runahead⟩
    · rw [if_neg hcompleted]
      exact ⟨m₂, q₂, rfl, hanswer, rfl, id, id, rfl⟩
  obtain ⟨m₂, q₂, hrecv, hreplying, hkept⟩ := hrecv
  obtain ⟨m₃, hreplied, hinv, hkept'⟩ := packetReplied_spec hreplying
  refine ⟨m₃, ?_, hinv, hkept.trans hkept'⟩
  have harrive : m.modifyRequest r (fun q => { q with data := q.data.arrive i toRCache }) =
      some m₁ := modifyRequest_eq ho _
  simp only [reply, harrive, Option.bind_eq_bind, Option.bind_some, hrecv, hreplied]

end Responses

/-! ## Every step -/

end MemInst

/-- A load is not forwarded to, or put off, by a store while packets of its request are on their
way. -/
def MemOp.Unforwarded (m : MemInst) : MemOp → Prop
  | .readFull | .readPartial => m.NoneInFlight
  | _ => True

namespace MemInst

variable {marked : Prop} {mode : Bool} {head : Prop} {m m' : MemInst} {r : Nat}
  {q q' : MemRequest}

theorem insert_inv (h : Inv marked mode head m) (hnew : m.requests = []) :
    Inv marked mode head { m with entry := some none } where
  done := h.done
  forged := h.forged
  freed := h.freed
  live := by
    rcases h.live with hquiet | ⟨r, q, ho, -⟩
    · exact .inl ⟨hquiet.noLive, hquiet.saved, fun r he => (nomatch he), hquiet.events,
        fun _ => hquiet.started (.inr hnew)⟩
    · have hget := ho.get
      rw [hnew] at hget
      cases hget

/-- No pointer that dangles is followed and no assertion fails, and the invariant is kept. -/
theorem step_inv (h : Inv marked mode head m) (op : MemOp) (ha : op.Allowed mode m)
    (hu : op.Unforwarded m)
    (hw : ∀ env, op = .writebackStore env → m.committed = true ∨ head) :
    ∃ m', m.step mode op = some m' ∧ Inv marked mode head m' ∧ Kept m m' := by
  cases op with
  | insert =>
    obtain ⟨-, -, hnew⟩ := ha
    exact ⟨_, rfl, insert_inv h hnew, rfl, id, id, rfl⟩
  | pushRequest active isSplit numPackets pending =>
    obtain ⟨he, -⟩ := ha
    exact pushRequest_spec h he active isSplit numPackets pending
  | finish r =>
    obtain ⟨c, hc, hpos⟩ := ha
    exact finish_spec h hc hpos
  | readStrictlyOrdered =>
    obtain ⟨hr, hidle⟩ := ha
    exact reschedule_spec h hr hidle
  | readLocal =>
    obtain ⟨hr, hidle⟩ := ha
    exact readLocal_spec h hr hidle
  | readFull => exact forward_spec h ha hu
  | readPartial => exact reschedule_spec h ha hu
  | readCache env => exact readCache_spec h ha env
  | writebackStore env => exact writebackStore_spec h ha (hw env rfl) env
  | failStoreConditional front =>
    obtain ⟨hwb, -, hidle⟩ := ha
    exact failStoreConditional_spec h hwb hidle front
  | completeStore front =>
    obtain ⟨-, -, hc, hsq, he, -, -, hevents⟩ := ha
    refine completeStore_spec h he ?_ ?_ front
    · rw [hevents]
      exact List.not_mem_nil
    · rcases h.done hc with hs | hx
      · rw [hsq] at hs
        cases hs
      · exact .inr (.inl hx)
  | popStore =>
    obtain ⟨hload, hcompleted, -⟩ := ha
    refine clearEntry_spec h (fun hnow => ?_) (.inr (.inr hcompleted))
    rcases h.live with hquiet | ⟨r, q, -, hl⟩
    · rw [hquiet.events] at hnow
      cases hnow
    · obtain ⟨-, hk⟩ := hl.now hnow
      exact hload hk
  | dcacheResp r i front =>
    obtain ⟨hnow, c, hc, hi⟩ := ha
    have hawaits : c.val.data.Awaits i false := hi
    exact reply_spec h hnow hc hawaits front
  | rcacheResp r i front =>
    obtain ⟨hnow, c, hc, hi⟩ := ha
    have hawaits : c.val.data.Awaits i true := hi
    exact reply_spec h hnow hc hawaits front
  | forgeResponse =>
    obtain ⟨hk, -, hmode, hsq, hexec, he, -, r, q, hr, hget, hsent, -⟩ := ha
    exact forgeResponse_spec h hk hmode hsq hexec he hr hget hsent
  | writebackEvent => exact processWriteback_spec h ha
  | setExecuted =>
    obtain ⟨-, hd⟩ := ha
    exact ⟨_, rfl, h.setExecuted hd, rfl, id, id, rfl⟩
  | setSquashed => exact ⟨_, rfl, h.setSquashed, rfl, id, fun _ => rfl, rfl⟩
  | squashEntry =>
    obtain ⟨-, -, hnow⟩ := ha
    obtain ⟨m', hclear, hinv, hkept⟩ := clearEntry_spec h.setSquashed hnow (.inl rfl)
    exact ⟨m', hclear, hinv, hkept.threadNumber, hkept.committed, fun _ => hkept.squashed rfl,
      hkept.runahead⟩
  | commit =>
    obtain ⟨-, hd⟩ := ha
    exact ⟨_, rfl, h.setCommitted hd.symm, rfl, fun _ => rfl, id, rfl⟩
  | commitLoad =>
    obtain ⟨-, hc, hsq, -, hnow⟩ := ha
    refine clearEntry_spec h hnow ?_
    rcases h.done hc with hs | hx
    · rw [hsq] at hs
      cases hs
    · exact .inr (.inl hx)

end MemInst
end Runahead
end Gem5
