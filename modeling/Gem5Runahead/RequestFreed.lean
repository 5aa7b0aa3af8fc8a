import Gem5Runahead.LSQWindowInv

/-!
# RequestFreed

Every memory request is freed once and is not used afterwards, as long as no load is forwarded to,
or put off, by a store while packets of its request are on their way. A store that covers such a
load makes the queue discard the request and write the load back at once, and the write-back event
deletes the request under its packets.

* `Sound` — what holds of every request of every instruction.
* `requests_sound` — every run keeps it, and no step is stuck at a dangling pointer.
* `forwardedInFlight` — the run that frees a request with a packet on its way.
-/

namespace Gem5
namespace Runahead

namespace LSQWindow

/-- The outstanding packets of a request are counted, and what has been freed had none, nor a
translation or an event. A request that has not been freed is held by its entry or will be freed
when what it waits for is done, and it is the saved one of its instruction while it waits. -/
structure Sound (s : LSQWindow) : Prop where
  counted : ∀ i r q, (s.insts i).requests.get? r = some q →
    q.data.numOutstandingPackets = q.data.inDCache.length + q.data.inRCache.length
  freed : ∀ (i r : Nat) (q : MemRequest), (s.insts i).requests[r]? = some (Cell.mk q true) → q.Idle
  held : ∀ i r q, (s.insts i).requests.get? r = some q → (s.insts i).entry = some (some r) ∨
    q.isReleased = true ∧ q.isAnyOutstandingRequest = true
  saved : ∀ i r q, (s.insts i).requests.get? r = some q → q.isAnyOutstandingRequest = true →
    (s.insts i).savedRequest = some r
  pointers : ∀ i r, (s.insts i).entry = some (some r) ∨ (s.insts i).savedRequest = some r →
    ∃ q, (s.insts i).requests.get? r = some q
  events : ∀ i, (s.insts i).events ≠ [] → ∃ r q, (s.insts i).savedRequest = some r ∧
    (s.insts i).requests.get? r = some q

variable {marked : Prop} {s : LSQWindow} {ls : List WindowOp}

theorem Inv.sound (h : Inv marked s) : s.Sound where
  counted i r q hr := ((h.inst i).of_get hr).2.counted.count
  freed i := (h.inst i).freed
  held i r q hr := by
    obtain ⟨-, hl⟩ := (h.inst i).of_get hr
    by_cases hfreed : q.entryFreed = true
    · exact .inr ⟨hl.isReleased.trans hfreed, hl.waits hfreed⟩
    · exact .inl (by rw [hl.entry, if_neg hfreed])
  saved i r q hr hout := by
    obtain ⟨-, hl⟩ := (h.inst i).of_get hr
    have hreqs : q.hasReqs = true := hl.hasReqs fun hidle => by
      rw [(MemRequest.idle_iff hl.counted).mp hidle] at hout
      cases hout
    rw [hl.saved, if_pos hreqs]
  pointers i r hr := by
    rcases (h.inst i).live with hquiet | ⟨r', q, ho, hl⟩
    · rcases hr with he | hs
      · exact absurd he (hquiet.entry r)
      · rw [hquiet.saved] at hs
        cases hs
    · have hrr : r = r' := by
        rcases hr with he | hs
        · obtain ⟨hentry, -⟩ := hl.entry_of_some (by rw [he]; exact fun hnone => nomatch hnone)
          rw [he] at hentry
          exact Option.some.inj (Option.some.inj hentry)
        · obtain ⟨hsaved, -⟩ := hl.saved_of_some (by rw [hs]; exact fun hnone => nomatch hnone)
          rw [hs] at hsaved
          exact Option.some.inj hsaved
      subst hrr
      exact ⟨q, ho.get⟩
  events i he := by
    rcases (h.inst i).live with hquiet | ⟨r, q, ho, hl⟩
    · exact absurd hquiet.events he
    · have hreqs : q.hasReqs = true := hl.hasReqs fun hidle =>
        he (hl.events_eq_nil.mpr hidle.writeback)
      exact ⟨r, q, by rw [hl.saved, if_pos hreqs], ho.get⟩

theorem inv_of_reaches (h : (system.guard WindowOp.Unforwarded).Reaches ls s) : Inv False s := by
  refine h.invariant ?_ ?_
  · rintro s rfl
    exact inv_init False
  · rintro s op s' hinv ⟨⟨hallowed, hstep⟩, hunforwarded⟩
    obtain ⟨s'', hstep', hinv'⟩ := step_inv hinv hallowed hunforwarded fun hf => hf.elim
    rw [hstep] at hstep'
    cases hstep'
    exact hinv'

/-- Every request is freed once and is not used afterwards, in every run in which no load is
forwarded to, or put off, while packets of its request are on their way. -/
theorem requests_sound (h : (system.guard WindowOp.Unforwarded).Reaches ls s) :
    s.Sound ∧ ∀ op : WindowOp, op.Allowed s → op.Unforwarded s → s.step op ≠ none := by
  have hinv := inv_of_reaches h
  refine ⟨hinv.sound, fun op hallowed hunforwarded => ?_⟩
  obtain ⟨s', hstep, -⟩ := step_inv hinv hallowed hunforwarded fun hf => hf.elim
  rw [hstep]
  exact fun hnone => nomatch hnone

/-! ## A load that is forwarded with a packet on its way -/

/-- The D-cache takes the first of two packets only. Before the second is sent again, a store that
covers the load gets its address. -/
def forwardedInFlight : List WindowOp :=
  [.fetch 0 .load, .dispatch 1, .inst 1 .insert, .inst 1 (.pushRequest true true 2 0),
    .inst 1 (.readCache fun i => ⟨i == 0, false⟩), .inst 1 .readFull, .inst 1 .writebackEvent]

/-- The first packet is on its way, and the second is held back. -/
def partlySent : LSQWindow := ((forwardedInFlight.take 5).foldlM LSQWindow.step {}).getD {}

theorem partlySent_reaches :
    (system.guard WindowOp.Unforwarded).Reaches (forwardedInFlight.take 5) partlySent := by
  have hstart : (system.guard WindowOp.Unforwarded).Reaches [] {} := .start rfl
  have hfetched : (system.guard WindowOp.Unforwarded).Reaches (forwardedInFlight.take 1) _ :=
    hstart.snoc ⟨⟨trivial, rfl⟩, trivial⟩
  have hdispatched : (system.guard WindowOp.Unforwarded).Reaches (forwardedInFlight.take 2) _ :=
    hfetched.snoc ⟨⟨⟨List.mem_singleton_self 1, fun _ => List.not_mem_nil⟩, rfl⟩, trivial⟩
  have hinserted : (system.guard WindowOp.Unforwarded).Reaches (forwardedInFlight.take 3) _ :=
    hdispatched.snoc ⟨⟨⟨Nat.one_lt_two, ⟨by decide, rfl, rfl⟩, trivial⟩, rfl⟩, trivial⟩
  have hpushed : (system.guard WindowOp.Unforwarded).Reaches (forwardedInFlight.take 4) _ :=
    hinserted.snoc ⟨⟨⟨Nat.one_lt_two, ⟨⟨by decide, rfl, rfl, by decide, rfl, rfl⟩, by decide,
      by decide, by decide⟩, trivial⟩, rfl⟩, trivial⟩
  have hsent : (system.guard WindowOp.Unforwarded).Reaches (forwardedInFlight.take 5) _ :=
    hpushed.snoc ⟨⟨⟨Nat.one_lt_two, ⟨⟨by decide, rfl, rfl, by decide, rfl, rfl⟩, rfl, rfl, rfl,
      fun r hr q hq => by cases hr; cases hq; rfl⟩, trivial⟩, rfl⟩, trivial⟩
  exact hsent

theorem requests_sound_partlySent : partlySent.Sound ∧ ∀ op : WindowOp, op.Allowed partlySent →
    op.Unforwarded partlySent → partlySent.step op ≠ none :=
  requests_sound partlySent_reaches

theorem not_requests_sound : ∃ ls s, system.Reaches ls s ∧ ¬ s.Sound ∧
    ∃ op : WindowOp, op.Allowed s ∧ s.step op = none := by
  have hforwarded : system.Reaches (forwardedInFlight.take 6) _ :=
    partlySent_reaches.of_guard.snoc ⟨⟨Nat.one_lt_two, ⟨⟨by decide, rfl, rfl, by decide, rfl, rfl⟩,
      rfl, rfl, rfl, fun r hr q hq => by cases hr; cases hq; rfl⟩, trivial⟩, rfl⟩
  have hwritten : system.Reaches forwardedInFlight _ :=
    hforwarded.snoc ⟨⟨Nat.one_lt_two, List.cons_ne_nil _ _, trivial⟩, rfl⟩
  refine ⟨_, _, hwritten, fun hsound => ?_, .inst 1 (.dcacheResp 0 0 false),
    ⟨Nat.one_lt_two, ⟨by decide, _, rfl, List.mem_singleton_self 0⟩, trivial⟩, rfl⟩
  have hidle := hsound.freed 1 0 _ rfl
  exact absurd hidle.inDCache (by decide)

end LSQWindow
end Runahead
end Gem5
