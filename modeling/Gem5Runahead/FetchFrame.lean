import Gem5Runahead.InstAges
import Gem5Runahead.PipelineFrame

/-!
# FetchFrame

How fetch follows commit's squashes. What a step does to fetch, to the wire on which commit
tells it of a squash, and to the line of instructions in flight.

* `Effect.next`, `step_line` — only a fetched instruction is new in the line.
* `FetchStep`, `step_fetch` — what a step does to fetch.
-/

namespace Gem5
namespace Runahead
namespace Pipeline

variable {cfg : PipelineParams} {s s' : Pipeline} {l : Label}

section Line

theorem commitSuccess_next {head : Nat} {e : CommitEnv} {skipped : Bool}
    (h : s.commitSuccess head e = some (s', skipped)) :
    s'.list.globalSeqNum = s.list.globalSeqNum := by
  have hlist := congrArg (·.list.globalSeqNum) (commitSuccess_window h).1
  exact hlist

theorem lllAtHead_keeps {head : Nat} {e : CommitEnv} (h : s.lllAtHead cfg head e = some s') :
    s'.list.globalSeqNum = s.list.globalSeqNum ∧ s'.fetch = s.fetch := by
  cases lllAtHead_cases h with
  | waits | enter | again => exact ⟨rfl, rfl⟩

theorem round_next {n : Nat} {e : CommitEnv} (h : Round cfg s n e s') :
    s'.list.globalSeqNum = s.list.globalSeqNum := by
  have hinterrupt : (s.afterInterrupt e).list.globalSeqNum = s.list.globalSeqNum := by
    obtain ⟨_, _, _, _, _, _, _, _, _, heq, -⟩ := afterInterrupt_frame s e
    rw [heq]
  cases h with
  | full => rfl
  | nothing | squashed | wait | unexecuted => exact hinterrupt
  | notReady _ _ hu => exact (lllAtHead_keeps hu).1.trans hinterrupt
  | fault =>
    refine Eq.trans ?_ hinterrupt
    simp only [commitFault]
    split
    · rfl
    · split <;> rfl
  | success _ hu => exact (commitSuccess_next hu).trans hinterrupt

theorem Effect.next (h : Effect cfg s l s') : (∃ inst nextPC, l = .fetchInst inst nextPC) ∨
    s'.list.globalSeqNum = s.list.globalSeqNum := by
  cases h with
  | outside hout => exact .inr hout.next
  | fetchInst => exact .inl ⟨_, _, rfl⟩
  | signal h =>
    right
    obtain ⟨-, ⟨-, rfl⟩ | ⟨-, exit, load, -, -, rfl⟩⟩ := signalExitRunahead_cases h
    · rfl
    · split <;> rfl
  | deadline h =>
    obtain ⟨_, _, -, -, rfl, -⟩ := deadline_cases h
    exact .inr rfl
  | drain | drainResume | tcWrite => exact .inr rfl
  | commitTick h =>
    obtain ⟨_, _, _, _, _, _, rfl, -⟩ := commitTick_frame h
    exact .inr rfl
  | squash h =>
    obtain ⟨⟨_, _, _, _, _, _, _, _, _, _, rfl⟩, -⟩ := h
    exact .inr rfl
  | exit _ h =>
    obtain ⟨_, _, _, _, _, rfl⟩ := squashFromRunaheadExit_frame h
    exact .inr rfl
  | iewSquash h =>
    obtain ⟨_, _, _, _, _, _, _, _, _, rfl, -⟩ := iewSquash_frame h
    exact .inr rfl
  | round _ h => exact .inr (round_next h)
  | finish =>
    right
    obtain ⟨exit, log, heq, -⟩ := @updateRunaheadState_cases cfg s.markCompletedInsts
    rw [Pipeline.finish, heq]
    exact Window.endTick_globalSeqNum _

/-- Nothing comes to the line but what is fetched. -/
theorem step_line (hcore : s.window.Core) (hst : s.step cfg l = some s')
    (hfetch : ∀ inst nextPC, l ≠ .fetchInst inst nextPC) :
    ∀ i ∈ s'.window.line, i ∈ s.window.line := by
  intro i hi
  rcases (step_effect hst).next with ⟨inst, nextPC, rfl⟩ | hnext
  · exact absurd rfl (hfetch inst nextPC)
  · rcases (step_ages hst hcore).line i hi with hold | hnew
    · exact hold
    · have hlt := (step_core hst hcore).order.lt i hi
      have hnext : s'.window.list.globalSeqNum = s.window.list.globalSeqNum := hnext
      omega

end Line

section Fetch

/-- What a step does to fetch. -/
inductive FetchStep (s : Pipeline) : Label → Pipeline → Prop
  /-- Fetch sees commit's squash. -/
  | signalled {d : Option (Nat × PCState)} {s' : Pipeline} (hphase : s.phase = .idle)
      (hsquash : s.fetch.fromCommit.squash = true)
      (hfetch : s'.fetch = { s.fetch with
        status := .squashing
        pc := s.fetch.fromCommit.pc
        fromCommit := { s.fetch.fromCommit with squash := false } })
      (hphase' : s'.phase = .fetch) : FetchStep s (.fetchSignals d) s'
  /-- Decode has found that an instruction was predicted wrong. -/
  | decoded {i : Nat} {pc : PCState} {s' : Pipeline} (hphase : s.phase = .idle)
      (hsquash : s.fetch.fromCommit.squash = false) (hi : i ∈ s.front.queued)
      (hlive : (s.insts i).squashed = false)
      (hfetch : s'.fetch = { s.fetch with status := .squashing, pc })
      (hphase' : s'.phase = .fetch) : FetchStep s (.fetchSignals (some (i, pc))) s'
  | resumed {status : FetchStatus} {s' : Pipeline} (hphase : s.phase = .idle)
      (hsquash : s.fetch.fromCommit.squash = false) (hfetch : s'.fetch = { s.fetch with status })
      (hphase' : s'.phase = .fetch) : FetchStep s (.fetchSignals none) s'
  | fetched {inst : DynInst} {nextPC : PCState} {s' : Pipeline} (hphase : s.phase = .fetch)
      (h : s.fetchInst inst nextPC = some s') : FetchStep s (.fetchInst inst nextPC) s'
  /-- Fetch waits for the I-cache, or does no longer. -/
  | waits {l : Label} {status : FetchStatus} {s' : Pipeline} (hnot : s.fetch.status ≠ .squashing)
      (hfetch : s'.fetch = { s.fetch with status }) (hphase : s'.phase = s.phase) :
      FetchStep s l s'
  | finish {s' : Pipeline} (hphase : s.phase = .finish)
      (hfetch : s'.fetch = { s.fetch with fromCommit := s.commit.toIEW })
      (hphase' : s'.phase = .idle) : FetchStep s .finish s'
  | same {l : Label} {drainStall : Bool} {s' : Pipeline}
      (hfetch : s'.fetch = { s.fetch with drainStall }) (hphase : s'.phase = .idle ↔ s.phase = .idle) :
      FetchStep s l s'

theorem fetchSignals_fetch {d : Option (Nat × PCState)} {t : Pipeline} (hphase : s.phase = .idle)
    (h : s.fetchSignals d = some t) : FetchStep s (.fetchSignals d) { t with phase := .fetch } := by
  unfold fetchSignals at h
  split at h
  · rename_i hsquash
    obtain ⟨list, -, h⟩ := Option.bind_eq_some_iff.mp h
    cases h
    exact .signalled hphase hsquash rfl rfl
  · rename_i hsquash
    have hsquash : s.fetch.fromCommit.squash = false := by simpa using hsquash
    split at h
    · split at h
      · rename_i hdecode
        obtain ⟨list, -, h⟩ := Option.bind_eq_some_iff.mp h
        cases h
        exact .decoded hphase hsquash hdecode.2.1 hdecode.2.2 rfl rfl
      · cases h
    · split at h
      · cases h
        exact .resumed hphase hsquash rfl rfl
      · split at h <;> cases h
        · exact .resumed hphase hsquash rfl rfl
        · exact .resumed hphase hsquash rfl rfl

theorem commitSuccess_fetch {head : Nat} {e : CommitEnv} {skipped : Bool}
    (h : s.commitSuccess head e = some (s', skipped)) :
    ∃ drainStall, s'.fetch = { s.fetch with drainStall } := by
  obtain ⟨t, ht, hend⟩ := commitSuccess_cases h
  obtain ⟨_, hafter, -⟩ := squashAfterInst_frame s head
  obtain ⟨_, u, _, ⟨⟨_, _, _, rfl⟩, -⟩, rfl, -⟩ := instBoundary_cases hend
  have hretire : (s.squashAfterInst head).fetch = s.fetch := by
    rw [hafter]
    simp only [retireInst, updateComInstStats]
    split <;> rfl
  rcases drainPoint_cases ht with ⟨-, rfl⟩ | ⟨-, rfl⟩
  · exact ⟨_, hretire⟩
  · refine ⟨true, ?_⟩
    rw [← hretire]

theorem round_fetch {n : Nat} {e : CommitEnv} (h : Round cfg s n e s') :
    ∃ drainStall, s'.fetch = { s.fetch with drainStall } := by
  have hinterrupt : (s.afterInterrupt e).fetch = s.fetch := by
    obtain ⟨_, _, _, _, _, _, _, _, _, heq, -⟩ := afterInterrupt_frame s e
    rw [heq]
  have hsame : ∀ fetch, fetch = s.fetch → ∃ drainStall, fetch = { s.fetch with drainStall } := by
    rintro _ rfl
    exact ⟨_, rfl⟩
  cases h with
  | full => exact hsame _ rfl
  | nothing | squashed | wait | unexecuted => exact hsame _ hinterrupt
  | notReady _ _ hu => exact hsame _ ((lllAtHead_keeps hu).2.trans hinterrupt)
  | fault =>
    refine hsame _ (Eq.trans ?_ hinterrupt)
    simp only [commitFault]
    split
    · rfl
    · split <;> rfl
  | @success head _ _ _ hu =>
    obtain ⟨drainStall, hfetch⟩ := commitSuccess_fetch hu
    have hat : (s.atHead e head).fetch = s.fetch := hinterrupt
    rw [hat] at hfetch
    exact ⟨drainStall, hfetch⟩

/-- After a round commit is done for this tick, or makes another. -/
theorem round_phase {n : Nat} {e : CommitEnv} (hphase : s.phase = .commitInsts n)
    (h : Round cfg s n e s') : s'.phase = .finish ∨ ∃ m, s'.phase = .commitInsts m := by
  cases h with
  | full | nothing | notReady | wait | unexecuted | fault => exact .inl rfl
  | squashed => exact .inr ⟨n, (afterInterrupt_phase s e).trans hphase⟩
  | @success _ _ skipped =>
    cases skipped
    · exact .inr ⟨n + 1, rfl⟩
    · exact .inl rfl

theorem iewSquash_phase (h : s.iewSquash cfg = some s') :
    s'.phase = .finish ∨ s'.phase = .commitInsts 0 := by
  simp only [iewSquash, Option.bind_eq_bind] at h
  obtain ⟨t, -, hrest⟩ := Option.bind_eq_some_iff.mp h
  split at hrest
  · cases hrest
    exact .inl rfl
  · obtain ⟨u, -, hend⟩ := Option.bind_eq_some_iff.mp hrest
    cases hend
    exact .inr rfl

/-- What a step does to fetch. -/
theorem step_fetch (hst : s.step cfg l = some s') : FetchStep s l s' := by
  have hsame : ∀ l, s'.fetch = s.fetch → (s'.phase = .idle ↔ s.phase = .idle) →
      FetchStep s l s' := fun _ hfetch hphase => .same hfetch hphase
  cases l with
  | signalExitRunahead =>
    simp only [step] at hst
    split at hst
    · obtain ⟨-, ⟨-, rfl⟩ | ⟨-, exit, load, -, -, rfl⟩⟩ := signalExitRunahead_cases hst
      · exact hsame _ rfl Iff.rfl
      · split <;> exact .same rfl Iff.rfl
    · cases hst
  | deadline k =>
    simp only [step] at hst
    split at hst
    · obtain ⟨_, _, -, -, rfl, -⟩ := deadline_cases hst
      exact hsame _ rfl Iff.rfl
    · cases hst
  | processTrapEvent =>
    simp only [step] at hst
    split at hst
    · obtain ⟨_, _, rfl⟩ := processTrapEvent_frame hst
      exact hsame _ rfl Iff.rfl
    · cases hst
  | drain =>
    simp only [step] at hst
    split at hst <;> cases hst
    exact hsame _ rfl Iff.rfl
  | drainResume =>
    simp only [step] at hst
    split at hst <;> cases hst
    exact .same rfl Iff.rfl
  | tcWrite pc =>
    simp only [step] at hst
    split at hst
    · obtain ⟨_, rfl⟩ := tcWrite_frame hst
      exact hsame _ rfl Iff.rfl
    · cases hst
  | icacheResponse =>
    simp only [step] at hst
    split at hst
    · unfold icacheResponse at hst
      split at hst <;> cases hst
      rename_i hwaits
      exact .waits (by rw [hwaits]; simp) rfl rfl
    · cases hst
  | dataReturn i poisoned mispredicted =>
    simp only [step] at hst
    split at hst
    · obtain ⟨_, _, _, rfl, -⟩ := dataReturn_frame hst
      exact hsame _ rfl Iff.rfl
    · cases hst
  | fetchSignals d =>
    simp only [step] at hst
    split at hst
    · rename_i hphase
      obtain ⟨t, ht, hst⟩ := Option.bind_eq_some_iff.mp hst
      cases hst
      exact fetchSignals_fetch hphase.1 ht
    · cases hst
  | fetchInst inst nextPC =>
    simp only [step] at hst
    split at hst
    · rename_i hphase
      exact .fetched hphase hst
    · cases hst
  | fetchWait =>
    simp only [step] at hst
    split at hst
    · unfold fetchWait at hst
      split at hst <;> cases hst
      rename_i hrunning
      exact .waits (by rw [hrunning]; simp) rfl rfl
    · cases hst
  | fetchDiscard i =>
    simp only [step] at hst
    split at hst
    · obtain ⟨_, _, rfl, -⟩ := fetchDiscard_frame hst
      exact hsame _ rfl Iff.rfl
    · cases hst
  | renameInsts n =>
    simp only [step] at hst
    split at hst
    · rename_i hphase
      obtain ⟨t, ht, hst⟩ := Option.bind_eq_some_iff.mp hst
      obtain ⟨_, rfl⟩ := renameInsts_frame ht
      cases hst
      exact hsame _ rfl (by simp [hphase])
    · cases hst
  | iewSignals full =>
    simp only [step] at hst
    split at hst
    · rename_i hphase
      obtain ⟨_, _, ht⟩ := iewSignals_frame s full
      rw [ht] at hst
      cases hst
      exact hsame _ rfl (by simp [hphase])
    · cases hst
  | dispatchNonSpec i =>
    simp only [step] at hst
    split at hst
    · obtain ⟨_, rfl⟩ := dispatchNonSpec_frame hst
      exact hsame _ rfl Iff.rfl
    · cases hst
  | execute i result r =>
    simp only [step] at hst
    split at hst
    · obtain ⟨_, _, _, rfl, -⟩ := execute_frame hst
      exact hsame _ rfl Iff.rfl
    · cases hst
  | writebackInsts n =>
    simp only [step] at hst
    split at hst
    · rename_i hphase
      cases hst
      exact hsame _ rfl (by simp [hphase])
    · cases hst
  | commitTick a b =>
    simp only [step] at hst
    split at hst
    · rename_i hphase
      obtain ⟨t, ht, hst⟩ := Option.bind_eq_some_iff.mp hst
      obtain ⟨_, _, _, _, _, _, rfl, -⟩ := commitTick_frame ht
      cases hst
      exact hsame _ rfl (by simp [hphase])
    · cases hst
  | squash =>
    simp only [step] at hst
    split at hst
    · rename_i hphase
      obtain ⟨t, ht, hst⟩ := Option.bind_eq_some_iff.mp hst
      cases hst
      rcases squash_cases ht with ⟨⟨_, _, _, _, _, _, _, _, _, _, rfl⟩, -⟩ | ⟨-, hexit⟩
      · exact hsame _ rfl (by simp [hphase])
      · obtain ⟨_, _, _, _, _, rfl⟩ := squashFromRunaheadExit_frame hexit
        exact hsame _ rfl (by simp [hphase])
    · cases hst
  | iewSquash =>
    simp only [step] at hst
    split at hst
    · rename_i hphase
      have hnot : s'.phase ≠ .idle := by
        rcases iewSquash_phase hst with hp | hp <;> rw [hp] <;> exact Phase.noConfusion
      obtain ⟨_, _, _, _, _, _, _, _, _, rfl, -⟩ := iewSquash_frame hst
      refine .same rfl ⟨fun hidle => absurd hidle hnot, fun hidle => ?_⟩
      rw [hphase] at hidle
      cases hidle
    · cases hst
  | commitInst e =>
    simp only [step] at hst
    split at hst
    · rename_i hphase
      have hround := commitInst_cases hst
      obtain ⟨drainStall, hfetch⟩ := round_fetch hround
      have hnot : s'.phase ≠ .idle := by
        rcases round_phase hphase hround with hp | ⟨m, hp⟩ <;> rw [hp] <;> exact Phase.noConfusion
      refine .same hfetch ⟨fun hidle => absurd hidle hnot, fun hidle => ?_⟩
      rw [hphase] at hidle
      cases hidle
    · cases hst
  | finish =>
    simp only [step] at hst
    split at hst
    · rename_i hphase
      cases hst
      obtain ⟨exit, log, heq, -⟩ := @updateRunaheadState_cases cfg s.markCompletedInsts
      rw [Pipeline.finish, heq]
      exact .finish hphase rfl rfl
    · cases hst

end Fetch

end Pipeline
end Runahead
end Gem5
