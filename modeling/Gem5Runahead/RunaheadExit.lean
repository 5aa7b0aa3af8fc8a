import Gem5Runahead.PipelineFrame

/-!
# RunaheadExit

How a runahead period ends. Commit waits for `exitRunahead`; the load that caused runahead, the
policy, a deadline event and a fetch fault can set it. The deadline is armed whenever the exit is
signalled and the policy does not exit at once, and it stays armed until the period ends. But a
deadline event outlives its period: before a later period is signalled, commit still takes the
load of the event for the cause, and then the event ends that period.

* `ExitStep`, `step_exit` — what a step can do to the flags, the mode and the deadlines.
* `exit_flags_track_mode` — the flags, the deadline and the mode agree.
* `never_premature_iff` — the runs in which no period ends too early.
* `stale_deadline_ends_period` — a run in which one does.
-/

namespace Gem5
namespace Runahead
namespace Pipeline

variable {cfg : PipelineParams} {s s' : Pipeline} {ls : List Label} {l : Label}

section Inversion

/-- Commit has taken the response of the load that caused the current period. -/
def signalled : List Event → Bool
  | [] => false
  | .enter .. :: _ => false
  | .exitSignal :: _ => true
  | _ :: log => signalled log

/-- What decides how the period ends. -/
structure ExitState where
  inRunahead : Bool
  period : Nat
  cause : Nat
  exitRunahead : Bool
  exitable : Bool
  commitCause : Option Nat
  deadlineEvents : List DeadlineEvent
  archRestore : Bool
  archRestorePrev : Bool
  signalled : Bool
  exitSeqNum : Nat

def exitState (s : Pipeline) : ExitState where
  inRunahead := s.inRunahead
  period := s.runaheadPeriods
  cause := s.runaheadCause
  exitRunahead := s.commit.exitRunahead
  exitable := s.commit.runaheadExitable
  commitCause := s.commit.runaheadCause
  deadlineEvents := s.deadlineEvents
  archRestore := s.commit.archRestore
  archRestorePrev := s.commit.archRestorePrev
  signalled := Pipeline.signalled s.log
  exitSeqNum := s.commit.runaheadExitSeqNum

/-- What a step can do to the exit state. -/
inductive ExitStep (cfg : PipelineParams) (s : Pipeline) : Label → Pipeline → Prop
  | same {l : Label} {s' : Pipeline} (h : s'.exitState = s.exitState) : ExitStep cfg s l s'
  | signal {s' : Pipeline} (h : s.signalExitRunahead cfg = some s') :
      ExitStep cfg s .signalExitRunahead s'
  | deadline {k : Nat} {s' : Pipeline} (h : s.deadline k = some s') :
      ExitStep cfg s (.deadline k) s'
  | exit {s' : Pipeline} (hexits : s.exits = true)
      (h : s.squashFromRunaheadExit cfg = some s') :
      ExitStep cfg s .squash { s' with phase := .iewSquash }
  | finish {exit : Bool} {s' : Pipeline}
      (hexit : exit = s.commit.exitRunahead ∨ s.commit.runaheadExitable = true ∧
        s.commit.exitRunahead = false ∧ s.markCompletedInsts.exitCondition cfg = true)
      (hlog : s'.log = if s.commit.archRestorePrev then .archRestore :: s.log else s.log)
      (h : s'.exitState = { s.exitState with
        exitRunahead := exit
        archRestore := false
        archRestorePrev := s.commit.archRestore }) : ExitStep cfg s .finish s'
  | fetchFault {e : CommitEnv} {head : Nat} {tail : List Nat} {n : Nat} {s' : Pipeline}
      (hphase : s.phase = .commitInsts n)
      (hhead : s.rob.instList = head :: tail) (hlive : (s.insts head).squashed = false)
      (hrunahead : (s.insts head).runahead = true) (hfault : (s.insts head).notAnInst = true)
      (h : s'.exitState = { s.exitState with
        exitRunahead := true, commitCause := some s.runaheadCause }) :
      ExitStep cfg s (.commitInst e) s'
  | enter {e : CommitEnv} {head : Nat} {s' : Pipeline} (hmode : s.inRunahead = false)
      (h : s'.exitState = { s.exitState with
        inRunahead := true
        period := s.runaheadPeriods + 1
        cause := head
        signalled := false }) :
      ExitStep cfg s (.commitInst e) s'

theorem signalled_append {new : List Event} (log : List Event) (h : ∀ e ∈ new, s.Taken e) :
    signalled (new ++ log) = signalled log := by
  induction new with
  | nil => rfl
  | cons e new ih =>
    have ih := ih fun e he => h e (List.mem_cons_of_mem _ he)
    cases h e List.mem_cons_self with
    | squash => exact ih
    | insertInst => exact ih

theorem retireInst_exitState (s : Pipeline) (head : Nat) :
    (s.retireInst head).exitState = s.exitState := by
  simp only [retireInst, updateComInstStats]
  split <;> rfl

theorem Serviced.exitState {i : Nat} {new : List Event} (h : Serviced s i new s') :
    s'.exitState = s.exitState := by
  obtain ⟨⟨_, _, log, rfl⟩, hlog, hnew, -⟩ := h
  obtain rfl : log = new ++ s.log := hlog
  have hsignalled : ∀ new : List Event, (∀ e ∈ new, s.Handled i e) →
      signalled (new ++ s.log) = signalled s.log := by
    intro new hnew
    induction new with
    | nil => rfl
    | cons e new ih =>
      have ih := ih fun e he => hnew e (List.mem_cons_of_mem _ he)
      cases hnew e List.mem_cons_self with
      | pcEvent => exact ih
      | tcWrite => exact ih
  simp only [Pipeline.exitState, hsignalled new hnew]

theorem commitSuccess_exitState {head : Nat} {e : CommitEnv} {skipped : Bool}
    (h : s.commitSuccess head e = some (s', skipped)) : s'.exitState = s.exitState := by
  obtain ⟨t, ht, hend⟩ := commitSuccess_cases h
  obtain ⟨status, hafter, -⟩ := squashAfterInst_frame s head
  obtain ⟨_, u, status', hserviced, rfl, -⟩ := instBoundary_cases hend
  calc u.exitState = t.exitState := hserviced.exitState
    _ = (s.squashAfterInst head).exitState := by
      rcases drainPoint_cases ht with ⟨-, rfl⟩ | ⟨-, rfl⟩ <;> rfl
    _ = (s.retireInst head).exitState := by
      rw [hafter]
      rfl
    _ = s.exitState := retireInst_exitState s head

theorem afterInterrupt_exitState (s : Pipeline) (e : CommitEnv) :
    (s.afterInterrupt e).exitState = s.exitState := by
  obtain ⟨_, _, _, _, _, _, _, _, _, ht, ⟨rfl, -⟩ | ⟨rfl, -⟩⟩ := afterInterrupt_frame s e
  · rw [ht]
    rfl
  · rw [ht]
    rfl

/-- A head that is not ready lets runahead begin at most. -/
theorem lllAtHead_exitState {head : Nat} {e : CommitEnv} (h : s.lllAtHead cfg head e = some s') :
    s'.exitState = s.exitState ∨ s.inRunahead = false ∧ s'.exitState = { s.exitState with
      inRunahead := true
      period := s.runaheadPeriods + 1
      cause := head
      signalled := false } := by
  cases lllAtHead_cases h with
  | waits | again => exact .inl rfl
  | enter _ _ _ hmode => exact .inr ⟨hmode, rfl⟩

theorem round_exit {n : Nat} {e : CommitEnv} (hphase : s.phase = .commitInsts n)
    (h : Round cfg s n e s') : ExitStep cfg s (.commitInst e) s' := by
  have hx := afterInterrupt_exitState s e
  have hinsts := afterInterrupt_insts s e
  have hperiod : (s.afterInterrupt e).runaheadPeriods = s.runaheadPeriods :=
    congrArg ExitState.period hx
  have hcause : (s.afterInterrupt e).runaheadCause = s.runaheadCause := congrArg ExitState.cause hx
  cases h with
  | full => exact .same rfl
  | nothing => exact .same hx
  | @notReady head tail u hhead hready hu =>
    rcases lllAtHead_exitState hu with heq | ⟨hmode, heq⟩
    · exact .same (heq.trans hx)
    · refine @ExitStep.enter _ _ _ head _ ?_ ?_
      · exact (congrArg ExitState.inRunahead hx).symm.trans hmode
      · rw [← hx, ← hperiod]
        exact heq
  | squashed hhead hsquashed => exact .same hx
  | wait hhead hlive => exact .same hx
  | unexecuted hhead hlive => exact .same hx
  | @fault head tail hhead hready hlive hexecuted hfault =>
    have hhead' : (s.atHead e head).insts = s.insts := hinsts
    have hrunahead : (((s.atHead e head).modifyInst head DynInst.setCompleted).insts
        head).runahead = (s.insts head).runahead := by
      simp [DynInst.setCompleted, hhead']
    have hnotAnInst : ((((s.atHead e head).modifyInst head DynInst.setCompleted).modifyInst head
        DynInst.setPoisoned).insts head).notAnInst = (s.insts head).notAnInst := by
      simp [DynInst.setCompleted, DynInst.setPoisoned, hhead']
    simp only [commitFault]
    split
    · exact .same hx
    · rename_i hmarked
      rw [hrunahead] at hmarked
      split
      · rename_i hfetch
        rw [hnotAnInst] at hfetch
        refine .fetchFault hphase hhead hlive (by simpa using hmarked) hfetch ?_
        rw [← hx, ← hcause]
        rfl
      · exact .same hx
  | success hcommits hu =>
    exact .same ((commitSuccess_exitState hu).trans hx)

theorem finish_exit : ExitStep cfg s .finish (s.finish cfg) := by
  obtain ⟨exit, log, heq, hexit, hlog⟩ := @updateRunaheadState_cases cfg s.markCompletedInsts
  rw [finish, heq]
  refine .finish hexit hlog ?_
  have hsignalled : signalled log = signalled s.log := by
    rw [hlog]
    split <;> rfl
  simp only [exitState, advance, hsignalled]
  rfl

/-- What a step can do to the end of runahead. -/
theorem step_exit (hst : s.step cfg l = some s') : ExitStep cfg s l s' := by
  cases step_effect hst with
  | outside hout =>
    obtain ⟨⟨_, _, _, _, _, _, _, log, rfl⟩, -, hlog⟩ := hout
    obtain rfl | ⟨i, rfl⟩ : log = s.log ∨ ∃ i, log = .setReg i (s.mark i) :: s.log := hlog
    · exact .same rfl
    · exact .same rfl
  | fetchInst _ h =>
    obtain ⟨_, _, _, _, rfl⟩ := fetchInst_frame h
    exact .same rfl
  | signal h => exact .signal h
  | deadline h => exact .deadline h
  | drain => exact .same rfl
  | drainResume => exact .same rfl
  | @tcWrite pc tcSquash => cases pc <;> exact .same rfl
  | commitTick h =>
    obtain ⟨_, _, _, _, _, _, rfl, rfl | ⟨rfl, -⟩⟩ := commitTick_frame h
    · exact .same rfl
    · exact .same rfl
  | squash h =>
    obtain ⟨⟨_, _, _, _, _, _, _, _, _, log, rfl⟩, hlog⟩ := h
    obtain rfl | rfl : log = s.log ∨ log = .redirect :: s.log := hlog
    · exact .same rfl
    · exact .same rfl
  | exit hexits h => exact .exit hexits h
  | iewSquash h =>
    obtain ⟨_, _, _, _, _, _, _, _, _, rfl, new, rfl, hnew⟩ := iewSquash_frame h
    refine .same ?_
    simp only [exitState, signalled_append s.log hnew]
  | round hphase h => exact round_exit hphase h
  | finish => exact finish_exit

end Inversion

section Flags

/-- The exit has been signalled, and its deadline is still ahead. -/
def Armed (cfg : PipelineParams) (ls : List Label) (s : Pipeline) : Prop :=
  -- the signal, since which the flag has been up
  ∃ ls₁ s₁ s₂ ls₂, ls = ls₁ ++ .signalExitRunahead :: ls₂ ∧ (system cfg).Reaches ls₁ s₁ ∧
    s₁.commit.runaheadExitable = false ∧ s₁.step cfg .signalExitRunahead = some s₂ ∧
    ((system cfg).guard fun t _ => t.commit.runaheadExitable = true).Run s₂ ls₂ s ∧
    ∃ event ∈ s.deadlineEvents, s.commit.runaheadCause = some event.causeSeqNum ∧
      event.when_ ≤ s₁.cycle + cfg.exitDeadline

theorem Armed.snoc (h : Armed cfg ls s) (hst : s.step cfg l = some s')
    (hexitable : s.commit.runaheadExitable = true)
    (hcause : s'.commit.runaheadCause = s.commit.runaheadCause)
    (hkeep : ∀ event ∈ s.deadlineEvents, s.commit.runaheadCause = some event.causeSeqNum →
      event ∈ s'.deadlineEvents) : Armed cfg (ls ++ [l]) s' := by
  obtain ⟨ls₁, s₁, s₂, ls₂, rfl, hs₁, hnot, hsignal, hrun, event, hevent, hseq, hwhen⟩ := h
  refine ⟨ls₁, s₁, s₂, ls₂ ++ [l], by simp, hs₁, hnot, hsignal, .snoc hrun ⟨hst, hexitable⟩, event,
    hkeep event hevent hseq, hcause.trans hseq, hwhen⟩

/-- Inside a tick a restore that is pending stays so, and the one that is due stays due. -/
theorem ExitStep.restore (h : ExitStep cfg s l s') (hl : l ≠ .finish) :
    (s.commit.archRestore = true → s'.commit.archRestore = true) ∧
      s'.commit.archRestorePrev = s.commit.archRestorePrev := by
  have hkeep : s'.exitState.archRestore = s.exitState.archRestore →
      s'.exitState.archRestorePrev = s.exitState.archRestorePrev →
      (s.commit.archRestore = true → s'.commit.archRestore = true) ∧
        s'.commit.archRestorePrev = s.commit.archRestorePrev := by
    intro hnow hprev
    exact ⟨fun hs => hnow.trans hs, hprev⟩
  cases h with
  | same h =>
    exact hkeep ((congrArg ExitState.archRestore h).trans rfl)
      ((congrArg ExitState.archRestorePrev h).trans rfl)
  | signal h =>
    obtain ⟨-, ⟨-, rfl⟩ | ⟨-, exit, load, -, -, rfl⟩⟩ := signalExitRunahead_cases h
    · exact hkeep rfl rfl
    · split <;> exact ⟨id, rfl⟩
  | deadline h =>
    obtain ⟨_, _, -, -, rfl, -⟩ := deadline_cases h
    exact hkeep rfl rfl
  | exit _ h =>
    obtain ⟨_, _, _, _, _, rfl⟩ := squashFromRunaheadExit_frame h
    exact ⟨fun _ => rfl, rfl⟩
  | finish => exact absurd rfl hl
  | fetchFault _ _ _ _ _ h =>
    exact hkeep ((congrArg ExitState.archRestore h).trans rfl)
      ((congrArg ExitState.archRestorePrev h).trans rfl)
  | enter _ h =>
    exact hkeep ((congrArg ExitState.archRestore h).trans rfl)
      ((congrArg ExitState.archRestorePrev h).trans rfl)

end Flags

section Scenario

/-- A cycle of the pipeline up to commit: what is fetched, how many instructions rename sends on,
what IEW executes, and how many instructions it sends to commit. -/
def earlyTick (fetched : List DynInst) (renamed : Nat) (executed : List Nat) (written : Nat) :
    List Label :=
  .fetchSignals none :: fetched.map (.fetchInst · {}) ++
    [.renameInsts renamed, .iewSignals false] ++
    executed.map (.execute · (.done false) .none) ++
    [.writebackInsts written, .commitTick false false]

/-- The rest of the cycle: what commit meets in the rounds of its loop. -/
def lateTick (commits : List CommitEnv) : List Label :=
  .squash :: .iewSquash :: commits.map .commitInst ++ [.finish]

def tick (fetched : List DynInst) (renamed : Nat) (executed : List Nat) (written : Nat)
    (commits : List CommitEnv) : List Label :=
  earlyTick fetched renamed executed written ++ lateTick commits

/-- The head of the ROB is a load that has missed in every cache, and is in flight for a cycle. -/
def missed : CommitEnv where
  request := some { complete := false, sent := true, accessDepths := [1] }
  inFlightCycles := 1

def minimumWork : PipelineParams where
  commitWidth := 1
  squashWidth := 8
  numROBEntries := 8
  lllDepthThreshold := 1
  runaheadEnabled := true
  eagerEntry := true
  allowOverlapping := true
  usingFiltered := false
  inFlightThreshold := 100
  exitPolicy := .minimumWork
  minRunaheadWork := 1
  exitDeadline := 8

/-- A load reaches the head, misses, and the CPU runs ahead of it. -/
def entry : List Label :=
  tick [{ isLoad := true }] 0 [] 0 [{}] ++ tick [] 1 [] 0 [{}] ++ tick [] 0 [] 0 [missed]

/-- Its data returns before any work is done: the deadline is armed, in cycle 3 for cycle 11. -/
def waits : List Label := entry ++ [.signalExitRunahead]

end Scenario

section Premature

/-- The policy is content with an exit at the signal. -/
def policyHolds (cfg : PipelineParams) (s : Pipeline) : Prop :=
  match cfg.exitPolicy with
  | .eager => True
  | .minimumWork => cfg.minRunaheadWork ≤ s.commit.instsPseudoretired
  | .nllb => s.rob.findUnsentValidLoad s.insts (-1) = 0
  | .dynamicDelayed => s.commit.instsPseudoretired < s.commit.trackedROBInsts ∨
      s.rob.findUnsentValidLoad s.insts cfg.minRunaheadWork = 0 ∨
      cfg.usingFiltered = true ∧ s.runaheadChainSize = 0

/-- The period may end in this step. -/
inductive Mature (cfg : PipelineParams) (s : Pipeline) : Label → Prop
  /-- The response for the load that caused the period arrives, and the policy is content. -/
  | signal (h : s.policyHolds cfg) : Mature cfg s .signalExitRunahead
  /-- The response arrived earlier in the period, and the policy's check succeeds. -/
  | check (hsignalled : signalled s.log = true)
      (hcheck : s.markCompletedInsts.exitCondition cfg = true) : Mature cfg s .finish
  /-- The response arrived earlier in the period, and the deadline that it armed is over. -/
  | deadline {k : Nat} {event : DeadlineEvent} (hevent : s.deadlineEvents[k]? = some event)
      (hown : event.armedIn = s.runaheadPeriods) (hsignalled : signalled s.log = true)
      (hwhen : event.when_ ≤ s.cycle) : Mature cfg s (.deadline k)
  /-- A runahead instruction with a fetch fault is at the head of the ROB. -/
  | fetchFault {e : CommitEnv} {head : Nat} {tail : List Nat}
      (hhead : s.rob.instList = head :: tail) (hlive : (s.insts head).squashed = false)
      (hrunahead : (s.insts head).runahead = true) (hfault : (s.insts head).notAnInst = true) :
      Mature cfg s (.commitInst e)

/-- If the step sets `exitRunahead`, the period may end. -/
def NeverPremature (cfg : PipelineParams) (s : Pipeline) (l : Label) : Prop :=
  ∀ s', s.step cfg l = some s' → s.commit.exitRunahead = false →
    s'.commit.exitRunahead = true → Mature cfg s l

/-- A deadline event that finds its load as commit's cause, in a period that does not end yet, was
armed in this period. -/
def Own (s : Pipeline) (l : Label) : Prop :=
  ∀ k event, l = .deadline k → s.deadlineEvents[k]? = some event → event.when_ ≤ s.cycle →
    s.inRunahead = true → s.commit.exitRunahead = false →
    s.commit.runaheadCause = some event.causeSeqNum → event.armedIn = s.runaheadPeriods

/-- The exit flags and the deadlines belong to signals that were taken. -/
structure Signals (s : Pipeline) : Prop where
  exitable : s.commit.runaheadExitable = true → signalled s.log = true
  armed : ∀ event ∈ s.deadlineEvents, event.armedIn ≤ s.runaheadPeriods ∧
    (event.armedIn = s.runaheadPeriods → signalled s.log = true)

theorem ExitStep.signals (h : ExitStep cfg s l s') (hs : s.Signals)
    (hmode : s.commit.runaheadExitable = true → s.inRunahead = true) : s'.Signals := by
  have hkeep : ∀ exitable, s'.exitState.exitable = exitable →
      (exitable = true → s.commit.runaheadExitable = true) →
      s'.exitState.signalled = s.exitState.signalled →
      s'.exitState.period = s.exitState.period →
      (∀ event ∈ s'.deadlineEvents, event ∈ s.deadlineEvents) → s'.Signals := by
    rintro _ rfl hexitable hsignalled hperiod hevents
    have hsignalled : signalled s'.log = signalled s.log := hsignalled
    have hperiod : s'.runaheadPeriods = s.runaheadPeriods := hperiod
    refine ⟨fun h => ?_, fun event hevent => ?_⟩
    · rw [hsignalled]
      exact hs.exitable (hexitable h)
    · rw [hsignalled, hperiod]
      exact hs.armed event (hevents event hevent)
  cases h with
  | same h =>
    have hevents : s'.deadlineEvents = s.deadlineEvents := congrArg ExitState.deadlineEvents h
    exact hkeep _ (congrArg ExitState.exitable h) id (congrArg ExitState.signalled h)
      (congrArg ExitState.period h) fun event he => hevents ▸ he
  | signal h =>
    obtain ⟨-, ⟨-, rfl⟩ | ⟨-, exit, load, -, -, rfl⟩⟩ := signalExitRunahead_cases h
    · exact hs
    · split
      · refine ⟨fun _ => rfl, fun event hevent => ?_⟩
        exact ⟨(hs.armed event hevent).1, fun _ => rfl⟩
      · refine ⟨fun _ => rfl, fun event hevent => ⟨?_, fun _ => rfl⟩⟩
        rcases List.mem_append.mp hevent with hevent | hevent
        · exact (hs.armed event hevent).1
        · obtain rfl := List.mem_singleton.mp hevent
          exact Nat.le_refl _
  | deadline h =>
    obtain ⟨event, exit, -, -, rfl, -⟩ := deadline_cases h
    exact hkeep _ rfl id rfl rfl fun event he => List.mem_of_mem_eraseIdx he
  | exit _ h =>
    obtain ⟨_, _, _, _, _, rfl⟩ := squashFromRunaheadExit_frame h
    exact hkeep _ rfl (fun h => by cases h) rfl rfl fun _ he => he
  | finish _ _ h =>
    have hevents : s'.deadlineEvents = s.deadlineEvents := congrArg ExitState.deadlineEvents h
    exact hkeep _ ((congrArg ExitState.exitable h).trans rfl) id
      ((congrArg ExitState.signalled h).trans rfl) ((congrArg ExitState.period h).trans rfl)
      fun event he => hevents ▸ he
  | fetchFault _ _ _ _ _ h =>
    have hevents : s'.deadlineEvents = s.deadlineEvents := congrArg ExitState.deadlineEvents h
    exact hkeep _ ((congrArg ExitState.exitable h).trans rfl) id
      ((congrArg ExitState.signalled h).trans rfl) ((congrArg ExitState.period h).trans rfl)
      fun event he => hevents ▸ he
  | enter hnormal h =>
    -- a new period: no signal yet, and every deadline is of an earlier one
    have hevents : s'.deadlineEvents = s.deadlineEvents := congrArg ExitState.deadlineEvents h
    have hperiod : s'.runaheadPeriods = s.runaheadPeriods + 1 := congrArg ExitState.period h
    have hexitable : s'.commit.runaheadExitable = s.commit.runaheadExitable :=
      congrArg ExitState.exitable h
    refine ⟨fun hx => ?_, fun event hevent => ?_⟩
    · rw [hexitable] at hx
      have := hmode hx
      rw [hnormal] at this
      cases this
    · rw [hevents] at hevent
      have := (hs.armed event hevent).1
      omega

theorem reaches_signals (h : (system cfg).Reaches ls s) : s.Signals := by
  let I (ls : List Label) (s : Pipeline) : Prop := (system cfg).Reaches ls s ∧ s.Signals
  refine (h.history (I := I) ?_ ?_).2
  · rintro s ⟨pc, rfl⟩
    exact ⟨.start ⟨pc, rfl⟩, fun h => (by cases h), fun event he => absurd he List.not_mem_nil⟩
  · rintro ls s l s' ⟨hreach, hs⟩ hst
    exact ⟨hreach.snoc hst, (step_exit hst).signals hs (reaches_core hreach).modes.exitable⟩

/-- An exit at the signal is the policy's. -/
theorem policyHolds_of_signal (h : s.signalExitRunahead cfg = some s')
    (hnot : s.commit.exitRunahead = false) (hexit : s'.commit.exitRunahead = true) :
    s.policyHolds cfg := by
  obtain ⟨-, ⟨-, rfl⟩ | ⟨-, exit, load, -, hpolicy, rfl⟩⟩ := signalExitRunahead_cases h
  · rw [hnot] at hexit
    cases hexit
  · have hset : exit = true := by
      split at hexit
      · assumption
      · exact hexit
    subst hset
    have hpolicy := congrArg Commit.exitRunahead hpolicy
    unfold exitPolicy at hpolicy
    unfold policyHolds
    cases hp : cfg.exitPolicy with
    | eager => trivial
    | minimumWork =>
      simp only [hp] at hpolicy ⊢
      split at hpolicy
      · assumption
      · exact absurd (hnot.symm.trans hpolicy) (by simp)
    | nllb =>
      simp only [hp] at hpolicy ⊢
      split at hpolicy
      · exact absurd (hnot.symm.trans hpolicy) (by simp)
      · rename_i hload
        rw [not_not] at hload
        exact hload
    | dynamicDelayed =>
      simp only [hp, dynamicDelayedRunaheadExit] at hpolicy ⊢
      split at hpolicy
      · exact .inl (by assumption)
      · split at hpolicy
        · exact .inr (.inl (by assumption))
        · split at hpolicy
          · rename_i hchain
            simp only [Bool.and_eq_true, decide_eq_true_eq] at hchain
            exact .inr (.inr hchain)
          · exact absurd (hnot.symm.trans hpolicy) (by simp)

/-- Only a deadline event of another period can end a period too early. -/
theorem neverPremature_of_own (h : (system cfg).Reaches ls s) (hown : Own s l) :
    NeverPremature cfg s l := by
  intro s' hst hnot hexit
  have hsignals := reaches_signals h
  have hkeep : s'.exitState.exitRunahead = s.exitState.exitRunahead → False := by
    intro heq
    rw [show s'.commit.exitRunahead = s.commit.exitRunahead from heq, hnot] at hexit
    cases hexit
  cases step_exit hst with
  | same heq => exact absurd (hkeep (congrArg ExitState.exitRunahead heq)) id
  | signal hsignal => exact .signal (policyHolds_of_signal hsignal hnot hexit)
  | @deadline k _ hfire =>
    obtain ⟨event, exit, hevent, hwhen, rfl, ⟨rfl, -⟩ | ⟨-, hmode, -, hcause⟩⟩ :=
      deadline_cases hfire
    · exact absurd (hkeep rfl) id
    · have harmed := hown k event rfl hevent hwhen hmode hnot hcause
      have hmem : event ∈ s.deadlineEvents := List.mem_of_getElem? hevent
      exact .deadline hevent harmed ((hsignals.armed event hmem).2 harmed) hwhen
  | exit _ hsquash =>
    obtain ⟨_, _, _, _, _, rfl⟩ := squashFromRunaheadExit_frame hsquash
    cases hexit
  | @finish exit _ hcheck _ heq =>
    obtain rfl | ⟨hexitable, -, hcondition⟩ := hcheck
    · exact absurd (hkeep ((congrArg ExitState.exitRunahead heq).trans rfl)) id
    · exact .check (hsignals.exitable hexitable) hcondition
  | fetchFault _ hhead hlive hrunahead hfault _ => exact .fetchFault hhead hlive hrunahead hfault
  | enter _ heq => exact absurd (hkeep ((congrArg ExitState.exitRunahead heq).trans rfl)) id

/-- A deadline event that commit takes for its own ends the period; so it has to be its own. -/
theorem own_of_neverPremature (hlegal : ∃ s', s.step cfg l = some s')
    (h : NeverPremature cfg s l) : Own s l := by
  rintro k event rfl hevent hwhen hmode hnot hcause
  obtain ⟨s', hst⟩ := hlegal
  have hfire : s.deadline k = some s' := by
    simp only [step] at hst
    split at hst
    · exact hst
    · cases hst
  obtain ⟨event', exit, hevent', -, rfl, ⟨-, hother⟩ | ⟨rfl, -⟩⟩ := deadline_cases hfire
  · obtain rfl := Option.some.inj (hevent.symm.trans hevent')
    exact absurd hcause (hother hmode hnot)
  · cases h _ hst hnot rfl with
    | deadline hevent'' hown =>
      obtain rfl := Option.some.inj (hevent.symm.trans hevent'')
      exact hown

/-- **No period ends too early, exactly in the runs in which every deadline event that commit
takes for its own was armed in the current period.** -/
theorem never_premature_iff : ((system cfg).guard (NeverPremature cfg)).Reaches ls s ↔
    ((system cfg).guard Own).Reaches ls s := by
  constructor
  · rintro ⟨s₀, hinit, hrun⟩
    refine ⟨s₀, hinit, hrun.mono ?_⟩
    rintro s l s' ⟨hst, hmature⟩
    exact ⟨hst, own_of_neverPremature ⟨s', hst⟩ hmature⟩
  · intro h
    let I (ls : List Label) (s : Pipeline) : Prop :=
      ((system cfg).guard (NeverPremature cfg)).Reaches ls s
    refine h.history (I := I) (fun s hs => .start hs) ?_
    rintro ls s l s' hreach ⟨hst, hown⟩
    exact hreach.snoc ⟨hst, neverPremature_of_own hreach.of_guard hown⟩

/-- A period ends by its policy with its deadline still ahead, and the next one begins. -/
def staleDeadline : List Label :=
  waits ++ [.dataReturn 1 true false] ++ tick [] 0 [] 1 [{}] ++ tick [] 0 [] 0 [{}] ++
    tick [] 0 [] 0 [{}, {}] ++ tick [] 0 [] 0 [] ++ tick [] 0 [] 0 [{}] ++ entry

/-- The deadline of the first period ends the second one, whose load has no data yet. -/
theorem stale_deadline_ends_period : ∃ s s', (system minimumWork).Reaches staleDeadline s ∧
    s.step minimumWork (.deadline 0) = some s' ∧ s.inRunahead = true ∧
    s.commit.exitRunahead = false ∧ s'.commit.exitRunahead = true ∧
    ¬ Mature minimumWork s (.deadline 0) := by
  have hrun : (staleDeadline.foldlM (step minimumWork) (start {})).any (fun s =>
      s.inRunahead && !s.commit.exitRunahead && !signalled s.log &&
        (s.step minimumWork (.deadline 0)).any (·.commit.exitRunahead)) = true := by
    decide +kernel
  obtain ⟨s, hs, h⟩ := (Option.any_eq_true _ _).mp hrun
  simp only [Bool.and_eq_true, Bool.not_eq_true'] at h
  obtain ⟨⟨⟨hmode, hnot⟩, hunsignalled⟩, hfire⟩ := h
  obtain ⟨s', hst, hexit⟩ := (Option.any_eq_true _ _).mp hfire
  refine ⟨s, s', ⟨start {}, ⟨{}, rfl⟩, .of_foldlM (M := system minimumWork) (fun _ _ _ h => h) hs⟩,
    hst, hmode, hnot, hexit, fun hmature => ?_⟩
  cases hmature with
  | deadline _ _ hsignalled =>
    rw [hunsignalled] at hsignalled
    cases hsignalled

end Premature

end Pipeline
end Runahead
end Gem5
