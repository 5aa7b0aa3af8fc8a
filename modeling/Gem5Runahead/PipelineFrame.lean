import Gem5Runahead.PipelineWindow

/-!
# PipelineFrame

What the stages of the pipeline leave alone. A lemma of this module gives the state after a step
as the state before it with some components replaced, so that every other component is seen to be
the same.

* the stages before commit change neither commit's state nor the mode.
* `startSquash_frame`, `commitTick_frame`, `squash_cases`, `iewSquash_frame`, `finish_frame` — the
  parts of commit around its loop.
* `commitInst_cases` — what a round of the loop can come to.
* `step_effect` — what a step of the pipeline comes to.
-/

namespace Gem5
namespace Runahead
namespace Pipeline

variable {cfg : PipelineParams} {s s' : Pipeline} {i : Nat}

theorem mark_congr (hrunahead : (s'.insts i).runahead = (s.insts i).runahead)
    (hmarked : s'.markedIn i = s.markedIn i) : s'.mark i = s.mark i := by
  unfold mark
  simp only [hrunahead, hmarked]

section BeforeCommit

theorem processTrapEvent_frame (h : s.processTrapEvent = some s') :
    ∃ trapEvents trapSquash,
      s' = { s with trapEvents, commit := { s.commit with trapSquash } } := by
  unfold processTrapEvent at h
  split at h
  · cases h
  · simp only at h
    split at h <;> cases h <;> exact ⟨_, _, rfl⟩

theorem icacheResponse_frame (h : s.icacheResponse = some s') :
    ∃ status, s' = { s with fetch := { s.fetch with status } } := by
  unfold icacheResponse at h
  split at h <;> cases h
  exact ⟨_, rfl⟩

theorem fetchSignals_frame {fromDecode : Option (Nat × PCState)}
    (h : s.fetchSignals fromDecode = some s') :
    ∃ list fetch front, s' = { s with list, fetch, front } ∧
      list.globalSeqNum = s.list.globalSeqNum := by
  unfold fetchSignals at h
  split at h
  · obtain ⟨list, hlist, h⟩ := Option.bind_eq_some_iff.mp h
    cases h
    exact ⟨_, _, _, rfl, InstList.removeInstsNotInROB_globalSeqNum hlist⟩
  · split at h
    · split at h
      · obtain ⟨list, hlist, h⟩ := Option.bind_eq_some_iff.mp h
        cases h
        exact ⟨_, _, _, rfl, (InstList.removeInstsUntil_marked hlist).1.globalSeqNum⟩
      · cases h
    · split at h
      · cases h
        exact ⟨_, _, _, rfl, rfl⟩
      · split at h <;> cases h <;> exact ⟨_, _, _, rfl, rfl⟩

theorem fetchInst_frame {inst : DynInst} {nextPC : PCState} (h : s.fetchInst inst nextPC = some s') :
    ∃ list fetch front markedIn, s' = { s with list, fetch, front, markedIn } := by
  unfold fetchInst at h
  split at h <;> cases h
  exact ⟨_, _, _, _, rfl⟩

theorem fetchWait_frame (h : s.fetchWait = some s') :
    ∃ status, s' = { s with fetch := { s.fetch with status } } := by
  unfold fetchWait at h
  split at h <;> cases h
  exact ⟨_, rfl⟩

theorem fetchDiscard_frame (h : s.fetchDiscard i = some s') :
    ∃ list front, s' = { s with list, front } ∧
      list.globalSeqNum = s.list.globalSeqNum := by
  unfold fetchDiscard at h
  split at h
  · obtain ⟨list, hlist, h⟩ := Option.bind_eq_some_iff.mp h
    cases h
    exact ⟨_, _, rfl, (InstList.removeInst_marked hlist).1.globalSeqNum⟩
  · cases h

theorem renameInsts_frame {n : Nat} (h : s.renameInsts n = some s') :
    ∃ front, s' = { s with front } := by
  unfold renameInsts at h
  split at h <;> cases h
  exact ⟨_, rfl⟩

theorem iewSignals_frame (s : Pipeline) (full : Bool) :
    ∃ iew front, s.iewSignals full = { s with iew, front } := by
  unfold iewSignals
  split <;> exact ⟨_, _, rfl⟩

theorem dispatchNonSpec_frame (h : s.dispatchNonSpec i = some s') :
    ∃ insts, s' = { s with list := { s.list with insts } } := by
  unfold dispatchNonSpec at h
  split at h <;> cases h
  exact ⟨_, rfl⟩

/-- The registers that instruction `i` may write. -/
def Writes (s : Pipeline) (i : Nat) (log : List Event) : Prop :=
  log = s.log ∨ log = .setReg i (s.mark i) :: s.log

theorem executeInst_frame (s : Pipeline) (i : Nat) (result : ExecResult) :
    ∃ insts iew log, s.executeInst i result = { s with list := { s.list with insts }, iew, log } ∧
      s.Writes i log := by
  simp only [executeInst]
  have hpoisoned : ∃ insts, (if ((s.modifyInst i DynInst.setIssued).insts i).runahead &&
      (((s.modifyInst i DynInst.setIssued).insts i).isNonSpeculative ||
        ((s.modifyInst i DynInst.setIssued).insts i).isAtomic) then
      (s.modifyInst i DynInst.setIssued).modifyInst i DynInst.setPoisoned else
      s.modifyInst i DynInst.setIssued) = s.setInsts insts ∧
      (insts i).runahead = (s.insts i).runahead := by
    split
    · refine ⟨_, rfl, ?_⟩
      simp [modifyInst, setInsts, insts, DynInst.setIssued, DynInst.setPoisoned]
    · refine ⟨_, rfl, ?_⟩
      simp [insts, DynInst.setIssued]
  obtain ⟨insts, hinsts, hrunahead⟩ := hpoisoned
  have hmark : (s.setInsts insts).mark i = s.mark i := mark_congr hrunahead rfl
  rw [hinsts]
  split
  · exact ⟨_, _, _, rfl, .inl rfl⟩
  · cases result with
    | waits => exact ⟨_, _, _, rfl, .inl rfl⟩
    | unexecuted => exact ⟨_, _, _, rfl, .inl rfl⟩
    | done fault =>
      simp only
      split
      · exact ⟨_, _, _, rfl, .inl rfl⟩
      · refine ⟨_, _, _, rfl, .inr ?_⟩
        rw [← hmark]
        rfl

theorem redirect_frame (s : Pipeline) (i : Nat) (r : Redirect) :
    ∃ iew, s.redirect i r = { s with iew } := by
  cases r <;> exact ⟨_, rfl⟩

theorem execute_frame {result : ExecResult} {r : Redirect} (h : s.execute i result r = some s') :
    ∃ insts iew log, s' = { s with list := { s.list with insts }, iew, log } ∧ s.Writes i log := by
  unfold execute at h
  split at h
  · split at h
    · cases h
      exact ⟨_, _, _, rfl, .inl rfl⟩
    · cases h
      obtain ⟨insts, iew, log, hexec, hlog⟩ := executeInst_frame s i result
      obtain ⟨iew', hredirect⟩ := redirect_frame (s.executeInst i result) i r
      rw [hredirect, hexec]
      exact ⟨_, _, _, rfl, hlog⟩
  · cases h

theorem dataReturn_frame {poisoned mispredicted : Bool}
    (h : s.dataReturn i poisoned mispredicted = some s') :
    ∃ insts iew log, s' = { s with list := { s.list with insts }, iew, log } ∧ s.Writes i log := by
  unfold dataReturn at h
  split at h
  · split at h
    · cases h
      exact ⟨_, _, _, rfl, .inl rfl⟩
    · simp only at h
      have hpoisoned : ∃ insts, (if poisoned then s.modifyInst i DynInst.setPoisoned else s) =
          s.setInsts insts ∧ (s.setInsts insts).mark i = s.mark i := by
        split
        · refine ⟨_, rfl, mark_congr ?_ rfl⟩
          simp [setInsts, insts, DynInst.setPoisoned]
        · exact ⟨_, rfl, rfl⟩
      obtain ⟨insts, hinsts, hmark⟩ := hpoisoned
      rw [hinsts] at h
      have hwrite : ∃ log, (if ((s.setInsts insts).insts i).executed ||
          ((s.setInsts insts).insts i).fault then s.setInsts insts else
          (s.setInsts insts).writeRegs i) = { s.setInsts insts with log } ∧ s.Writes i log := by
        split
        · exact ⟨_, rfl, .inl rfl⟩
        · exact ⟨_, rfl, .inr (hmark ▸ rfl)⟩
      obtain ⟨log, heq, hlog⟩ := hwrite
      rw [heq] at h
      cases h
      split <;> exact ⟨_, _, _, rfl, hlog⟩
  · cases h

end BeforeCommit

section Commit

theorem startSquash_frame {n youngest : Nat} {pc : PCState}
    (h : s.startSquash cfg n youngest pc = some s') :
    ∃ insts rob squashTail, s' = { s with
      list := { s.list with insts }
      rob
      commit := { s.commit with
        status := .robSquashing
        youngestSeqNum := youngest
        toIEW := { s.commit.toIEW with
          squash := true, robSquashing := true, doneSeqNum := n, squashTail, pc } } } := by
  simp only [startSquash, Option.bind_eq_bind] at h
  obtain ⟨⟨rob, insts⟩, -, h⟩ := Option.bind_eq_some_iff.mp h
  cases h
  exact ⟨_, _, _, rfl⟩

theorem commitTick_frame {checkInterrupts getInterrupts : Bool}
    (h : s.commitTick cfg checkInterrupts getInterrupts = some s') :
    ∃ insts rob status interrupt toIEW log, s' = { s with
      list := { s.list with insts }
      rob, log
      commit := { s.commit with status, interrupt, toIEW } } ∧
      (log = s.log ∨ log = .propagateInterrupt :: s.log ∧ s.inRunahead = false ∧
        s.commit.archRestore = false ∧ s.commit.archRestorePrev = false) := by
  obtain ⟨t, ht, h⟩ := Option.bind_eq_some_iff.mp h
  have hsquashing : ∃ insts rob status toIEW, t = { s with
      list := { s.list with insts }
      rob, commit := { s.commit with status, toIEW } } := by
    unfold tickSquashing at ht
    split at ht
    · split at ht
      · cases ht
        exact ⟨_, _, _, _, rfl⟩
      · obtain ⟨⟨rob, insts⟩, -, ht⟩ := Option.bind_eq_some_iff.mp ht
        cases ht
        exact ⟨_, _, _, _, rfl⟩
    · cases ht
      exact ⟨_, _, _, _, rfl⟩
  obtain ⟨insts, rob, status, toIEW, rfl⟩ := hsquashing
  cases h
  split
  · unfold propagateInterrupt
    split
    · exact ⟨_, _, _, _, _, _, rfl, .inl rfl⟩
    · rename_i hnot
      simp only [not_or, Bool.not_eq_true] at hnot
      obtain ⟨-, -, -, -, -, hmode, hprev, hnow⟩ := hnot
      split
      · exact ⟨_, _, _, _, _, _, rfl, .inr ⟨rfl, hmode, hnow, hprev⟩⟩
      · exact ⟨_, _, _, _, _, _, rfl, .inl rfl⟩
  · exact ⟨_, _, _, _, _, _, rfl, .inl rfl⟩

/-- A squash of commit that is not the exit squash: for a trap or a thread context (`redirect`),
after an instruction, or none at all. -/
structure OtherSquash (cfg : PipelineParams) (s s' : Pipeline) : Prop where
  frame : ∃ insts rob status youngestSeqNum toIEW trapPending trapInFlight trapSquash tcSquash log,
    s' = { s with
      list := { s.list with insts }
      rob, log
      commit := { s.commit with
        status, youngestSeqNum, toIEW, trapPending, trapInFlight, trapSquash, tcSquash } }
  log : s'.log = s.log ∨ s'.log = .redirect :: s.log

/-- The squash of this tick is the exit squash. -/
def exits (s : Pipeline) : Bool :=
  !s.commit.trapSquash && !s.commit.tcSquash && decide (s.commit.status ≠ .squashAfterPending) &&
    s.commit.exitRunahead

theorem exitRunahead_of_exits (h : s.exits = true) : s.commit.exitRunahead = true := by
  simp only [exits, Bool.and_eq_true] at h
  exact h.2

theorem squash_of_exits (h : s.exits = true) : s.squash cfg = s.squashFromRunaheadExit cfg := by
  simp only [exits, Bool.and_eq_true, Bool.not_eq_true', decide_eq_true_eq] at h
  obtain ⟨⟨⟨htrap, htc⟩, hafter⟩, hexit⟩ := h
  simp [squash, htrap, htc, hafter, hexit]

theorem squashAll_frame (h : s.squashAll cfg = some s') :
    ∃ insts rob toIEW, s' = { s with
      list := { s.list with insts }
      rob
      commit := { s.commit with
        status := .robSquashing, youngestSeqNum := s.commit.lastCommitedSeqNum, toIEW } } := by
  obtain ⟨insts, rob, _, heq⟩ := startSquash_frame h
  exact ⟨insts, rob, _, heq⟩

theorem squash_cases (h : s.squash cfg = some s') :
    OtherSquash cfg s s' ∨ s.exits = true ∧ s.squashFromRunaheadExit cfg = some s' := by
  have hredirect : ∀ t, s.squashAll cfg = some t → ∀ trapPending trapInFlight trapSquash tcSquash,
      OtherSquash cfg s ({ t with commit := { t.commit with
        trapPending, trapInFlight, trapSquash, tcSquash } }.emit .redirect) := by
    intro t ht _ _ _ _
    obtain ⟨insts, rob, toIEW, rfl⟩ := squashAll_frame ht
    exact ⟨⟨_, _, _, _, _, _, _, _, _, _, rfl⟩, .inr rfl⟩
  unfold squash at h
  split at h
  · split at h
    · cases h
    · obtain ⟨t, ht, h⟩ := Option.bind_eq_some_iff.mp h
      cases h
      exact .inl (hredirect t ht false false false t.commit.tcSquash)
  · rename_i htrap
    split at h
    · split at h
      · cases h
      · obtain ⟨t, ht, h⟩ := Option.bind_eq_some_iff.mp h
        split at h
        · cases h
        · cases h
          exact .inl (hredirect t ht t.commit.trapPending t.commit.trapInFlight
            t.commit.trapSquash false)
    · rename_i htc
      split at h
      · split at h
        · obtain ⟨insts, rob, toIEW, rfl⟩ := squashAll_frame h
          exact .inl ⟨⟨_, _, _, _, _, _, _, _, _, _, rfl⟩, .inl rfl⟩
        · cases h
          exact .inl ⟨⟨_, _, _, _, _, _, _, _, _, _, rfl⟩, .inl rfl⟩
      · rename_i hafter
        split at h
        · rename_i hexit
          exact .inr ⟨by simp [exits, htrap, htc, hafter, hexit], h⟩
        · cases h
          exact .inl ⟨⟨_, _, _, _, _, _, _, _, _, _, rfl⟩, .inl rfl⟩

/-- The exit squash leaves runahead, at the stored PC and with the restore pending. -/
theorem squashFromRunaheadExit_frame (h : s.squashFromRunaheadExit cfg = some s') :
    ∃ lll insts rob squashTail, s.commit.runaheadCause = some lll ∧ s' = { s with
      list := { s.list with insts }
      rob
      inRunahead := false
      commit := { s.commit with
        exitRunahead := false
        runaheadExitable := false
        archRestore := true
        pc := s.commit.storedPC
        trapInFlight := false
        trapPending := false
        instsBetweenRunahead := 0
        status := .robSquashing
        youngestSeqNum := lll - 1
        toIEW := { s.commit.toIEW with
          squash := true
          robSquashing := true
          doneSeqNum := lll - 1
          squashTail
          pc := s.commit.storedPC } }
      log := .exitSquash s.runaheadPeriods s.commit.storedPC s.commit.canHandleInterrupts ::
        s.log } := by
  simp only [squashFromRunaheadExit, Option.bind_eq_bind] at h
  obtain ⟨lll, hlll, h⟩ := Option.bind_eq_some_iff.mp h
  obtain ⟨t, ht, h⟩ := Option.bind_eq_some_iff.mp h
  cases h
  obtain ⟨insts, rob, squashTail, rfl⟩ := startSquash_frame ht
  exact ⟨lll, insts, rob, squashTail, hlll, rfl⟩

theorem getInst_frame (h : s.getInst cfg i = some s') :
    ∃ rob youngestSeqNum log, s' = { s with
      rob, log, commit := { s.commit with youngestSeqNum } } ∧
      (log = s.log ∨ log = .insertInst i (s.mark i) :: s.log ∧ (s.insts i).squashed = false) := by
  unfold getInst at h
  split at h
  · cases h
    exact ⟨_, _, _, rfl, .inl rfl⟩
  · rename_i hlive
    split at h <;> cases h
    refine ⟨_, _, _, rfl, .inr ⟨rfl, ?_⟩⟩
    simpa using fun hs => hlive (.inl hs)

theorem getInsts_frame (h : s.getInsts cfg = some s') :
    ∃ rob youngestSeqNum front log, s' = { s with
      rob, front, log, commit := { s.commit with youngestSeqNum } } ∧
      ∃ new, log = new ++ s.log ∧ ∀ e ∈ new, ∃ i ∈ s.front.fromRename,
        e = .insertInst i (s.mark i) ∧ (s.insts i).squashed = false := by
  simp only [getInsts, Option.bind_eq_bind] at h
  obtain ⟨t, ht, h⟩ := Option.bind_eq_some_iff.mp h
  cases h
  have hfold : ∀ (l : List Nat) (u : Pipeline), l.foldlM (getInst cfg) u = some t →
      ∃ rob youngestSeqNum log, t = { u with
        rob, log, commit := { u.commit with youngestSeqNum } } ∧
        ∃ new, log = new ++ u.log ∧ ∀ e ∈ new, ∃ i ∈ l,
          e = .insertInst i (u.mark i) ∧ (u.insts i).squashed = false := by
    intro l
    induction l with
    | nil =>
      intro u hu
      cases hu
      exact ⟨_, _, _, rfl, [], rfl, by simp⟩
    | cons a l ih =>
      intro u hu
      rw [List.foldlM_cons] at hu
      obtain ⟨v, hv, hu⟩ := Option.bind_eq_some_iff.mp hu
      obtain ⟨_, _, _, rfl, hlog⟩ := getInst_frame hv
      obtain ⟨_, _, _, rfl, new, rfl, hnew⟩ := ih _ hu
      -- an insertion marks nothing
      have hrest : ∀ e ∈ new, ∃ i ∈ a :: l, e = .insertInst i (u.mark i) ∧
          (u.insts i).squashed = false := by
        intro e he
        obtain ⟨i, hi, heq⟩ := hnew e he
        exact ⟨i, List.mem_cons_of_mem _ hi, heq⟩
      obtain rfl | ⟨rfl, hlive⟩ := hlog
      · exact ⟨_, _, _, rfl, new, rfl, hrest⟩
      · refine ⟨_, _, _, rfl, new ++ [.insertInst a (u.mark a)], by simp, fun e he => ?_⟩
        rcases List.mem_append.mp he with he | he
        · exact hrest e he
        · exact ⟨a, by simp, List.mem_singleton.mp he, hlive⟩
  obtain ⟨_, _, _, rfl, hnew⟩ := hfold _ _ ht
  exact ⟨_, _, _, _, rfl, hnew⟩

theorem acceptSquash_frame (h : s.acceptSquash cfg = some s') :
    ∃ insts rob status youngestSeqNum toIEW log, s' = { s with
      list := { s.list with insts }
      rob, log, commit := { s.commit with status, youngestSeqNum, toIEW } } ∧
      (log = s.log ∨ ∃ sq, s.commit.fromIEW.squash = some sq ∧
        sq.squashedSeqNum ≤ s.commit.youngestSeqNum ∧
        log = .iewSquash sq.squashedSeqNum (s.mark sq.squashedSeqNum) :: s.log) := by
  unfold acceptSquash at h
  split at h
  · cases h
    exact ⟨_, _, _, _, _, _, rfl, .inl rfl⟩
  · rename_i sq hsq
    split at h
    · rename_i holder
      simp only [Option.bind_eq_bind] at h
      obtain ⟨t, ht, h⟩ := Option.bind_eq_some_iff.mp h
      cases h
      obtain ⟨_, _, _, rfl⟩ := startSquash_frame ht
      exact ⟨_, _, _, _, _, _, rfl, .inr ⟨sq, hsq, holder.2, rfl⟩⟩
    · cases h
      exact ⟨_, _, _, _, _, _, rfl, .inl rfl⟩

/-- An event of the step in which commit takes a squash from IEW and the instructions from
rename. -/
inductive Taken (s : Pipeline) : Event → Prop
  | squash {sq : IEWSquash} (h : s.commit.fromIEW.squash = some sq)
      (holder : sq.squashedSeqNum ≤ s.commit.youngestSeqNum) :
      Taken s (.iewSquash sq.squashedSeqNum (s.mark sq.squashedSeqNum))
  | insertInst {i : Nat} (hi : i ∈ s.front.fromRename) (hlive : (s.insts i).squashed = false) :
      Taken s (.insertInst i (s.mark i))

theorem iewSquash_frame (h : s.iewSquash cfg = some s') :
    ∃ phase insts rob status youngestSeqNum toIEW fromIEW front log, s' = { s with
      list := { s.list with insts }
      phase, rob, front, log
      commit := { s.commit with status, youngestSeqNum, toIEW, fromIEW } } ∧
      ∃ new, log = new ++ s.log ∧ ∀ e ∈ new, s.Taken e := by
  simp only [iewSquash, Option.bind_eq_bind] at h
  obtain ⟨t, ht, hrest⟩ := Option.bind_eq_some_iff.mp h
  -- if a squash is accepted, the ROB squashes and takes no instruction
  have hsquash : t.commit.status = .robSquashing ∨ t = s := by
    unfold acceptSquash at ht
    split at ht
    · exact .inr (Option.some.inj ht).symm
    · split at ht
      · simp only [Option.bind_eq_bind] at ht
        obtain ⟨u, hu, ht⟩ := Option.bind_eq_some_iff.mp ht
        cases ht
        obtain ⟨_, _, _, rfl⟩ := startSquash_frame hu
        exact .inl rfl
      · exact .inr (Option.some.inj ht).symm
  obtain ⟨_, _, _, _, _, _, heq, hlog⟩ := acceptSquash_frame ht
  split at hrest
  · subst heq
    cases hrest
    refine ⟨_, _, _, _, _, _, _, _, _, rfl, ?_⟩
    obtain rfl | ⟨sq, hsq, holder, rfl⟩ := hlog
    · exact ⟨[], rfl, by simp⟩
    · exact ⟨[_], rfl, by simpa using .squash hsq holder⟩
  · rename_i hnot
    obtain hstatus | rfl := hsquash
    · exact absurd hstatus hnot
    · obtain ⟨u, hu, hend⟩ := Option.bind_eq_some_iff.mp hrest
      cases hend
      obtain ⟨_, _, _, _, rfl, new, rfl, hnew⟩ := getInsts_frame hu
      refine ⟨_, _, _, _, _, _, _, _, _, rfl, new, rfl, fun e he => ?_⟩
      obtain ⟨i, hi, rfl, hlive⟩ := hnew e he
      exact .insertInst hi hlive

end Commit

section CommitInsts

/-- Commit's loop has looked for an interrupt. -/
def afterInterrupt (s : Pipeline) (e : CommitEnv) : Pipeline :=
  if s.commit.interrupt then s.handleInterrupt e.checkInterrupts e.interruptPC else s

/-- Commit looks at a head that can commit. -/
def atHead (s : Pipeline) (e : CommitEnv) (head : Nat) : Pipeline :=
  { s.afterInterrupt e with commit := { (s.afterInterrupt e).commit with
    pc := (s.insts head).pcState } }

theorem afterInterrupt_frame (s : Pipeline) (e : CommitEnv) :
    ∃ interrupt avoidQuiesceLiveLock toIEW pc status trapInFlight trapPending trapEvents log,
      s.afterInterrupt e = { s with
        trapEvents, log
        commit := { s.commit with
          interrupt, avoidQuiesceLiveLock, toIEW, pc, status, trapInFlight, trapPending } } ∧
      (log = s.log ∧ pc = s.commit.pc ∨
        log = .processInterrupts pc :: s.log ∧ status = .trapPending ∧
          s.commit.interrupt = true ∧ s.commit.canHandleInterrupts = true ∧
          s.inRunahead = false ∧ s.commit.archRestore = false ∧
          s.commit.archRestorePrev = false ∧ s.list.instList = []) := by
  unfold afterInterrupt
  split
  · rename_i hinterrupt
    unfold handleInterrupt
    split
    · exact ⟨_, _, _, _, _, _, _, _, _, rfl, .inl ⟨rfl, rfl⟩⟩
    · simp only
      split
      · rename_i hhazard
        simp only [Bool.and_eq_true, Bool.not_eq_true', Bool.or_eq_false_iff,
          List.isEmpty_iff] at hhazard
        obtain ⟨⟨hcan, ⟨hmode, hrestore⟩, hprev⟩, hempty⟩ := hhazard
        exact ⟨_, _, _, _, _, _, _, _, _, rfl, .inr ⟨rfl, rfl, hinterrupt, hcan, hmode, hrestore,
          hprev, hempty⟩⟩
      · exact ⟨_, _, _, _, _, _, _, _, _, rfl, .inl ⟨rfl, rfl⟩⟩
  · exact ⟨_, _, _, _, _, _, _, _, _, rfl, .inl ⟨rfl, rfl⟩⟩

theorem afterInterrupt_insts (s : Pipeline) (e : CommitEnv) :
    (s.afterInterrupt e).insts = s.insts := by
  obtain ⟨_, _, _, _, _, _, _, _, _, heq, -⟩ := afterInterrupt_frame s e
  rw [heq]
  rfl

theorem afterInterrupt_phase (s : Pipeline) (e : CommitEnv) :
    (s.afterInterrupt e).phase = s.phase := by
  obtain ⟨_, _, _, _, _, _, _, _, _, heq, -⟩ := afterInterrupt_frame s e
  rw [heq]

/-- Commit's loop goes on in this round, and the head commits, or pseudo-retires. -/
structure Commits (cfg : PipelineParams) (s : Pipeline) (n head : Nat) : Prop where
  width : n < cfg.commitWidth
  status : s.commit.status = .running ∨ s.commit.status = .idle ∨
    s.commit.status = .fetchTrapPending
  atHead : ∃ tail, s.rob.instList = head :: tail
  ready : (s.insts head).canCommit = true
  live : (s.insts head).squashed = false
  executed : (s.insts head).executed = true
  fault : (s.insts head).fault = false

/-- What a round of commit's loop can come to. -/
inductive Round (cfg : PipelineParams) (s : Pipeline) (n : Nat) (e : CommitEnv) : Pipeline → Prop
  | full (h : cfg.commitWidth ≤ n) : Round cfg s n e { s with phase := .finish }
  | nothing : Round cfg s n e { s.afterInterrupt e with phase := .finish }
  | notReady {head : Nat} {tail : List Nat} {u : Pipeline} (hhead : s.rob.instList = head :: tail)
      (hready : (s.insts head).canCommit = false)
      (h : (s.afterInterrupt e).lllAtHead cfg head e = some u) :
      Round cfg s n e { u with phase := .finish }
  | squashed {head : Nat} {tail : List Nat} (hhead : s.rob.instList = head :: tail)
      (hsquashed : (s.insts head).squashed = true) :
      Round cfg s n e ((s.afterInterrupt e).retireHead head)
  | wait {head : Nat} {tail : List Nat} (hhead : s.rob.instList = head :: tail)
      (hlive : (s.insts head).squashed = false) :
      Round cfg s n e { s.atHead e head with phase := .finish }
  | unexecuted {head : Nat} {tail : List Nat} (hhead : s.rob.instList = head :: tail)
      (hlive : (s.insts head).squashed = false) :
      Round cfg s n e
        { (s.atHead e head).modifyInst head DynInst.clearCanCommit with phase := .finish }
  | fault {head : Nat} {tail : List Nat} (hhead : s.rob.instList = head :: tail)
      (hready : (s.insts head).canCommit = true) (hlive : (s.insts head).squashed = false)
      (hexecuted : (s.insts head).executed = true) (hfault : (s.insts head).fault = true) :
      Round cfg s n e { (s.atHead e head).commitFault head e with phase := .finish }
  | success {head : Nat} {u : Pipeline} {skipped : Bool} (hcommits : s.Commits cfg n head)
      (h : (s.atHead e head).commitSuccess head e = some (u, skipped)) :
      Round cfg s n e { u with phase := if skipped then .finish else .commitInsts (n + 1) }

theorem commitInst_cases {n : Nat} {e : CommitEnv} (h : s.commitInst cfg n e = some s') :
    Round cfg s n e s' := by
  have hinsts := afterInterrupt_insts s e
  have hrob : (s.afterInterrupt e).rob = s.rob := by
    obtain ⟨_, _, _, _, _, _, _, _, _, heq, -⟩ := afterInterrupt_frame s e
    rw [heq]
  unfold commitInst at h
  split at h
  · rename_i hfull
    cases h
    exact .full hfull
  · simp only at h
    generalize ht : (if s.commit.interrupt then
      s.handleInterrupt e.checkInterrupts e.interruptPC else s) = t at h
    obtain rfl : s.afterInterrupt e = t := ht
    rw [hinsts] at h
    split at h
    · cases h
      exact .nothing
    · rename_i hwidth _ head tail hhead
      have hboth : s.rob.instList = head :: tail ∧ (s.commit.status = .running ∨
          s.commit.status = .idle ∨ s.commit.status = .fetchTrapPending) := by
        split at hhead
        · rename_i hstatus
          rw [hrob] at hhead
          exact ⟨hhead, hstatus⟩
        · cases hhead
      obtain ⟨hhead, hstatus⟩ := hboth
      split at h
      · rename_i hready
        obtain ⟨u, hu, h⟩ := Option.bind_eq_some_iff.mp h
        cases h
        exact .notReady hhead (by simpa using hready) hu
      · rename_i hready
        have hready : (s.insts head).canCommit = true := by simpa using hready
        split at h
        · rename_i hsquashed
          cases h
          exact .squashed hhead hsquashed
        · rename_i hlive
          have hlive : (s.insts head).squashed = false := by simpa using hlive
          split at h
          · split at h
            · cases h
              exact .wait hhead hlive
            · cases h
              exact .unexecuted hhead hlive
          · rename_i hexecuted
            have hexecuted : (s.insts head).executed = true := by simpa using hexecuted
            split at h
            · rename_i hfault
              split at h
              · cases h
                exact .wait hhead hlive
              · cases h
                exact .fault hhead hready hlive hexecuted hfault
            · rename_i hfault
              have hfault : (s.insts head).fault = false := by simpa using hfault
              obtain ⟨⟨u, skipped⟩, hu, h⟩ := Option.bind_eq_some_iff.mp h
              cases h
              exact .success ⟨Nat.lt_of_not_le hwidth, hstatus, ⟨tail, hhead⟩, hready, hlive,
                hexecuted, hfault⟩ hu

/-- The head commits in a round in which it can. -/
theorem Commits.success {n head : Nat} {e : CommitEnv} (hcommits : s.Commits cfg n head)
    (h : s.commitInst cfg n e = some s') : ∃ u skipped,
      (s.atHead e head).commitSuccess head e = some (u, skipped) ∧
      s' = { u with phase := if skipped then .finish else .commitInsts (n + 1) } := by
  have hframe := afterInterrupt_frame s e
  obtain ⟨tail, hhead⟩ := hcommits.atHead
  have hinsts : (s.afterInterrupt e).insts = s.insts := by
    obtain ⟨_, _, _, _, _, _, _, _, _, heq, -⟩ := hframe
    rw [heq]
    rfl
  have hrob : (s.afterInterrupt e).rob.instList = head :: tail := by
    obtain ⟨_, _, _, _, _, _, _, _, _, heq, -⟩ := hframe
    rw [heq, ← hhead]
  unfold commitInst at h
  rw [if_neg (Nat.not_le_of_lt hcommits.width)] at h
  simp only at h
  generalize ht : (if s.commit.interrupt then
    s.handleInterrupt e.checkInterrupts e.interruptPC else s) = t at h
  obtain rfl : s.afterInterrupt e = t := ht
  simp only [if_pos hcommits.status, hrob, hinsts, hcommits.ready, hcommits.live,
    hcommits.executed, hcommits.fault, Bool.not_true, Bool.false_eq_true, if_false] at h
  obtain ⟨⟨u, skipped⟩, hu, h⟩ := Option.bind_eq_some_iff.mp h
  cases h
  exact ⟨u, skipped, hu, rfl⟩

end CommitInsts

section Step

variable {l : Label}

/-- A step outside commit: it touches none of commit's state but `trapSquash`, fetches nothing and
at most writes a register. -/
structure Outside (s s' : Pipeline) : Prop where
  frame : ∃ phase list fetch front iew trapEvents trapSquash log, s' = { s with
    phase, list, fetch, front, iew, trapEvents, log
    commit := { s.commit with trapSquash } }
  next : s'.list.globalSeqNum = s.list.globalSeqNum
  log : s'.log = s.log ∨ ∃ i, s'.log = .setReg i (s.mark i) :: s.log

/-- What a step of the pipeline comes to. -/
inductive Effect (cfg : PipelineParams) (s : Pipeline) : Label → Pipeline → Prop
  | outside {l : Label} {s' : Pipeline} (h : Outside s s') : Effect cfg s l s'
  | fetchInst {inst : DynInst} {nextPC : PCState} {s' : Pipeline} (hphase : s.phase = .fetch)
      (h : s.fetchInst inst nextPC = some s') : Effect cfg s (.fetchInst inst nextPC) s'
  | signal {s' : Pipeline} (h : s.signalExitRunahead cfg = some s') :
      Effect cfg s .signalExitRunahead s'
  | deadline {k : Nat} {s' : Pipeline} (h : s.deadline k = some s') :
      Effect cfg s (.deadline k) s'
  | drain : Effect cfg s .drain s.drain
  | drainResume : Effect cfg s .drainResume s.drainResume
  | tcWrite {pc : Option PCState} {tcSquash : Bool} : Effect cfg s (.tcWrite pc) { s with
      commit := { s.commit with pc := pc.getD s.commit.pc, tcSquash }
      log := pc.toList.map .tcWrite ++ s.log }
  | commitTick {checkInterrupts getInterrupts : Bool} {t : Pipeline}
      (h : s.commitTick cfg checkInterrupts getInterrupts = some t) :
      Effect cfg s (.commitTick checkInterrupts getInterrupts) { t with phase := .squash }
  | squash {t : Pipeline} (h : OtherSquash cfg s t) :
      Effect cfg s .squash { t with phase := .iewSquash }
  | exit {t : Pipeline} (hexits : s.exits = true) (h : s.squashFromRunaheadExit cfg = some t) :
      Effect cfg s .squash { t with phase := .iewSquash }
  | iewSquash {s' : Pipeline} (h : s.iewSquash cfg = some s') : Effect cfg s .iewSquash s'
  | round {n : Nat} {e : CommitEnv} {s' : Pipeline} (hphase : s.phase = .commitInsts n)
      (h : Round cfg s n e s') : Effect cfg s (.commitInst e) s'
  | finish (hphase : s.phase = .finish) : Effect cfg s .finish (s.finish cfg)

theorem step_effect (h : s.step cfg l = some s') : Effect cfg s l s' := by
  cases l with
  | signalExitRunahead =>
    simp only [step] at h
    split at h
    · exact .signal h
    · cases h
  | deadline k =>
    simp only [step] at h
    split at h
    · exact .deadline h
    · cases h
  | processTrapEvent =>
    simp only [step] at h
    split at h
    · obtain ⟨_, _, rfl⟩ := processTrapEvent_frame h
      exact .outside ⟨⟨_, _, _, _, _, _, _, _, rfl⟩, rfl, .inl rfl⟩
    · cases h
  | drain =>
    simp only [step] at h
    split at h <;> cases h
    exact .drain
  | drainResume =>
    simp only [step] at h
    split at h <;> cases h
    exact .drainResume
  | tcWrite pc =>
    simp only [step] at h
    split at h
    · obtain ⟨_, rfl⟩ := tcWrite_frame h
      exact .tcWrite
    · cases h
  | icacheResponse =>
    simp only [step] at h
    split at h
    · obtain ⟨_, rfl⟩ := icacheResponse_frame h
      exact .outside ⟨⟨_, _, _, _, _, _, _, _, rfl⟩, rfl, .inl rfl⟩
    · cases h
  | dataReturn i poisoned mispredicted =>
    simp only [step] at h
    split at h
    · obtain ⟨_, _, _, rfl, hlog⟩ := dataReturn_frame h
      exact .outside ⟨⟨_, _, _, _, _, _, _, _, rfl⟩, rfl, hlog.imp_right fun h => ⟨i, h⟩⟩
    · cases h
  | fetchSignals fromDecode =>
    simp only [step] at h
    split at h
    · obtain ⟨t, ht, h⟩ := Option.bind_eq_some_iff.mp h
      obtain ⟨_, _, _, rfl, hnext⟩ := fetchSignals_frame ht
      cases h
      exact .outside ⟨⟨_, _, _, _, _, _, _, _, rfl⟩, hnext, .inl rfl⟩
    · cases h
  | fetchInst inst nextPC =>
    simp only [step] at h
    split at h
    · rename_i hphase
      exact .fetchInst hphase h
    · cases h
  | fetchWait =>
    simp only [step] at h
    split at h
    · obtain ⟨_, rfl⟩ := fetchWait_frame h
      exact .outside ⟨⟨_, _, _, _, _, _, _, _, rfl⟩, rfl, .inl rfl⟩
    · cases h
  | fetchDiscard i =>
    simp only [step] at h
    split at h
    · obtain ⟨_, _, rfl, hnext⟩ := fetchDiscard_frame h
      exact .outside ⟨⟨_, _, _, _, _, _, _, _, rfl⟩, hnext, .inl rfl⟩
    · cases h
  | renameInsts n =>
    simp only [step] at h
    split at h
    · obtain ⟨t, ht, h⟩ := Option.bind_eq_some_iff.mp h
      obtain ⟨_, rfl⟩ := renameInsts_frame ht
      cases h
      exact .outside ⟨⟨_, _, _, _, _, _, _, _, rfl⟩, rfl, .inl rfl⟩
    · cases h
  | iewSignals full =>
    simp only [step] at h
    split at h
    · obtain ⟨_, _, ht⟩ := iewSignals_frame s full
      rw [ht] at h
      cases h
      exact .outside ⟨⟨_, _, _, _, _, _, _, _, rfl⟩, rfl, .inl rfl⟩
    · cases h
  | dispatchNonSpec i =>
    simp only [step] at h
    split at h
    · obtain ⟨_, rfl⟩ := dispatchNonSpec_frame h
      exact .outside ⟨⟨_, _, _, _, _, _, _, _, rfl⟩, rfl, .inl rfl⟩
    · cases h
  | execute i result r =>
    simp only [step] at h
    split at h
    · obtain ⟨_, _, _, rfl, hlog⟩ := execute_frame h
      exact .outside ⟨⟨_, _, _, _, _, _, _, _, rfl⟩, rfl, hlog.imp_right fun h => ⟨i, h⟩⟩
    · cases h
  | writebackInsts n =>
    simp only [step] at h
    split at h <;> cases h
    exact .outside ⟨⟨_, _, _, _, _, _, _, _, rfl⟩, rfl, .inl rfl⟩
  | commitTick checkInterrupts getInterrupts =>
    simp only [step] at h
    split at h
    · obtain ⟨t, ht, h⟩ := Option.bind_eq_some_iff.mp h
      cases h
      exact .commitTick ht
    · cases h
  | squash =>
    simp only [step] at h
    split at h
    · obtain ⟨t, ht, h⟩ := Option.bind_eq_some_iff.mp h
      cases h
      rcases squash_cases ht with hother | ⟨hexits, hsquash⟩
      · exact .squash hother
      · exact .exit hexits hsquash
    · cases h
  | iewSquash =>
    simp only [step] at h
    split at h
    · exact .iewSquash h
    · cases h
  | commitInst e =>
    simp only [step] at h
    split at h
    · rename_i hphase
      exact .round hphase (commitInst_cases h)
    · cases h
  | finish =>
    simp only [step] at h
    split at h
    · rename_i hphase
      cases h
      exact .finish hphase
    · cases h

end Step

end Pipeline
end Runahead
end Gem5
