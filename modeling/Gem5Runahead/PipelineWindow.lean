import Gem5Runahead.CommitStage
import Gem5Runahead.InstWindow

/-!
# PipelineWindow

The pipeline refines the window of instructions in flight: what a step of the pipeline does to
its window is a sequence of moves of the window's machine. So the window's invariant holds in
every reachable state of the pipeline.

* `Sim` — the window of one state can move to that of another.
* `step_sim` — the step lemma, one case for each label.
* `reaches_core` — the invariant, for every run.
-/

namespace Gem5
namespace Runahead
namespace Pipeline

open Relation (ReflTransGen)

def window (s : Pipeline) : Window where
  phase := s.phase
  status := s.commit.status
  rob := s.rob
  front := s.front.insts
  list := s.list
  markedIn := s.markedIn
  inRunahead := s.inRunahead
  period := s.runaheadPeriods
  cause := s.runaheadCause
  commitCause := s.commit.runaheadCause
  exitRunahead := s.commit.exitRunahead
  exitable := s.commit.runaheadExitable
  youngest := s.commit.youngestSeqNum
  lastCommited := s.commit.lastCommitedSeqNum
  squashSent := s.commit.toIEW.squash
  squashSeen := s.fetch.fromCommit.squash

/-- The window of `s` moves to that of `s'`. -/
def Sim (cfg : PipelineParams) (s s' : Pipeline) : Prop :=
  ReflTransGen (Window.Step cfg.squashWidth) s.window s'.window

variable {cfg : PipelineParams} {s s' s'' : Pipeline} {i : Nat}

namespace Sim

theorem of_eq (h : s'.window = s.window) : Sim cfg s s' := by
  rw [Sim, h]

theorem single (h : Window.Step cfg.squashWidth s.window s'.window) : Sim cfg s s' :=
  ReflTransGen.single h

theorem trans (h : Sim cfg s s') (h' : Sim cfg s' s'') : Sim cfg s s'' :=
  ReflTransGen.trans h h'

theorem modifyInst {f : DynInst → DynInst} (hf : ∀ inst, DynInst.Steady inst (f inst)) (i : Nat) :
    Sim cfg s (s.modifyInst i f) := by
  refine .single (@Window.Step.insts _ _ (s.insts.modify i f) fun j => ?_)
  by_cases hj : j = i
  · rw [hj, Insts.modify_self]
    exact hf _
  · rw [Insts.modify_of_ne hj]
    exact .refl _

end Sim

theorem steady_setIssued (inst : DynInst) : inst.Steady inst.setIssued := ⟨rfl, id, id, id⟩
theorem steady_setCanCommit (inst : DynInst) : inst.Steady inst.setCanCommit := ⟨rfl, id, id, id⟩
theorem steady_clearCanCommit (inst : DynInst) : inst.Steady inst.clearCanCommit :=
  ⟨rfl, id, id, id⟩
theorem steady_setCompleted (inst : DynInst) : inst.Steady inst.setCompleted := ⟨rfl, id, id, id⟩
theorem steady_setExecuted (inst : DynInst) : inst.Steady inst.setExecuted :=
  ⟨rfl, id, fun _ => rfl, id⟩
theorem steady_setPoisoned (inst : DynInst) : inst.Steady inst.setPoisoned :=
  ⟨rfl, id, id, fun _ => rfl⟩
theorem steady_setSquashed (inst : DynInst) : inst.Steady inst.setSquashed :=
  ⟨rfl, fun _ => rfl, id, id⟩

section FrontEnd

theorem FrontEnd.queued_sublist {f : FrontEnd} {queued : List Nat} (h : queued.Sublist f.queued) :
    { f with queued }.insts.Sublist f.insts :=
  ((List.Sublist.refl (f.fromRename ++ f.toROB)).append h).append (List.Sublist.refl f.toDecode)

theorem FrontEnd.mem_insts_of_queued {f : FrontEnd} (h : i ∈ f.queued) : i ∈ f.insts := by
  simp [FrontEnd.insts, h]

theorem Sim.tick {t : Pipeline} (hphase : s.phase = .idle)
    (hseen : s.fetch.fromCommit.squash = false) (ht : t.window = s.window) :
    Sim cfg s { t with phase := .fetch } := by
  refine .single ?_
  have hwindow : { t with phase := .fetch }.window = { s.window with phase := .fetch } := by
    rw [← ht]
    rfl
  rw [hwindow]
  exact .tick hphase hseen

theorem fetchSignals_sim {fromDecode : Option (Nat × PCState)} (hphase : s.phase = .idle)
    (h : s.fetchSignals fromDecode = some s') : Sim cfg s { s' with phase := .fetch } := by
  unfold fetchSignals at h
  split at h
  · obtain ⟨list, hlist, h⟩ := Option.bind_eq_some_iff.mp h
    cases h
    have hfront := FrontEnd.queued_sublist (List.nil_sublist s.front.queued)
    exact .tail (.single (.fetchSquash hphase hlist)) (.front hfront)
  · rename_i hseen
    have hseen : s.fetch.fromCommit.squash = false := by simpa using hseen
    split at h
    · rename_i n pc
      split at h
      · rename_i hn
        obtain ⟨list, hlist, h⟩ := Option.bind_eq_some_iff.mp h
        cases h
        have hmem : n ∈ s.window.front := FrontEnd.mem_insts_of_queued hn.2.1
        have hfront := FrontEnd.queued_sublist
          (List.filter_sublist (p := (· ≤ n)) (l := s.front.queued))
        exact .tail (.tail (.single (.decodeSquash hmem hlist)) (.front hfront))
          (.tick hphase hseen)
      · cases h
    · split at h
      · cases h
        exact .tick hphase hseen rfl
      · split at h <;> cases h
        · exact .tick hphase hseen rfl
        · exact .tick hphase hseen rfl

theorem fetchInst_sim {inst : DynInst} {nextPC : PCState} (hphase : s.phase = .fetch)
    (h : s.fetchInst inst nextPC = some s') : Sim cfg s s' := by
  unfold fetchInst at h
  split at h
  · cases h
    have hstep := @Window.Step.fetchInst cfg.squashWidth s.window
      (s.buildInst inst) hphase rfl rfl rfl rfl rfl
    refine .single ?_
    have hfront : s.front.fromRename ++ s.front.toROB ++ s.front.queued ++
        (s.front.toDecode ++ [s.list.globalSeqNum]) =
        s.front.insts ++ [s.list.globalSeqNum] := by
      simp [FrontEnd.insts]
    simp only [window, FrontEnd.insts, hfront]
    exact hstep
  · cases h

theorem fetchDiscard_sim (h : s.fetchDiscard i = some s') : Sim cfg s s' := by
  unfold fetchDiscard at h
  split at h
  · rename_i hi
    obtain ⟨list, hlist, h⟩ := Option.bind_eq_some_iff.mp h
    cases h
    have hmem : i ∈ s.window.front := by
      rw [Bool.and_eq_true, decide_eq_true_eq] at hi
      exact FrontEnd.mem_insts_of_queued hi.2
    have hfront := FrontEnd.queued_sublist
      (List.filter_sublist (p := (· ≠ i)) (l := s.front.queued))
    exact .tail (.single (.discard hmem hlist)) (.front hfront)
  · cases h

theorem renameInsts_sim {n : Nat} (hphase : s.phase = .fetch) (h : s.renameInsts n = some s') :
    Sim cfg s { s' with phase := .iewSignals } := by
  unfold renameInsts at h
  split at h
  · cases h
  · cases h
    refine .tail (.single (.front ?_)) (.phase ?_ ?_ rfl Phase.noConfusion)
    · have hqueued : (((s.front.queued.take n).filter fun i => !(s.insts i).squashed) ++
          s.front.queued.drop n).Sublist s.front.queued := by
        conv_rhs => rw [← List.take_append_drop n s.front.queued]
        exact List.filter_sublist.append_right _
      simp only [window, FrontEnd.insts, List.append_assoc]
      refine (List.Sublist.refl _).append ?_
      rw [← List.append_assoc]
      exact (hqueued.append_right _).trans (List.sublist_append_right _ _)
    · exact congrArg Window.early hphase
    · exact fun hidle => Phase.noConfusion (hphase.symm.trans hidle)

end FrontEnd

section IEW

theorem Sim.phase {t : Pipeline} {p : Phase} (ht : t.window = s.window)
    (hphase : Window.early s.phase = true) (hidle : s.phase ≠ .idle)
    (hp : Window.early p = true) (hp' : p ≠ .idle) : Sim cfg s { t with phase := p } := by
  refine .single ?_
  have hwindow : { t with phase := p }.window = { s.window with phase := p } := by
    rw [← ht]
    rfl
  rw [hwindow]
  exact .phase hphase hidle hp hp'

theorem iewSignals_window (s : Pipeline) (full : Bool) : (s.iewSignals full).window = s.window := by
  unfold iewSignals
  split <;> rfl

theorem dispatchNonSpec_sim (h : s.dispatchNonSpec i = some s') : Sim cfg s s' := by
  unfold dispatchNonSpec at h
  split at h
  · cases h
    exact .modifyInst steady_setCanCommit i
  · cases h

theorem redirect_window (s : Pipeline) (i : Nat) (r : Redirect) :
    (s.redirect i r).window = s.window := by
  cases r <;> rfl

theorem executeInst_sim (s : Pipeline) (i : Nat) (result : ExecResult) :
    Sim cfg s (s.executeInst i result) := by
  simp only [executeInst]
  have hissued : Sim cfg s (s.modifyInst i DynInst.setIssued) := .modifyInst steady_setIssued i
  generalize s.modifyInst i DynInst.setIssued = t at hissued ⊢
  have hpoisoned : Sim cfg s (if (t.insts i).runahead &&
      ((t.insts i).isNonSpeculative || (t.insts i).isAtomic) then
      t.modifyInst i DynInst.setPoisoned else t) := by
    split
    · exact hissued.trans (.modifyInst steady_setPoisoned i)
    · exact hissued
  generalize (if (t.insts i).runahead &&
      ((t.insts i).isNonSpeculative || (t.insts i).isAtomic) then
      t.modifyInst i DynInst.setPoisoned else t) = u at hpoisoned ⊢
  split
  · exact (hpoisoned.trans (.modifyInst steady_setExecuted i)).trans (.of_eq rfl)
  · cases result with
    | waits => exact hpoisoned
    | unexecuted => exact hpoisoned.trans (.of_eq rfl)
    | done fault =>
      have hwrite : Sim cfg s (if (u.insts i).fault || fault then u else u.writeRegs i) := by
        split
        · exact hpoisoned
        · exact hpoisoned.trans (.of_eq rfl)
      refine (hwrite.trans (.modifyInst (fun inst => ?_) i)).trans (.of_eq rfl)
      exact ⟨rfl, id, fun _ => rfl, id⟩

theorem execute_sim {result : ExecResult} {r : Redirect} (h : s.execute i result r = some s') :
    Sim cfg s s' := by
  unfold execute at h
  split at h
  · split at h
    · cases h
      exact .modifyInst (fun inst => ((steady_setSquashed inst).trans
        (steady_setExecuted _)).trans (steady_setCanCommit _)) i
    · cases h
      exact (executeInst_sim s i result).trans (.of_eq (redirect_window _ i r))
  · cases h

theorem dataReturn_sim {poisoned mispredicted : Bool}
    (h : s.dataReturn i poisoned mispredicted = some s') : Sim cfg s s' := by
  unfold dataReturn at h
  split at h
  · split at h
    · cases h
      exact .of_eq rfl
    · simp only at h
      have hpoisoned : Sim cfg s (if poisoned then s.modifyInst i DynInst.setPoisoned else s) := by
        split
        · exact .modifyInst steady_setPoisoned i
        · exact .of_eq rfl
      generalize (if poisoned then s.modifyInst i DynInst.setPoisoned else s) = t at h hpoisoned
      have hwrite : Sim cfg s
          (if (t.insts i).executed || (t.insts i).fault then t else t.writeRegs i) := by
        split
        · exact hpoisoned
        · exact hpoisoned.trans (.of_eq rfl)
      generalize (if (t.insts i).executed || (t.insts i).fault then t else t.writeRegs i) = u
        at h hwrite
      have hdone : Sim cfg s
          ((u.modifyInst i DynInst.setExecuted).instToCommit i) :=
        (hwrite.trans (.modifyInst steady_setExecuted i)).trans (.of_eq rfl)
      cases h
      split
      · exact hdone.trans (.of_eq rfl)
      · exact hdone
  · cases h

end IEW

section Squash

theorem startSquash_window {n youngest : Nat} {pc : PCState}
    (h : s.startSquash cfg n youngest pc = some s') :
    s.window.startSquash cfg.squashWidth n youngest = some s'.window := by
  simp only [startSquash, Option.bind_eq_bind] at h
  obtain ⟨⟨rob, insts⟩, hrob, h⟩ := Option.bind_eq_some_iff.mp h
  cases h
  have hrob' : s.window.rob.squash cfg.squashWidth n s.window.insts = some (rob, insts) := hrob
  rw [Window.startSquash, hrob']
  rfl

theorem squashAll_window (h : s.squashAll cfg = some s') :
    s.window.startSquash cfg.squashWidth s.window.squashedInst s.window.lastCommited =
      some s'.window := startSquash_window h

/-- Commit handles the squash that is due. -/
theorem squash_sim (hphase : s.phase = .squash) (h : s.squash cfg = some s') :
    Sim cfg s { s' with phase := .iewSquash } := by
  have hall : ∀ t u : Pipeline, s.squashAll cfg = some t → u.window = t.window →
      Sim cfg s { u with phase := .iewSquash } := by
    intro t u ht hu
    have hstep := Window.Step.squashAll (v := s.window) hphase (squashAll_window ht)
    rw [← hu] at hstep
    exact .single hstep
  have hnone : ∀ status, (status = s.commit.status ∨
      s.commit.status = .squashAfterPending ∧ status = .running) →
      Sim cfg s { s with commit := { s.commit with status }, phase := .iewSquash } := by
    intro status hstatus
    exact .single (.noSquash (v := s.window) hphase hstatus)
  unfold squash at h
  split at h
  · split at h
    · cases h
    · obtain ⟨t, ht, h⟩ := Option.bind_eq_some_iff.mp h
      cases h
      exact hall t _ ht rfl
  · split at h
    · split at h
      · cases h
      · obtain ⟨t, ht, h⟩ := Option.bind_eq_some_iff.mp h
        split at h
        · cases h
        · cases h
          exact hall t _ ht rfl
    · split at h
      · rename_i hstatus
        split at h
        · exact hall s' s' h rfl
        · cases h
          exact hnone .running (.inr ⟨hstatus, rfl⟩)
      · split at h
        · rename_i hexit
          simp only [squashFromRunaheadExit, Option.bind_eq_bind] at h
          obtain ⟨lll, hlll, h⟩ := Option.bind_eq_some_iff.mp h
          obtain ⟨t, ht, h⟩ := Option.bind_eq_some_iff.mp h
          cases h
          exact .single (.runaheadExit (v := s.window) hphase hexit hlll (startSquash_window ht))
        · cases h
          exact hnone s.commit.status (.inl rfl)

theorem tickSquashing_sim (hphase : s.phase = .commit) (h : s.tickSquashing cfg = some s') :
    Sim cfg s s' ∧ s'.phase = .commit := by
  unfold tickSquashing at h
  split at h
  · split at h
    · rename_i hdone
      cases h
      exact ⟨.single (.walked (v := s.window) hphase hdone), hphase⟩
    · rename_i hdone
      obtain ⟨⟨rob, insts⟩, hrob, h⟩ := Option.bind_eq_some_iff.mp h
      cases h
      have hdone' : s.window.rob.doneSquashing = false := by simpa [window] using hdone
      exact ⟨.single (.walk (v := s.window) hdone' hrob), hphase⟩
  · cases h
    exact ⟨.of_eq rfl, hphase⟩

theorem propagateInterrupt_window (s : Pipeline) (getInterrupts : Bool) :
    (s.propagateInterrupt getInterrupts).window = s.window := by
  unfold propagateInterrupt
  split
  · rfl
  · split <;> rfl

theorem commitTick_sim {checkInterrupts getInterrupts : Bool} (hphase : s.phase = .commit)
    (h : s.commitTick cfg checkInterrupts getInterrupts = some s') :
    Sim cfg s { s' with phase := .squash } := by
  obtain ⟨t, ht, h⟩ := Option.bind_eq_some_iff.mp h
  obtain ⟨hsim, htphase⟩ := tickSquashing_sim hphase ht
  cases h
  refine hsim.trans (.phase ?_ (by rw [htphase]; rfl) (by rw [htphase]; exact Phase.noConfusion)
    rfl Phase.noConfusion)
  split
  · exact propagateInterrupt_window t getInterrupts
  · rfl

theorem acceptSquash_sim (hphase : s.phase = .iewSquash) (h : s.acceptSquash cfg = some s') :
    Sim cfg s s' ∧ s'.phase = .iewSquash := by
  unfold acceptSquash at h
  split at h
  · cases h
    exact ⟨.of_eq rfl, hphase⟩
  · rename_i sq _
    split at h
    · rename_i haccept
      simp only [Option.bind_eq_bind] at h
      obtain ⟨t, ht, h⟩ := Option.bind_eq_some_iff.mp h
      cases h
      have hle : (if sq.includeSquashInst = true then sq.squashedSeqNum - 1 else sq.squashedSeqNum)
          ≤ s.window.youngest := by
        have := haccept.2
        simp only [window]
        split <;> omega
      have hsim : Sim cfg s t := .single (.accept hphase hle (startSquash_window ht))
      refine ⟨hsim.trans (.of_eq rfl), ?_⟩
      simp only [startSquash, Option.bind_eq_bind] at ht
      obtain ⟨⟨rob, insts⟩, -, ht⟩ := Option.bind_eq_some_iff.mp ht
      cases ht
      exact hphase
    · cases h
      exact ⟨.of_eq rfl, hphase⟩

/-- Of the instructions from rename some enter the ROB, all of them not squashed. -/
theorem getInsts_spec {l : List Nat} (h : l.foldlM (getInst cfg) s = some s') :
    ∃ l', l'.Sublist l ∧ (∀ i ∈ l', (s.insts i).squashed = false) ∧
      s'.window = { s.window with
        rob := { s.rob with instList := s.rob.instList ++ l' }
        youngest := s'.commit.youngestSeqNum } ∧ s'.front = s.front := by
  induction l generalizing s with
  | nil =>
    cases h
    exact ⟨[], .slnil, fun _ hi => absurd hi List.not_mem_nil, by simp [window], rfl⟩
  | cons i l ih =>
    rw [List.foldlM_cons] at h
    obtain ⟨t, ht, h⟩ := Option.bind_eq_some_iff.mp h
    unfold getInst at ht
    split at ht
    · cases ht
      obtain ⟨l', hsub, hlive, hwindow, hfront⟩ := ih h
      exact ⟨l', hsub.cons i, hlive, hwindow, hfront⟩
    · rename_i hi
      split at ht
      · cases ht
      · cases ht
        obtain ⟨l', hsub, hlive, hwindow, hfront⟩ := ih h
        refine ⟨i :: l', hsub.cons_cons i, fun j hj => ?_, ?_, hfront⟩
        · rcases List.mem_cons.mp hj with rfl | hj
          · rw [not_or] at hi
            simpa using hi.1
          · exact hlive j hj
        · rw [hwindow]
          simp [window, emit, ROB.insertInst]

theorem iewSquash_sim (hphase : s.phase = .iewSquash) (h : s.iewSquash cfg = some s') :
    Sim cfg s s' := by
  simp only [iewSquash, Option.bind_eq_bind] at h
  obtain ⟨t, ht, h⟩ := Option.bind_eq_some_iff.mp h
  obtain ⟨hsim, htphase⟩ := acceptSquash_sim hphase ht
  refine hsim.trans ?_
  split at h
  · rename_i hstatus
    cases h
    exact .single (.squashing (v := t.window) htphase hstatus)
  · rename_i hstatus
    obtain ⟨u, hu, h⟩ := Option.bind_eq_some_iff.mp h
    cases h
    simp only [getInsts, Option.bind_eq_bind] at hu
    obtain ⟨w, hw, hu⟩ := Option.bind_eq_some_iff.mp hu
    cases hu
    obtain ⟨l, hsub, hlive, hwindow, hfront⟩ := getInsts_spec hw
    have hl : (l ++ { w.front with fromRename := [] }.insts).Sublist t.window.front := by
      rw [hfront]
      simp only [window, FrontEnd.insts, List.nil_append, List.append_assoc]
      exact hsub.append_right _
    have hstep := @Window.Step.insert cfg.squashWidth t.window
      _ _ w.commit.youngestSeqNum htphase hstatus hl hlive
    refine .single ?_
    have hend : { w with
        front := { w.front with fromRename := [] }, phase := .commitInsts 0 }.window =
        { w.window with
          front := { w.front with fromRename := [] }.insts, phase := .commitInsts 0 } := rfl
    rw [hend, hwindow]
    exact hstep

end Squash

section CommitInsts

/-- Commit's loop goes on, or ends, perhaps with another status. -/
theorem Sim.commitStatus {t : Pipeline} {n : Nat} {p : Phase} (hphase : s.phase = .commitInsts n)
    (hstatus : t.commit.status = s.commit.status ∨ t.commit.status ≠ .robSquashing)
    (ht : t.window = { s.window with status := t.commit.status })
    (hp : (∃ n, p = .commitInsts n) ∨ p = .finish) : Sim cfg s { t with phase := p } := by
  have hwindow : { t with phase := p }.window =
      { s.window with status := t.commit.status, phase := p } := by
    have : { t with phase := p }.window = { t.window with phase := p } := rfl
    rw [this, ht]
  refine .single ?_
  rw [hwindow]
  exact .commitStatus hphase hstatus hp

theorem Sim.endLoop {n : Nat} {p : Phase} (hphase : s.phase = .commitInsts n)
    (hp : (∃ n, p = .commitInsts n) ∨ p = .finish) : Sim cfg s { s with phase := p } :=
  .commitStatus hphase (.inl rfl) rfl hp

theorem handleInterrupt_sim {checkInterrupts : Bool} {pc : PCState} {n : Nat}
    (hphase : s.phase = .commitInsts n) :
    Sim cfg s (s.handleInterrupt checkInterrupts pc) ∧
      (s.handleInterrupt checkInterrupts pc).phase = .commitInsts n := by
  unfold handleInterrupt
  split
  · exact ⟨.of_eq rfl, hphase⟩
  · simp only
    split
    · refine ⟨?_, hphase⟩
      refine .single (@Window.Step.commitStatus _ s.window _ .trapPending _ hphase ?_
        (.inl ⟨n, hphase⟩))
      exact .inr CommitStatus.noConfusion
    · exact ⟨.of_eq rfl, hphase⟩

/-- What a head that is not ready can lead to. -/
inductive AtLLL (cfg : PipelineParams) (s : Pipeline) (head : Nat) (e : CommitEnv) :
    Pipeline → Prop
  | waits : AtLLL cfg s head e s
  | enter {request : LoadRequest} (hrequest : e.request = some request)
      (hcomplete : request.complete = false) (hsent : request.sent = true)
      (hmode : s.inRunahead = false) (hload : (s.insts head).isLoad = true)
      (hlive : (s.insts head).squashed = false) (hnormal : (s.insts head).runahead = false)
      (hallowed : s.canEnterRunahead cfg e.inFlightCycles = some true) :
      AtLLL cfg s head e ({ (s.markRunahead (s.runaheadPeriods + 1)).handleRunaheadLLL head with
        inRunahead := true
        runaheadCause := head
        runaheadPeriods := s.runaheadPeriods + 1
        runaheadChainSize := if cfg.usingFiltered then e.chainSize else 0
        commit := { s.commit with
          storedPC := s.commit.pc
          instsPseudoretired := 0
          trackedROBInsts := s.rob.instList.length } }.emit
            (.enter (s.runaheadPeriods + 1) s.commit.pc s.commit.canHandleInterrupts))
  | again {request : LoadRequest} (hrequest : e.request = some request)
      (hcomplete : request.complete = false) (hsent : request.sent = true)
      (hpoisoned : (s.insts head).poisoned = false) (hrunahead : (s.insts head).runahead = true) :
      AtLLL cfg s head e (s.handleRunaheadLLL head)

theorem lllAtHead_cases {head : Nat} {e : CommitEnv} (h : s.lllAtHead cfg head e = some s') :
    AtLLL cfg s head e s' := by
  unfold lllAtHead at h
  split at h
  · cases h
    exact .waits
  · rename_i request hrequest
    split at h
    · cases h
      exact .waits
    · rename_i hmissed
      simp only [Bool.or_eq_true, Bool.not_eq_true', not_or, Bool.not_eq_true,
        Bool.not_eq_false] at hmissed
      obtain ⟨⟨⟨hload, hcomplete⟩, hsent⟩, -⟩ := hmissed
      split at h
      · rename_i hmode
        unfold enterRunahead at h
        split at h
        · cases h
        · rename_i hhead
          split at h
          · cases h
          · cases h
            exact .waits
          · rename_i hallowed
            cases h
            obtain ⟨-, hlive, hnormal⟩ := not_not.mp hhead
            exact .enter hrequest hcomplete hsent (by simpa using hmode) hload hlive hnormal hallowed
      · split at h
        · cases h
          exact .waits
        · rename_i hpoisoned
          split at h
          · rename_i hrunahead
            cases h
            exact .again hrequest hcomplete hsent (by simpa using hpoisoned) hrunahead
          · cases h

theorem lllAtHead_sim {head n : Nat} {tail : List Nat} {e : CommitEnv}
    (hphase : s.phase = .commitInsts n) (hhead : s.rob.instList = head :: tail)
    (h : s.lllAtHead cfg head e = some s') : Sim cfg s s' ∧ s'.phase = .commitInsts n := by
  have hsteady : ∀ inst : DynInst, inst.Steady inst.setPoisoned.setExecuted :=
    fun inst => (steady_setPoisoned inst).trans (steady_setExecuted _)
  cases lllAtHead_cases h with
  | waits => exact ⟨.of_eq rfl, hphase⟩
  | enter _ _ _ hmode =>
    refine ⟨?_, hphase⟩
    have henter := @Window.Step.enter cfg.squashWidth s.window _ _ _ hphase hhead hmode
    refine .tail (.single henter) (@Window.Step.insts _ _ ((s.markRunahead
      (s.runaheadPeriods + 1)).insts.modify head fun inst =>
        inst.setPoisoned.setExecuted) fun j => ?_)
    by_cases hj : j = head
    · rw [hj, Insts.modify_self]
      exact hsteady _
    · rw [Insts.modify_of_ne hj]
      exact .refl _
  | again => exact ⟨.modifyInst hsteady head, hphase⟩

theorem retireHead_sim {head n : Nat} {tail : List Nat} (hphase : s.phase = .commitInsts n)
    (hhead : s.rob.instList = head :: tail) : Sim cfg s (s.retireHead head) :=
  .single (.retire (v := s.window) hphase hhead (.inl rfl))

theorem commitFault_sim {head n : Nat} {tail : List Nat} {e : CommitEnv}
    (hphase : s.phase = .commitInsts n) (hhead : s.rob.instList = head :: tail)
    (hlive : (s.insts head).squashed = false) :
    Sim cfg s (s.commitFault head e) ∧ (s.commitFault head e).phase = .commitInsts n := by
  have hcompleted : Sim cfg s (s.modifyInst head DynInst.setCompleted) :=
    .modifyInst steady_setCompleted head
  have hlive' : ((s.modifyInst head DynInst.setCompleted).insts head).squashed = false := by
    simpa [Pipeline.modifyInst, setInsts, insts, DynInst.setCompleted] using hlive
  simp only [commitFault]
  generalize ht : s.modifyInst head DynInst.setCompleted = t at hcompleted hlive'
  have htphase : t.phase = .commitInsts n := ht ▸ hphase
  have hthead : t.rob.instList = head :: tail := ht ▸ hhead
  split
  · refine ⟨hcompleted.trans (.single (@Window.Step.commitStatus _ t.window _ .trapPending _
      htphase ?_ (.inl ⟨n, htphase⟩))), htphase⟩
    exact .inr CommitStatus.noConfusion
  · rename_i hrunahead
    have hrunahead' : (t.insts head).runahead = true := by simpa using hrunahead
    have hpoisoned : Sim cfg s (t.modifyInst head DynInst.setPoisoned) :=
      hcompleted.trans (.modifyInst steady_setPoisoned head)
    split
    · have hinst : (t.modifyInst head DynInst.setPoisoned).insts head =
          (t.insts head).setPoisoned := Insts.modify_self ..
      refine ⟨hpoisoned.trans (.single (.fetchFault
        (v := (t.modifyInst head DynInst.setPoisoned).window) htphase hthead ?_ ?_)), htphase⟩
      · exact (congrArg DynInst.runahead hinst).trans hrunahead'
      · exact (congrArg DynInst.squashed hinst).trans hlive'
    · exact ⟨hpoisoned, htphase⟩

theorem tcWrite_frame {pc : Option PCState} (h : s.tcWrite pc = some s') :
    ∃ tcSquash, s' = { s with
      commit := { s.commit with pc := pc.getD s.commit.pc, tcSquash }
      log := pc.toList.map .tcWrite ++ s.log } := by
  unfold tcWrite at h
  cases pc with
  | none =>
    simp only at h
    split at h
    · cases h
      exact ⟨_, rfl⟩
    · split at h <;> cases h
      exact ⟨_, rfl⟩
  | some pc =>
    simp only at h
    split at h
    · cases h
      exact ⟨_, rfl⟩
    · split at h <;> cases h
      exact ⟨_, rfl⟩

/-- What happens while PC events are serviced for instruction `i`. -/
inductive Handled (s : Pipeline) (i : Nat) : Event → Prop
  | pcEvent (pc : PCState) : Handled s i (.pcEvent i (s.mark i) pc)
  | tcWrite (pc : PCState) : Handled s i (.tcWrite pc)

/-- The handlers may have written the thread's PC, through a thread context. -/
structure Serviced (s : Pipeline) (i : Nat) (new : List Event) (s' : Pipeline) : Prop where
  frame : ∃ pc tcSquash log, s' = { s with commit := { s.commit with pc, tcSquash }, log }
  log : s'.log = new ++ s.log
  handled : ∀ e ∈ new, s.Handled i e
  pc : s'.commit.pc = s.commit.pc ∨ ∃ pc, .tcWrite pc ∈ new

theorem Serviced.none (s : Pipeline) (i : Nat) : Serviced s i [] s :=
  ⟨⟨_, _, _, rfl⟩, rfl, by simp, .inl rfl⟩

theorem Serviced.trans {new new' : List Event} (h : Serviced s i new s')
    (h' : Serviced s' i new' s'') : Serviced s i (new' ++ new) s'' := by
  obtain ⟨⟨_, _, _, rfl⟩, hlog, hnew, hpc⟩ := h
  obtain ⟨⟨_, _, _, rfl⟩, hlog', hnew', hpc'⟩ := h'
  refine ⟨⟨_, _, _, rfl⟩, ?_, fun e he => ?_, ?_⟩
  · rw [hlog', hlog, List.append_assoc]
  · rcases List.mem_append.mp he with he | he
    · cases hnew' e he with
      | pcEvent pc => exact .pcEvent pc
      | tcWrite pc => exact .tcWrite pc
    · exact hnew e he
  · rcases hpc' with heq' | ⟨pc, hpc'⟩
    · rcases hpc with heq | ⟨pc, hpc⟩
      · exact .inl (heq'.trans heq)
      · exact .inr ⟨pc, List.mem_append_right _ hpc⟩
    · exact .inr ⟨pc, List.mem_append_left _ hpc'⟩

theorem handlePCEvent_serviced {handler : PCHandler} {pc : PCState}
    (h : (s.emit (.pcEvent i (s.mark i) pc)).handlePCEvent handler = some s') :
    ∃ new, Serviced s i new s' ∧ .pcEvent i (s.mark i) pc ∈ new := by
  cases handler with
  | observe =>
    cases h
    refine ⟨[.pcEvent i (s.mark i) pc], ⟨⟨_, _, _, rfl⟩, rfl, fun e he => ?_, .inl rfl⟩, by simp⟩
    rw [List.mem_singleton.mp he]
    exact .pcEvent pc
  | write pc' =>
    obtain ⟨tcSquash, rfl⟩ := tcWrite_frame h
    refine ⟨pc'.toList.map .tcWrite ++ [.pcEvent i (s.mark i) pc],
      ⟨⟨_, _, _, rfl⟩, ?_, ?_, ?_⟩, by simp⟩
    · rw [List.append_assoc]
      rfl
    · intro e he
      rcases List.mem_append.mp he with he | he
      · obtain ⟨p, -, rfl⟩ := List.mem_map.mp he
        exact .tcWrite p
      · rw [List.mem_singleton.mp he]
        exact .pcEvent pc
    · cases pc' with
      | none => exact .inl rfl
      | some p => exact .inr ⟨p, by simp⟩

/-- Handlers are called exactly if there are any. -/
theorem servicePCEvents_serviced {skipped : Bool} {handlers : List PCHandler}
    (h : s.servicePCEvents i handlers = some (s', skipped)) :
    ∃ new, Serviced s i new s' ∧ ((∃ pc, .pcEvent i (s.mark i) pc ∈ new) ↔ handlers ≠ []) := by
  induction handlers generalizing s s' skipped with
  | nil =>
    cases h
    exact ⟨[], .none s i, by simp⟩
  | cons handler rest ih =>
    simp only [servicePCEvents, Option.bind_eq_bind] at h
    obtain ⟨t, ht, h⟩ := Option.bind_eq_some_iff.mp h
    obtain ⟨new, hfirst, hmem⟩ := handlePCEvent_serviced ht
    split at h
    · cases h
      exact ⟨new, hfirst, by simpa using ⟨_, hmem⟩⟩
    · obtain ⟨⟨u, _⟩, hu, h⟩ := Option.bind_eq_some_iff.mp h
      cases h
      obtain ⟨new', hrest, -⟩ := ih hu
      exact ⟨new' ++ new, hfirst.trans hrest, by simpa using ⟨_, .inr hmem⟩⟩

/-- Commit may have to squash after the instruction. -/
def MaySquashAfter (s s' : Pipeline) : Prop :=
  s'.commit.status = s.commit.status ∨ s'.commit.status = .squashAfterPending

theorem MaySquashAfter.trans (h : MaySquashAfter s s') (h' : MaySquashAfter s' s'') :
    MaySquashAfter s s'' := by
  rcases h' with h' | h'
  · rcases h with h | h
    · exact .inl (h'.trans h)
    · exact .inr (h'.trans h)
  · exact .inr h'

/-- Commit is asked to drain, and may stop after the instruction that it has just committed. -/
def drainDue (s : Pipeline) : Prop :=
  s.commit.drainPending = true ∧ s.commit.pc.microPC = 0 ∧ s.commit.interrupt = false ∧
    s.commit.trapPending = false

/-- Commit takes the drain point, or does nothing. -/
theorem drainPoint_cases (h : s.drainPoint = some s') :
    ¬ s.drainDue ∧ s' = s ∨ s.drainDue ∧ s' = { s with
      fetch := { s.fetch with drainStall := true }
      commit := { s.commit with status := .squashAfterPending, drainImminent := true }
      log := .commitDrained s.commit.pc :: s.log } := by
  unfold drainPoint at h
  split at h
  · rename_i hdrain
    split at h
    · cases h
    · cases h
      exact .inr ⟨hdrain, rfl⟩
  · rename_i hdrain
    cases h
    exact .inl ⟨hdrain, rfl⟩

/-- The end of a round: PC events may be serviced, and commit may have to squash. -/
theorem instBoundary_cases {inst : DynInst} {head : Nat} {e : CommitEnv} {skipped : Bool}
    (h : s.instBoundary inst head e = some (s', skipped)) :
    ∃ new t status, Serviced s head new t ∧ s' = { t with commit := { t.commit with status } } ∧
      MaySquashAfter s s' ∧ ((∃ pc, .pcEvent head (s.mark head) pc ∈ new) ↔
        onInstBoundary inst = true ∧ e.pcEvents ≠ []) := by
  unfold instBoundary at h
  split at h
  · rename_i hnot
    cases h
    refine ⟨[], s, _, .none s head, rfl, .inl rfl, ?_⟩
    simp only [Bool.not_eq_true'] at hnot
    simp [hnot]
  · rename_i hboundary
    have hboundary : onInstBoundary inst = true := by simpa using hboundary
    split at h
    · cases h
    · simp only [Option.bind_eq_bind] at h
      obtain ⟨⟨t, skip⟩, ht, h⟩ := Option.bind_eq_some_iff.mp h
      obtain ⟨new, hserviced, hpc⟩ := servicePCEvents_serviced ht
      obtain ⟨_, _, _, rfl⟩ := hserviced.frame
      have hpc' : (∃ pc, .pcEvent head (s.mark head) pc ∈ new) ↔
          onInstBoundary inst = true ∧ e.pcEvents ≠ [] := by simp [hpc, hboundary]
      simp only at h
      split at h
      · cases h
        exact ⟨new, _, _, hserviced, rfl, .inr rfl, hpc'⟩
      · cases h
        exact ⟨new, _, _, hserviced, rfl, .inl rfl, hpc'⟩

/-- The committed head with the squash after it, if it asks for one. -/
def squashAfterInst (s : Pipeline) (head : Nat) : Pipeline :=
  if (s.insts head).isSquashAfter then (s.retireInst head).squashAfter else s.retireInst head

theorem squashAfterInst_frame (s : Pipeline) (head : Nat) :
    ∃ status, s.squashAfterInst head = { s.retireInst head with
      commit := { (s.retireInst head).commit with status } } ∧
      MaySquashAfter s (s.squashAfterInst head) := by
  have hstatus : (s.retireInst head).commit.status = s.commit.status := by
    simp only [retireInst, updateComInstStats, retireHead, emit]
    split <;> rfl
  unfold squashAfterInst
  split
  · exact ⟨_, rfl, .inr rfl⟩
  · exact ⟨_, rfl, .inl hstatus⟩

/-- The parts of a successful commit. -/
theorem commitSuccess_cases {head : Nat} {e : CommitEnv} {skipped : Bool}
    (h : s.commitSuccess head e = some (s', skipped)) :
    ∃ t, (s.squashAfterInst head).drainPoint = some t ∧
      t.instBoundary (s.insts head) head e = some (s', skipped) := by
  simp only [commitSuccess, Option.bind_eq_bind] at h
  exact Option.bind_eq_some_iff.mp h

theorem retireInst_window (s : Pipeline) (head : Nat) :
    (s.retireInst head).window = { s.window.retire head with lastCommited := head } := by
  simp only [retireInst, updateComInstStats, retireHead, emit]
  split <;> rfl

/-- The head retires: it leaves the ROB, and commit may have to squash after it. -/
theorem commitSuccess_window {head : Nat} {e : CommitEnv} {skipped : Bool}
    (h : s.commitSuccess head e = some (s', skipped)) :
    s'.window = { s.window.retire head with
      lastCommited := head, status := s'.commit.status } ∧ MaySquashAfter s s' := by
  obtain ⟨t, ht, hend⟩ := commitSuccess_cases h
  obtain ⟨status, hafter, hstatus⟩ := squashAfterInst_frame s head
  obtain ⟨_, u, status', ⟨⟨_, _, _, rfl⟩, -, -⟩, rfl, hstatus'', -⟩ := instBoundary_cases hend
  have hdrain : t.window = { (s.squashAfterInst head).window with status := t.commit.status } ∧
      MaySquashAfter (s.squashAfterInst head) t := by
    rcases drainPoint_cases ht with ⟨-, rfl⟩ | ⟨-, rfl⟩
    · exact ⟨rfl, .inl rfl⟩
    · exact ⟨rfl, .inr rfl⟩
  refine ⟨?_, (hstatus.trans hdrain.2).trans hstatus''⟩
  have hwindow : t.window =
      { s.window.retire head with lastCommited := head, status := t.commit.status } := by
    have hretired : t.window =
        { (s.retireInst head).window with status := t.commit.status } := by
      rw [hdrain.1, hafter]
      rfl
    rw [hretired, retireInst_window]
  have hkeep : ∀ status, { t.window with status } =
      { s.window.retire head with lastCommited := head, status } := by
    intro status
    rw [hwindow]
  exact hkeep status'

theorem commitSuccess_sim {head n : Nat} {tail : List Nat} {e : CommitEnv} {skipped : Bool}
    {p : Phase} (hphase : s.phase = .commitInsts n) (hhead : s.rob.instList = head :: tail)
    (hp : (∃ n, p = .commitInsts n) ∨ p = .finish)
    (h : s.commitSuccess head e = some (s', skipped)) :
    Sim cfg s { s' with phase := p } := by
  obtain ⟨hwindow, hstatus⟩ := commitSuccess_window h
  have hretire := @Window.Step.retire cfg.squashWidth s.window
    _ _ _ head hphase hhead (.inr rfl)
  have hstatus' : Window.Step cfg.squashWidth { s.window.retire head with lastCommited := head }
      { s.window.retire head with
        lastCommited := head, status := s'.commit.status, phase := p } := by
    refine .commitStatus (v := { s.window.retire head with lastCommited := head }) hphase ?_ hp
    rcases hstatus with hs | hs
    · exact .inl hs
    · exact .inr (by rw [hs]; exact CommitStatus.noConfusion)
  have hend : { s' with phase := p }.window = { s'.window with phase := p } := rfl
  rw [Sim, hend, hwindow]
  exact .tail (.single hretire) hstatus'

theorem commitInst_sim {n : Nat} {e : CommitEnv} (hphase : s.phase = .commitInsts n)
    (h : s.commitInst cfg n e = some s') : Sim cfg s s' := by
  unfold commitInst at h
  split at h
  · cases h
    exact .endLoop hphase (.inr rfl)
  · simp only at h
    have ht : Sim cfg s
        (if s.commit.interrupt then s.handleInterrupt e.checkInterrupts e.interruptPC else s) ∧
        (if s.commit.interrupt then s.handleInterrupt e.checkInterrupts e.interruptPC
          else s).phase = .commitInsts n := by
      split
      · exact handleInterrupt_sim hphase
      · exact ⟨.of_eq rfl, hphase⟩
    generalize (if s.commit.interrupt then s.handleInterrupt e.checkInterrupts e.interruptPC
      else s) = t at h ht
    obtain ⟨hsim, htphase⟩ := ht
    refine hsim.trans ?_
    split at h
    · cases h
      exact .endLoop htphase (.inr rfl)
    · rename_i head tail hhead
      have hhead : t.rob.instList = head :: tail := by
        split at hhead
        · exact hhead
        · cases hhead
      split at h
      · obtain ⟨u, hu, h⟩ := Option.bind_eq_some_iff.mp h
        cases h
        obtain ⟨hlll, huphase⟩ := @lllAtHead_sim cfg _ _ _ _ _ _ htphase hhead hu
        exact hlll.trans (.endLoop huphase (.inr rfl))
      · split at h
        · cases h
          exact retireHead_sim htphase hhead
        · rename_i hlive
          have hlive : (t.insts head).squashed = false := by simpa using hlive
          split at h
          · split at h
            · cases h
              exact .endLoop (s := t) htphase (.inr rfl)
            · cases h
              exact (Sim.modifyInst steady_clearCanCommit head).trans (.endLoop htphase (.inr rfl))
          · split at h
            · split at h
              · cases h
                exact .endLoop (s := t) htphase (.inr rfl)
              · cases h
                obtain ⟨hfault, hfphase⟩ := @commitFault_sim cfg
                  { t with commit := { t.commit with pc := (t.insts head).pcState } }
                  _ _ _ e htphase hhead hlive
                exact Sim.trans hfault (.endLoop hfphase (.inr rfl))
            · obtain ⟨⟨u, skipped⟩, hu, h⟩ := Option.bind_eq_some_iff.mp h
              cases h
              refine commitSuccess_sim
                (s := { t with commit := { t.commit with pc := (t.insts head).pcState } })
                htphase hhead ?_ hu
              cases skipped with
              | false => exact .inl ⟨_, rfl⟩
              | true => exact .inr rfl

end CommitInsts

section Finish

theorem markCompletedInsts_sim (s : Pipeline) : Sim cfg s s.markCompletedInsts := by
  refine .single (.insts (v := s.window) fun i => ?_)
  split
  · exact steady_setCanCommit _
  · exact .refl _

/-- The checks may set `exitRunahead`, if the exit is signalled and its condition holds; the
restore is seen if it is due. -/
theorem updateRunaheadState_cases (s : Pipeline) : ∃ exit log,
    s.updateRunaheadState cfg = { s with
      commit := { s.commit with wasRunahead := s.inRunahead, exitRunahead := exit }, log } ∧
    (exit = s.commit.exitRunahead ∨ s.commit.runaheadExitable = true ∧
      s.commit.exitRunahead = false ∧ s.exitCondition cfg = true) ∧
    log = (if s.commit.archRestorePrev then .archRestore :: s.log else s.log) := by
  have hcheck : ∀ t : Pipeline, (if t.commit.runaheadExitable && !t.commit.exitRunahead &&
      t.exitCondition cfg then t.setExitRunahead else t) = t ∨
      (t.commit.runaheadExitable = true ∧ t.commit.exitRunahead = false ∧
        t.exitCondition cfg = true) ∧ (if t.commit.runaheadExitable && !t.commit.exitRunahead &&
      t.exitCondition cfg then t.setExitRunahead else t) = t.setExitRunahead := by
    intro t
    split
    · rename_i hexit
      simp only [Bool.and_eq_true, Bool.not_eq_true'] at hexit
      exact .inr ⟨⟨hexit.1.1, hexit.1.2, hexit.2⟩, rfl⟩
    · exact .inl rfl
  simp only [updateRunaheadState]
  split
  · rcases hcheck ({ s with commit := { s.commit with wasRunahead := s.inRunahead } }.emit
      .archRestore) with heq | ⟨hexit, heq⟩
    · rw [heq]
      exact ⟨s.commit.exitRunahead, .archRestore :: s.log, rfl, .inl rfl, rfl⟩
    · rw [heq]
      exact ⟨true, .archRestore :: s.log, rfl, .inr hexit, rfl⟩
  · rcases hcheck { s with commit := { s.commit with wasRunahead := s.inRunahead } }
      with heq | ⟨hexit, heq⟩
    · rw [heq]
      exact ⟨s.commit.exitRunahead, s.log, rfl, .inl rfl, rfl⟩
    · rw [heq]
      exact ⟨true, s.log, rfl, .inr hexit, rfl⟩

theorem updateRunaheadState_sim (s : Pipeline) :
    Sim cfg s (s.updateRunaheadState cfg) ∧ (s.updateRunaheadState cfg).phase = s.phase := by
  obtain ⟨exit, log, heq, hexit, -⟩ := @updateRunaheadState_cases cfg s
  rw [heq]
  refine ⟨?_, rfl⟩
  rcases hexit with rfl | ⟨hexitable, hnot, -⟩
  · exact .of_eq rfl
  · cases exit with
    | false => exact .of_eq (by simp [window, ← hnot])
    | true => exact .single (.exit (v := s.window) (.inr hexitable))

theorem advance_sim (hphase : s.phase = .finish) : Sim cfg s s.advance := by
  have hfront : s.advance.front.insts.Sublist s.front.insts := by
    simp only [advance, FrontEnd.insts, List.append_nil, List.append_assoc]
    exact List.sublist_append_right _ _
  exact .tail (.single (.front hfront)) (.finish hphase)

theorem finish_sim (hphase : s.phase = .finish) : Sim cfg s (s.finish cfg) := by
  obtain ⟨hupdate, hkeep⟩ := @updateRunaheadState_sim cfg s.markCompletedInsts
  exact ((markCompletedInsts_sim s).trans hupdate).trans (advance_sim (hkeep.trans hphase))

end Finish

section BetweenTicks

/-- The policy sets `exitRunahead`, or remembers a load. -/
theorem exitPolicy_cases (s : Pipeline) : ∃ exit load,
    s.exitPolicy cfg = { s with commit := { s.commit with
      exitRunahead := exit, runaheadExitSeqNum := load } } ∧
    (exit = s.commit.exitRunahead ∨ exit = true) := by
  unfold exitPolicy
  cases cfg.exitPolicy with
  | eager => exact ⟨true, _, rfl, .inr rfl⟩
  | minimumWork =>
    simp only
    split
    · exact ⟨true, _, rfl, .inr rfl⟩
    · exact ⟨_, _, rfl, .inl rfl⟩
  | nllb =>
    simp only
    split
    · exact ⟨_, _, rfl, .inl rfl⟩
    · exact ⟨true, _, rfl, .inr rfl⟩
  | dynamicDelayed =>
    simp only [dynamicDelayedRunaheadExit]
    split
    · exact ⟨true, _, rfl, .inr rfl⟩
    · split
      · exact ⟨true, _, rfl, .inr rfl⟩
      · split
        · exact ⟨true, _, rfl, .inr rfl⟩
        · exact ⟨_, _, rfl, .inl rfl⟩

/-- What a response for the load that caused runahead does: nothing if the exit is signalled
already. -/
theorem signalExitRunahead_cases (h : s.signalExitRunahead cfg = some s') :
    s.inRunahead = true ∧ (s.commit.runaheadExitable = true ∧ s' = s ∨
      s.commit.runaheadExitable = false ∧ ∃ exit load, (exit = s.commit.exitRunahead ∨ exit = true) ∧
        (({ s with commit := { s.commit with
            runaheadExitable := true
            runaheadCause := some s.runaheadCause } }.emit .exitSignal).exitPolicy cfg).commit =
          { s.commit with
            runaheadExitable := true
            runaheadCause := some s.runaheadCause
            exitRunahead := exit
            runaheadExitSeqNum := load } ∧
        s' = if exit then { s with
          commit := { s.commit with
            runaheadExitable := true
            runaheadCause := some s.runaheadCause
            exitRunahead := exit
            runaheadExitSeqNum := load }
          log := .exitSignal :: s.log }
        else { s with
          commit := { s.commit with
            runaheadExitable := true
            runaheadCause := some s.runaheadCause
            exitRunahead := exit
            runaheadExitSeqNum := load }
          deadlineEvents := s.deadlineEvents ++
            [⟨s.runaheadCause, s.cycle + cfg.exitDeadline, s.runaheadPeriods⟩]
          log := .arm :: .exitSignal :: s.log }) := by
  unfold signalExitRunahead at h
  split at h
  · cases h
  · rename_i hmode
    rw [not_not] at hmode
    refine ⟨hmode.1, ?_⟩
    split at h
    · rename_i hexitable
      exact .inl ⟨hexitable, (Option.some.inj h).symm⟩
    · rename_i hexitable
      obtain ⟨exit, load, heq, hexit⟩ := @exitPolicy_cases cfg
        ({ s with commit := { s.commit with
          runaheadExitable := true
          runaheadCause := some s.runaheadCause } }.emit .exitSignal)
      refine .inr ⟨by simpa using hexitable, exit, load, hexit, congrArg Pipeline.commit heq, ?_⟩
      simp only [heq] at h
      cases exit with
      | true =>
        simp only [if_true] at h
        exact (Option.some.inj h).symm
      | false =>
        simp only [Bool.false_eq_true, if_false] at h
        exact (Option.some.inj h).symm

theorem signalExitRunahead_sim (h : s.signalExitRunahead cfg = some s') : Sim cfg s s' := by
  obtain ⟨hmode, ⟨-, rfl⟩ | ⟨-, exit, load, hexit, -, rfl⟩⟩ := signalExitRunahead_cases h
  · exact .of_eq rfl
  · have hsignal : Window.Step cfg.squashWidth s.window { s.window with
        exitable := true, commitCause := some s.runaheadCause } := .signal hmode
    have hend : ∀ t : Pipeline, t.window = { s.window with
        exitable := true, commitCause := some s.runaheadCause, exitRunahead := exit } →
        Sim cfg s t := by
      intro t ht
      rw [Sim, ht]
      rcases hexit with rfl | rfl
      · exact .single hsignal
      · exact .tail (.single hsignal) (.exit (.inl hmode))
    split
    · exact hend _ rfl
    · exact hend _ rfl

/-- A deadline event sets `exitRunahead` if commit takes its load for the cause. -/
theorem deadline_cases {k : Nat} (h : s.deadline k = some s') :
    ∃ event exit, s.deadlineEvents[k]? = some event ∧ event.when_ ≤ s.cycle ∧
      s' = { s with
        deadlineEvents := s.deadlineEvents.eraseIdx k
        commit := { s.commit with exitRunahead := exit } } ∧
      (exit = s.commit.exitRunahead ∧ (s.inRunahead = true → s.commit.exitRunahead = false →
          s.commit.runaheadCause ≠ some event.causeSeqNum) ∨
        exit = true ∧ s.inRunahead = true ∧ s.commit.exitRunahead = false ∧
          s.commit.runaheadCause = some event.causeSeqNum) := by
  simp only [deadline, Option.bind_eq_bind] at h
  obtain ⟨event, hevent, h⟩ := Option.bind_eq_some_iff.mp h
  split at h
  · cases h
  · rename_i hdue
    split at h
    · rename_i hmode
      cases h
      refine ⟨event, s.commit.exitRunahead, hevent, by omega, rfl, .inl ⟨rfl, fun hr he => ?_⟩⟩
      simp [hr, he] at hmode
    · rename_i hmode
      simp only [Bool.or_eq_true, Bool.not_eq_true', not_or, Bool.not_eq_false,
        Bool.not_eq_true] at hmode
      obtain ⟨cause, hcause, h⟩ := Option.bind_eq_some_iff.mp h
      split at h
      · rename_i hne
        cases h
        refine ⟨event, s.commit.exitRunahead, hevent, by omega, rfl, .inl ⟨rfl, fun _ _ hc => ?_⟩⟩
        rw [hcause] at hc
        exact hne (Option.some.inj hc)
      · rename_i heq
        rw [not_not] at heq
        cases h
        exact ⟨event, true, hevent, by omega, rfl, .inr ⟨rfl, hmode.1, hmode.2, heq ▸ hcause⟩⟩

theorem deadline_sim {k : Nat} (h : s.deadline k = some s') : Sim cfg s s' := by
  obtain ⟨event, exit, -, -, rfl, ⟨rfl, -⟩ | ⟨rfl, hmode, -, -⟩⟩ := deadline_cases h
  · exact .of_eq rfl
  · exact .single (.exit (v := s.window) (.inl hmode))

theorem processTrapEvent_window (h : s.processTrapEvent = some s') : s'.window = s.window := by
  unfold processTrapEvent at h
  split at h
  · cases h
  · simp only at h
    split at h <;> cases h <;> rfl

theorem tcWrite_window {pc : Option PCState} (h : s.tcWrite pc = some s') :
    s'.window = s.window := by
  obtain ⟨_, rfl⟩ := tcWrite_frame h
  rfl

end BetweenTicks

section Step

/-- **The pipeline refines its window.** -/
theorem step_sim {l : Label} (h : s.step cfg l = some s') : Sim cfg s s' := by
  cases l with
  | signalExitRunahead =>
    simp only [step] at h
    split at h
    · exact signalExitRunahead_sim h
    · cases h
  | deadline k =>
    simp only [step] at h
    split at h
    · exact deadline_sim h
    · cases h
  | processTrapEvent =>
    simp only [step] at h
    split at h
    · exact .of_eq (processTrapEvent_window h)
    · cases h
  | drain =>
    simp only [step] at h
    split at h
    · cases h
      exact .of_eq rfl
    · cases h
  | drainResume =>
    simp only [step] at h
    split at h
    · cases h
      exact .of_eq rfl
    · cases h
  | tcWrite pc =>
    simp only [step] at h
    split at h
    · exact .of_eq (tcWrite_window h)
    · cases h
  | icacheResponse =>
    simp only [step, icacheResponse] at h
    split at h
    · split at h
      · cases h
        exact .of_eq rfl
      · cases h
    · cases h
  | dataReturn i poisoned mispredicted =>
    simp only [step] at h
    split at h
    · exact dataReturn_sim h
    · cases h
  | fetchSignals fromDecode =>
    simp only [step] at h
    split at h
    · rename_i hphase
      obtain ⟨t, ht, h⟩ := Option.bind_eq_some_iff.mp h
      cases h
      exact fetchSignals_sim hphase.1 ht
    · cases h
  | fetchInst inst nextPC =>
    simp only [step] at h
    split at h
    · rename_i hphase
      exact fetchInst_sim hphase h
    · cases h
  | fetchWait =>
    simp only [step, fetchWait] at h
    split at h
    · split at h
      · cases h
        exact .of_eq rfl
      · cases h
    · cases h
  | fetchDiscard i =>
    simp only [step] at h
    split at h
    · exact fetchDiscard_sim h
    · cases h
  | renameInsts n =>
    simp only [step] at h
    split at h
    · rename_i hphase
      obtain ⟨t, ht, h⟩ := Option.bind_eq_some_iff.mp h
      cases h
      exact renameInsts_sim hphase ht
    · cases h
  | iewSignals full =>
    simp only [step] at h
    split at h
    · rename_i hphase
      cases h
      exact .phase (iewSignals_window s full) (by rw [hphase]; rfl)
        (by rw [hphase]; exact Phase.noConfusion) rfl Phase.noConfusion
    · cases h
  | dispatchNonSpec i =>
    simp only [step] at h
    split at h
    · exact dispatchNonSpec_sim h
    · cases h
  | execute i result r =>
    simp only [step] at h
    split at h
    · exact execute_sim h
    · cases h
  | writebackInsts n =>
    simp only [step] at h
    split at h
    · rename_i hphase
      cases h
      exact .phase rfl (by rw [hphase]; rfl) (by rw [hphase]; exact Phase.noConfusion) rfl
        Phase.noConfusion
    · cases h
  | commitTick checkInterrupts getInterrupts =>
    simp only [step] at h
    split at h
    · rename_i hphase
      obtain ⟨t, ht, h⟩ := Option.bind_eq_some_iff.mp h
      cases h
      exact commitTick_sim hphase ht
    · cases h
  | squash =>
    simp only [step] at h
    split at h
    · rename_i hphase
      obtain ⟨t, ht, h⟩ := Option.bind_eq_some_iff.mp h
      cases h
      exact squash_sim hphase ht
    · cases h
  | iewSquash =>
    simp only [step] at h
    split at h
    · rename_i hphase
      exact iewSquash_sim hphase h
    · cases h
  | commitInst e =>
    simp only [step] at h
    split at h
    · rename_i n hphase
      exact commitInst_sim hphase h
    · cases h
  | finish =>
    simp only [step] at h
    split at h
    · rename_i hphase
      cases h
      exact finish_sim hphase
    · cases h

theorem start_core (pc : PCState) : (start pc).window.Core where
  order := {
    sorted := .nil
    pos := fun _ hi => by cases hi
    cause_le := fun _ hi => by cases hi
    lastCommited_lt := fun _ hi => by cases hi
    lt := fun _ hi => by cases hi
    listSorted := .nil
    listLt := fun _ hi => by cases hi
    next_pos := Nat.one_pos
    cause_lt := Nat.one_pos
    last_lt := Nat.one_pos
    threadNumber := fun _ => rfl
    rob := fun _ hi => by cases hi
    front := fun _ hi => by cases hi }
  control := {
    walking := fun hd => by cases hd
    nonempty := fun hd => by cases hd
    status := fun hd => by cases hd
    youngest := fun hd => by cases hd
    seen := fun hs => by cases hs
    early := fun hs => by cases hs
    sent := fun hs => by cases hs
    committing := fun _ hp => by cases hp }
  modes := {
    live := fun _ hi => by cases hi
    old := fun hr => by cases hr
    commitCause := fun _ hc => by cases hc
    exit := fun he => by cases he
    exitable := fun he => by cases he }

/-- The window's invariant holds in every reachable state. -/
theorem reaches_core {ls : List Label} (h : (system cfg).Reaches ls s) : s.window.Core := by
  refine h.invariant (I := fun s => s.window.Core) ?_ fun s l t hs hst =>
    Window.steps_core (step_sim hst) hs
  rintro s ⟨pc, rfl⟩
  exact start_core pc

end Step

end Pipeline
end Runahead
end Gem5
