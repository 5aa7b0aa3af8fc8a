import Gem5Runahead.CommittedWork
import Mathlib.Algebra.Ring.Nat

/-!
# PeriodCounters

The counters that keep two runahead periods from overlapping. Commit counts the instructions
retired since the last exit in an `int`, and those pseudo-retired since the last entry in a
`uint64_t`; each is reset at its own end of a period. The log has both numbers as they are, so a
decision of `canEnterRunahead` can be held against it.

* `PeriodCounts`, `reaches_periodCounts` — the counters count what the log tells.
* `overlaps_eq` — the comparison of the two, as long as they fit.
* `periods_do_not_overlap` — in a run in which they do, every decision is right.
* `entry_refused_after_wrap` — after 2^32 instructions a load is refused, without an overlap.
-/

namespace Gem5
namespace Runahead

def Event.isEnter : Event → Bool
  | .enter .. => true
  | _ => false

def Event.isExit : Event → Bool
  | .exitSquash .. => true
  | _ => false

theorem Event.quiet_ends {e : Event} (h : e.quiet = true) : e.isEnter = false ∧ e.isExit = false := by
  cases e <;> first | exact ⟨rfl, rfl⟩ | cases h

namespace Pipeline

variable {cfg : PipelineParams} {s s' : Pipeline} {l : Label} {ls : List Label}

section Counts

/-- What the log has since the last event of a kind. -/
def since (p : Event → Bool) (log : List Event) : List Event := log.takeWhile (!p ·)

/-- The number of instructions committed in normal mode since the last exit. -/
def committedBetween (log : List Event) : Nat := (archSeq (since Event.isExit log)).countP endsInst

/-- The number of instructions pseudo-retired in the last period. -/
def pseudoretired (log : List Event) : Nat := (pseudoSeq (since Event.isEnter log)).countP endsInst

theorem since_append {p : Event → Bool} {new : List Event} (h : ∀ e ∈ new, p e = false)
    (log : List Event) : since p (new ++ log) = new ++ since p log := by
  refine List.takeWhile_append_of_pos fun e he => ?_
  simp [h e he]

/-- The counters of commit are those of the log. -/
structure PeriodCounts (s : Pipeline) : Prop where
  between : s.commit.instsBetweenRunahead = committedBetween s.log
  pseudo : s.commit.instsPseudoretired = pseudoretired s.log

/-- Events that neither end a period nor retire an instruction leave the counts alone. -/
theorem counts_append {new : List Event} (hends : ∀ e ∈ new, e.isEnter = false ∧ e.isExit = false)
    (log : List Event) :
    committedBetween (new ++ log) = (archSeq new).countP endsInst + committedBetween log ∧
      pseudoretired (new ++ log) = (pseudoSeq new).countP endsInst + pseudoretired log := by
  refine ⟨?_, ?_⟩
  · rw [committedBetween, since_append fun e he => (hends e he).2, archSeq_append,
      List.countP_append, committedBetween]
  · rw [pseudoretired, since_append fun e he => (hends e he).1, pseudoSeq_append,
      List.countP_append, pseudoretired]

theorem PeriodCounts.of_silent {new : List Event} (hs : s.PeriodCounts)
    (hlog : s'.log = new ++ s.log) (hends : ∀ e ∈ new, e.isEnter = false ∧ e.isExit = false)
    (hnone : committedSeq new = [])
    (hbetween : s'.commit.instsBetweenRunahead = s.commit.instsBetweenRunahead)
    (hpseudo : s'.commit.instsPseudoretired = s.commit.instsPseudoretired) : s'.PeriodCounts := by
  obtain ⟨harch, hretired⟩ := counts_append hends s.log
  rw [archSeq, hnone] at harch
  rw [pseudoSeq, hnone] at hretired
  refine ⟨?_, ?_⟩
  · rw [hbetween, hs.between, hlog, harch]
    simp
  · rw [hpseudo, hs.pseudo, hlog, hretired]
    simp

theorem step_periodCounts (hcore : s.window.Core) (hst : s.step cfg l = some s')
    (hs : s.PeriodCounts) : s'.PeriodCounts := by
  obtain ⟨new, hlog, hdeed⟩ := step_deed hcore hst
  have hbetween : s'.tally.instsBetweenRunahead = s'.commit.instsBetweenRunahead := rfl
  have hpseudo : s'.tally.instsPseudoretired = s'.commit.instsPseudoretired := rfl
  generalize s'.tally = t at hdeed hbetween hpseudo
  cases hdeed with
  | quiet hnew =>
    exact hs.of_silent hlog (fun e he => Event.quiet_ends (hnew e he)) (committedSeq_quiet hnew)
      hbetween.symm hpseudo.symm
  | propagate | process =>
    exact hs.of_silent hlog (by simp [Event.isEnter, Event.isExit]) rfl hbetween.symm hpseudo.symm
  | squashed hsquashed =>
    refine hs.of_silent hlog (by simp [Event.isEnter, Event.isExit]) ?_ hbetween.symm hpseudo.symm
    simp [committedSeq, Event.committed, hsquashed]
  | exit =>
    -- a new normal period; the instructions of the last one in runahead stay counted
    refine ⟨?_, ?_⟩
    · rw [← hbetween, hlog]
      rfl
    · rw [← hpseudo, hlog]
      exact hs.pseudo
  | enter =>
    refine ⟨?_, ?_⟩
    · rw [← hbetween, hlog]
      exact hs.between
    · rw [← hpseudo, hlog]
      rfl
  | @commit e n head new hphase hcommits hnew _ _ =>
    have hmode := hcommits.runahead hcore hphase
    have hends : ∀ e ∈ new ++ [.retire head (s.insts head) (s.mark head)],
        e.isEnter = false ∧ e.isExit = false := by
      intro e he
      rcases commit_events hnew he with h | ⟨_, rfl⟩ | rfl | rfl
      · exact Event.quiet_ends h
      · exact ⟨rfl, rfl⟩
      · exact ⟨rfl, rfl⟩
      · exact ⟨rfl, rfl⟩
    obtain ⟨harch, hretired⟩ := counts_append hends s.log
    obtain ⟨hone, hother⟩ := seqs_of_commit (commit_sequence hcommits hnew)
    rw [hone] at harch
    rw [hother] at hretired
    refine ⟨?_, ?_⟩
    · rw [← hbetween, hlog, harch, hs.between, ← hmode]
      cases (s.insts head).runahead <;> cases hi : endsInst (s.insts head) <;>
        simp [hi, Nat.add_comm]
    · rw [← hpseudo, hlog, hretired, hs.pseudo]
      cases (s.insts head).runahead <;> cases hi : endsInst (s.insts head) <;>
        simp [hi, Nat.add_comm]
  | finish =>
    refine hs.of_silent hlog ?_ ?_ hbetween.symm hpseudo.symm
    · intro e he
      split at he
      · cases List.mem_singleton.mp he
        exact ⟨rfl, rfl⟩
      · cases he
    · split <;> rfl

theorem reaches_periodCounts (h : (system cfg).Reaches ls s) : s.PeriodCounts := by
  let I (ls : List Label) (s : Pipeline) : Prop := (system cfg).Reaches ls s ∧ s.PeriodCounts
  refine (h.history (I := I) ?_ ?_).2
  · rintro s ⟨pc, rfl⟩
    exact ⟨.start ⟨pc, rfl⟩, rfl, rfl⟩
  · rintro ls s l s' ⟨hreach, hs⟩ hst
    exact ⟨hreach.snoc hst, step_periodCounts (reaches_core hreach) hst hs⟩

end Counts

section Decisions

/-- A counter that fits an `int` keeps its value when it is extended. -/
theorem signExtend_ofNat {n : Nat} (h : n < 2 ^ 31) :
    ((BitVec.ofNat 32 n).signExtend 64).toNat = n := by
  have hmsb : (BitVec.ofNat 32 n).msb = false := by
    rw [BitVec.msb_eq_decide]
    simp
    omega
  rw [BitVec.signExtend_eq_setWidth_of_msb_false hmsb, BitVec.toNat_setWidth, BitVec.toNat_ofNat]
  omega

/-- The comparison is that of the numbers counted, as long as the counters hold them. -/
theorem overlaps_eq (hbetween : s.commit.instsBetweenRunahead < 2 ^ 31)
    (hpseudo : s.commit.instsPseudoretired < 2 ^ 64) :
    s.overlaps = decide (s.commit.instsBetweenRunahead < s.commit.instsPseudoretired) := by
  rw [overlaps, BitVec.ult, signExtend_ofNat hbetween, BitVec.toNat_ofNat, Nat.mod_eq_of_lt hpseudo]

/-- A load at the head would be let in but for the periods that would overlap. -/
structure RefusedForOverlap (cfg : PipelineParams) (s : Pipeline) (inFlightCycles : Nat) : Prop where
  enabled : cfg.runaheadEnabled = true
  normal : s.inRunahead = false
  stalled : cfg.eagerEntry = true ∨ s.rob.instList.length = cfg.numROBEntries
  inFlight : inFlightCycles ≤ cfg.inFlightThreshold
  refused : s.canEnterRunahead cfg inFlightCycles = some false

/-- The step enters runahead only if the last period has been caught up with, and the load at the
head is not refused for overlap if it has. -/
structure NonOverlapping (cfg : PipelineParams) (s : Pipeline) (l : Label) : Prop where
  enters : ∀ s', s.step cfg l = some s' → s.inRunahead = false → s'.inRunahead = true →
    pseudoretired s.log ≤ committedBetween s.log
  refuses : ∀ e inFlightCycles, l = .commitInst e → s.RefusedForOverlap cfg inFlightCycles →
    committedBetween s.log < pseudoretired s.log

/-- Before a round of commit the counters hold what they have counted. -/
def CountersFit (s : Pipeline) (l : Label) : Prop :=
  ∀ e, l = .commitInst e →
    s.commit.instsBetweenRunahead < 2 ^ 31 ∧ s.commit.instsPseudoretired < 2 ^ 64

theorem RefusedForOverlap.overlaps {inFlightCycles : Nat} (h : s.RefusedForOverlap cfg inFlightCycles) :
    s.overlaps = true := by
  have hrefused := h.refused
  have hstalled : ¬ (!cfg.runaheadEnabled || s.inRunahead ||
      !cfg.eagerEntry && decide (s.rob.instList.length ≠ cfg.numROBEntries)) = true := by
    rcases h.stalled with heager | hfull
    · simp [h.enabled, h.normal, heager]
    · simp [h.enabled, h.normal, hfull]
  unfold canEnterRunahead at hrefused
  rw [if_neg hstalled] at hrefused
  split at hrefused
  · cases hrefused
  · have hoverlaps := Option.some.inj hrefused
    simp only [h.inFlight, decide_true, Bool.true_and, Bool.or_eq_false_iff,
      Bool.not_eq_false'] at hoverlaps
    exact hoverlaps.2

/-- A load is let in only if its period does not overlap, or may. -/
theorem canEnterRunahead_true {inFlightCycles : Nat}
    (h : s.canEnterRunahead cfg inFlightCycles = some true) :
    cfg.allowOverlapping = true ∨ s.overlaps = false := by
  unfold canEnterRunahead at h
  split at h
  · cases h
  · split at h
    · cases h
    · have hallowed := Option.some.inj h
      simp only [Bool.and_eq_true, Bool.or_eq_true, Bool.not_eq_true'] at hallowed
      exact hallowed.2

theorem commitFault_mode (head : Nat) (e : CommitEnv) :
    (s.commitFault head e).inRunahead = s.inRunahead := by
  simp only [commitFault]
  split
  · rfl
  · split <;> rfl

/-- Only `canEnterRunahead` lets a round enter runahead. -/
theorem Round.enters {n : Nat} {e : CommitEnv} (h : Round cfg s n e s')
    (hmode : s.inRunahead = false) (hmode' : s'.inRunahead = true) :
    (s.afterInterrupt e).canEnterRunahead cfg e.inFlightCycles = some true := by
  have hsame : (s.afterInterrupt e).inRunahead = false :=
    (congrArg ExitState.inRunahead (afterInterrupt_exitState s e)).trans hmode
  have hno : ∀ {b : Bool}, b = false → b = true → False := by
    rintro _ rfl h
    cases h
  cases h with
  | full => exact (hno hmode hmode').elim
  | nothing | squashed | wait | unexecuted => exact (hno hsame hmode').elim
  | @notReady head tail u _ _ hu =>
    cases lllAtHead_cases hu with
    | waits | again => exact (hno hsame hmode').elim
    | enter _ _ _ _ _ _ _ hallowed => exact hallowed
  | @fault head =>
    have hmode' : ((s.atHead e head).commitFault head e).inRunahead = true := hmode'
    rw [commitFault_mode] at hmode'
    exact (hno hsame hmode').elim
  | @success head u skipped _ hu =>
    have hu' : u.inRunahead = (s.atHead e head).inRunahead :=
      congrArg ExitState.inRunahead (commitSuccess_exitState hu)
    exact (hno (hu'.trans hsame) hmode').elim

/-- A step that enters runahead is a round of commit, with the counters as the log has them. -/
theorem step_enters (hcore : s.window.Core) (hst : s.step cfg l = some s')
    (hmode : s.inRunahead = false) (hmode' : s'.inRunahead = true) :
    ∃ e, l = .commitInst e ∧ (cfg.allowOverlapping = false → s.overlaps = false) := by
  obtain ⟨new, -, hdeed⟩ := step_deed hcore hst
  have htally : s'.tally.inRunahead = true := hmode'
  have hkept : s.tally.inRunahead = false := hmode
  generalize s'.tally = t at hdeed htally
  cases hdeed with
  | quiet | propagate | process | squashed | commit | finish =>
    rw [show _ = false from hkept] at htally
    cases htally
  | exit => cases htally
  | @enter e =>
    refine ⟨e, rfl, fun hno => ?_⟩
    obtain ⟨n, hphase, hround⟩ : ∃ n, s.phase = .commitInsts n ∧ Round cfg s n e s' := by
      cases step_effect hst with
      | outside hout =>
        obtain ⟨⟨_, _, _, _, _, _, _, _, rfl⟩, -⟩ := hout
        rw [show _ = false from hmode] at hmode'
        cases hmode'
      | round hphase h => exact ⟨_, hphase, h⟩
    have hallowed := hround.enters hmode hmode'
    obtain ⟨_, _, _, _, _, _, _, _, _, heq, -⟩ := afterInterrupt_frame s e
    rw [heq] at hallowed
    exact (canEnterRunahead_true hallowed).resolve_left (by simp [hno])

/-- **In every run in which the counters hold what they have counted before each round of commit,
and overlapping periods are not allowed, no period is entered before the last one has been caught
up with, and no entry is refused for overlap after.** -/
theorem periods_do_not_overlap (hno : cfg.allowOverlapping = false)
    (h : ((system cfg).guard CountersFit).Reaches ls s) :
    ((system cfg).guard (NonOverlapping cfg)).Reaches ls s := by
  let I (ls : List Label) (s : Pipeline) : Prop :=
    ((system cfg).guard (NonOverlapping cfg)).Reaches ls s
  refine h.history (I := I) (fun s hs => .start hs) ?_
  rintro ls s l s' hreach ⟨hst, hfit⟩
  refine hreach.snoc ⟨hst, ?_, ?_⟩
  · intro t ht hmode hmode'
    have hcounts := reaches_periodCounts hreach.of_guard
    obtain ⟨e, rfl, hoverlaps⟩ := step_enters (reaches_core hreach.of_guard) ht hmode hmode'
    obtain ⟨hbetween, hpseudo⟩ := hfit e rfl
    have hdecided := (overlaps_eq hbetween hpseudo).symm.trans (hoverlaps hno)
    rw [decide_eq_false_iff_not, hcounts.between, hcounts.pseudo] at hdecided
    exact Nat.le_of_not_lt hdecided
  · rintro e inFlightCycles rfl hrefused
    have hcounts := reaches_periodCounts hreach.of_guard
    obtain ⟨hbetween, hpseudo⟩ := hfit e rfl
    have hdecided := (overlaps_eq hbetween hpseudo).symm.trans hrefused.overlaps
    rw [decide_eq_true_iff, hcounts.between, hcounts.pseudo] at hdecided
    exact hdecided

def cautious : PipelineParams :=
  { minimumWork with exitPolicy := .eager, allowOverlapping := false }

/-- The load at the head is let in: nothing has been pseudo-retired before. -/
theorem periods_do_not_overlap_entry : ∃ s,
    ((system cautious).guard (NonOverlapping cautious)).Reaches entry s ∧ s.inRunahead = true := by
  have hrun : (entry.foldlM (fun s l =>
      if s.commit.instsBetweenRunahead < 2 ^ 31 ∧ s.commit.instsPseudoretired < 2 ^ 64 then
        s.step cautious l else none) (start {})).any (·.inRunahead) = true := by
    decide +kernel
  obtain ⟨s, hs, hmode⟩ := (Option.any_eq_true _ _).mp hrun
  refine ⟨s, periods_do_not_overlap rfl ⟨start {}, ⟨{}, rfl⟩, .of_foldlM (fun s l s' hst => ?_) hs⟩,
    hmode⟩
  split at hst
  · rename_i hfit
    exact ⟨hst, fun _ _ => hfit⟩
  · cases hst

end Decisions

section Wrap

variable {t u : Pipeline} {n between : Nat} {inst : DynInst}

/-- `s` between two ticks in normal mode, after a period in which one instruction has
pseudo-retired: there is nothing to squash and nothing to wait for. -/
def resting (s : Pipeline) (queued fromRename rob written : List Nat) : Pipeline :=
  { s with
    phase := .idle
    list := { s.list with removeInstsThisCycle := false }
    rob := { s.rob with instList := rob }
    fetch := { s.fetch with
      status := .running
      pc := {}
      drainStall := false
      fromCommit := { s.fetch.fromCommit with squash := false } }
    front := { queued, fromRename }
    iew := { s.iew with
      squashTailSeqNum := 0
      iewQueue := []
      toCommit := {}
      fromCommit := { s.iew.fromCommit with squash := false, robSquashing := false } }
    inRunahead := false
    deadlineEvents := []
    commit := { s.commit with
      status := .running
      trapSquash := false
      tcSquash := false
      trapPending := false
      interrupt := false
      avoidQuiesceLiveLock := false
      drainPending := false
      exitRunahead := false
      runaheadExitable := false
      instsPseudoretired := 1
      toIEW := {}
      fromIEW := { insts := written }
      archRestore := false
      archRestorePrev := false } }

/-- `n` is the last instruction that was fetched, and where it is; `between` instructions have
committed since the exit. -/
structure Resting (s : Pipeline) (n between : Nat) (inst : DynInst)
    (queued fromRename rob written : List Nat) : Prop where
  eq : s = s.resting queued fromRename rob written
  next : s.list.globalSeqNum = n + 1
  between : s.commit.instsBetweenRunahead = between
  inst : s.insts n = inst

theorem foldlM_cons (h : s.step cfg l = some t) (h' : ls.foldlM (step cfg) t = some u) :
    (l :: ls).foldlM (step cfg) s = some u := by
  rw [List.foldlM_cons, h]
  exact h'

theorem renameInsts_live (hphase : s.phase = .fetch) (hblock : s.front.iewBlock = false)
    (hqueued : s.front.queued = [n]) (hlive : (s.insts n).squashed = false) :
    s.step cfg (.renameInsts 1) = some { s with
      phase := .iewSignals
      front := { s.front with queued := [], toROB := [n] } } := by
  simp [step, renameInsts, hphase, hblock, hqueued, hlive]

theorem iewSquash_live (hphase : s.phase = .iewSquash) (hsquash : s.commit.fromIEW.squash = none)
    (hstatus : s.commit.status = .running) (hfrom : s.front.fromRename = [n])
    (hlive : (s.insts n).squashed = false) (hrob : s.rob.instList.length ≠ cfg.numROBEntries) :
    s.step cfg .iewSquash = some { s with
      phase := .commitInsts 0
      front := { s.front with fromRename := [] }
      rob := s.rob.insertInst n
      commit := { s.commit with
        youngestSeqNum := n
        fromIEW := { s.commit.fromIEW with squash := none } }
      log := .insertInst n (s.mark n) :: s.log } := by
  have hlive : (s.list.insts n).squashed = false := hlive
  simp [step, iewSquash, acceptSquash, getInsts, getInst, hphase, hsquash, hstatus, hfrom, hlive,
    hrob, insts, emit, mark]
  rfl

theorem commitInst_notReady {e : CommitEnv} (hphase : s.phase = .commitInsts 0)
    (hwidth : 0 < cfg.commitWidth) (hinterrupt : s.commit.interrupt = false)
    (hstatus : s.commit.status = .running) (hrob : s.rob.instList = [n])
    (hready : (s.insts n).canCommit = false) (hwaits : s.lllAtHead cfg n e = some s) :
    s.step cfg (.commitInst e) = some { s with phase := .finish } := by
  simp [step, commitInst, hphase, Nat.pos_iff_ne_zero.mp hwidth, hinterrupt, hstatus, hrob, hready,
    hwaits]

theorem execute_live (hphase : s.phase = .iew) (hrob : s.rob.instList = [n])
    (hinst : s.insts n = {}) (hqueue : s.iew.iewQueue = []) (hcommit : s.iew.toCommit.insts = [])
    (hfrom : s.commit.fromIEW.insts = []) (hwindow : s.iew.squashTailSeqNum = 0) (hn : 0 < n) :
    ∃ insts log, insts n = { issued := true, executed := true } ∧
      s.step cfg (.execute n (.done false) .none) = some { s with
        list := { s.list with insts }
        iew := { s.iew with iewQueue := s.iew.iewQueue ++ [n] }
        log } := by
  have hlegal : s.InFlight n ∧ ExecResult.Legal (.done false) (s.insts n) ∧
      Redirect.none.Legal s n := by
    simp [InFlight, ExecResult.Legal, Redirect.Legal, hrob, hinst, hqueue, hcommit, hfrom]
  have hkept : ((s.insts n).squashed || s.stale n || s.inSquashWindow n) = false := by
    simp [stale, inSquashWindow, hinst, hwindow, Nat.ne_of_gt hn]
  have hissued : (s.modifyInst n DynInst.setIssued).insts n = { issued := true } := by
    rw [modifyInst_insts, Insts.modify_self, hinst]
    rfl
  have hstep : s.step cfg (.execute n (.done false) .none) =
      some ((((s.modifyInst n DynInst.setIssued).writeRegs n).modifyInst n fun inst =>
        { inst.setExecuted with fault := inst.fault || false }).instToCommit n) := by
    simp only [step, hphase, if_true, execute, if_pos hlegal, hkept, Bool.false_eq_true, if_false,
      redirect, executeInst, hissued, Bool.false_and, Bool.or_self]
  refine ⟨_, _, ?_, hstep⟩
  change ((s.modifyInst n DynInst.setIssued).insts.modify n _) n = _
  rw [Insts.modify_self, hissued]
  rfl

theorem commitInst_live (hphase : s.phase = .commitInsts 0) (hwidth : 0 < cfg.commitWidth)
    (hinterrupt : s.commit.interrupt = false) (hstatus : s.commit.status = .running)
    (hrob : s.rob.instList = [n])
    (hinst : s.insts n = { issued := true, executed := true, canCommit := true })
    (hdrain : s.commit.drainPending = false) (htrap : s.commit.trapPending = false)
    (havoid : s.commit.avoidQuiesceLiveLock = false) (hmode : s.inRunahead = false) :
    ∃ insts removeList numInst numOp log, s.step cfg (.commitInst {}) = some { s with
      phase := .commitInsts 1
      list := { s.list with insts, removeList, removeInstsThisCycle := true }
      rob := s.rob.retireHead
      numInst, numOp, log
      commit := { s.commit with
        canHandleInterrupts := true
        pc := {}
        lastCommitedSeqNum := n
        toIEW := { s.commit.toIEW with doneSeqNum := n }
        instsBetweenRunahead := s.commit.instsBetweenRunahead + 1 } } := by
  have hinst : s.list.insts n = { issued := true, executed := true, canCommit := true } := hinst
  simp [step, commitInst, hphase, hinterrupt, hstatus, hrob, hinst, commitSuccess,
    Nat.pos_iff_ne_zero.mp hwidth, insts, retireInst, updateComInstStats, drainPoint, instDone,
    retireHead, emit, hdrain, instBoundary, onInstBoundary, servicePCEvents, htrap, havoid, hmode,
    InstList.removeFrontInst, InstList.setRemoving]

/-- An instruction, or a load, is fetched. -/
theorem fetch_tick (load : Bool) (hs : s.Resting n between inst [] [] [] []) :
    ∃ s', (tick [{ isLoad := load }] 0 [] 0 [{}]).foldlM (step cautious) s = some s' ∧
      s'.Resting (n + 1) between { isLoad := load } [n + 1] [] [] [] := by
  obtain ⟨heq, hnext, hbetween, -⟩ := hs
  rw [← hnext]
  rw [heq]
  refine ⟨_, rfl, rfl, rfl, hbetween, ?_⟩
  exact Function.update_self ..

theorem rename_tick (hlive : inst.squashed = false) (hs : s.Resting n between inst [n] [] [] []) :
    ∃ s', (tick [] 1 [] 0 [{}]).foldlM (step cautious) s = some s' ∧
      s'.Resting n between inst [] [n] [] [] := by
  obtain ⟨heq, hnext, hbetween, hinst⟩ := hs
  rw [heq]
  have hlive : (s.insts n).squashed = false := hinst ▸ hlive
  exact ⟨_, foldlM_cons rfl (foldlM_cons (renameInsts_live rfl rfl rfl hlive) rfl), rfl, hnext,
    hbetween, hinst⟩

theorem insert_tick (hs : s.Resting n between {} [] [n] [] []) :
    ∃ s', (tick [] 0 [] 0 [{}]).foldlM (step cautious) s = some s' ∧
      s'.Resting n between {} [] [] [n] [] := by
  obtain ⟨heq, hnext, hbetween, hinst⟩ := hs
  rw [heq]
  have hsquash := @iewSquash_live cautious
    { s.resting [] [n] [] [] with phase := .iewSquash } n rfl rfl rfl rfl
    (congrArg DynInst.squashed hinst) (Nat.zero_ne_add_one 7)
  refine ⟨_, foldlM_cons rfl <| foldlM_cons rfl <| foldlM_cons rfl <| foldlM_cons rfl <|
    foldlM_cons rfl <| foldlM_cons rfl <| foldlM_cons hsquash <| foldlM_cons
    (commitInst_notReady rfl Nat.one_pos rfl rfl rfl (congrArg DynInst.canCommit hinst) rfl) rfl,
    rfl, hnext, hbetween, hinst⟩

theorem execute_tick (hn : 0 < n) (hs : s.Resting n between {} [] [] [n] []) :
    ∃ s', (tick [] 0 [n] 1 [{}]).foldlM (step cautious) s = some s' ∧
      s'.Resting n between { issued := true, executed := true } [] [] [n] [n] := by
  obtain ⟨heq, hnext, hbetween, hinst⟩ := hs
  rw [heq]
  obtain ⟨insts, log, hnew, hexecute⟩ := @execute_live cautious
    { s.resting [] [] [n] [] with phase := .iew } _ rfl rfl hinst rfl rfl rfl rfl hn
  refine ⟨_, foldlM_cons rfl <| foldlM_cons rfl <| foldlM_cons rfl <| foldlM_cons hexecute <|
    foldlM_cons rfl <| foldlM_cons rfl <| foldlM_cons rfl <| foldlM_cons rfl <| foldlM_cons
    (commitInst_notReady rfl Nat.one_pos rfl rfl rfl (congrArg DynInst.canCommit hnew) rfl) rfl,
    rfl, hnext, hbetween, hnew⟩

theorem complete_tick
    (hs : s.Resting n between { issued := true, executed := true } [] [] [n] [n]) :
    ∃ s', (tick [] 0 [] 0 [{}]).foldlM (step cautious) s = some s' ∧
      s'.Resting n between { issued := true, executed := true, canCommit := true } [] [] [n] [] := by
  obtain ⟨heq, hnext, hbetween, hinst⟩ := hs
  rw [heq]
  refine ⟨_, foldlM_cons rfl <| foldlM_cons rfl <| foldlM_cons rfl <| foldlM_cons rfl <|
    foldlM_cons rfl <| foldlM_cons rfl <| foldlM_cons rfl <| foldlM_cons
    (commitInst_notReady rfl Nat.one_pos rfl rfl rfl (congrArg DynInst.canCommit hinst) rfl) rfl,
    rfl, hnext, hbetween, ?_⟩
  change (if n ∈ [n] ∧ (s.insts n).squashed = false then (s.insts n).setCanCommit else s.insts n) = _
  simp [hinst, DynInst.setCanCommit]

theorem commit_tick
    (hs : s.Resting n between { issued := true, executed := true, canCommit := true } [] [] [n] []) :
    ∃ s' inst', (tick [] 0 [] 0 [{}, {}]).foldlM (step cautious) s = some s' ∧
      s'.Resting n (between + 1) inst' [] [] [] [] := by
  obtain ⟨heq, hnext, hbetween, hinst⟩ := hs
  rw [heq]
  obtain ⟨insts, removeList, numInst, numOp, log, hcommit⟩ := @commitInst_live cautious
    { s.resting [] [] [n] [] with phase := .commitInsts 0 } _ rfl Nat.one_pos rfl rfl rfl hinst
    rfl rfl rfl rfl
  refine ⟨_, _, foldlM_cons rfl <| foldlM_cons rfl <| foldlM_cons rfl <| foldlM_cons rfl <|
    foldlM_cons rfl <| foldlM_cons rfl <| foldlM_cons rfl <| foldlM_cons hcommit rfl,
    rfl, hnext, congrArg (· + 1) hbetween, rfl⟩

/-- A load reaches the head of the ROB, and commit looks at it. -/
theorem load_at_head (hs : s.Resting n between { isLoad := true } [] [n] [] []) :
    ∃ s', (earlyTick [] 0 [] 0 ++ [Label.squash, Label.iewSquash]).foldlM (step cautious) s = some s' ∧
      s'.phase = .commitInsts 0 ∧ s'.commit.status = .running ∧ s'.commit.interrupt = false ∧
      s'.inRunahead = false ∧ s'.rob.instList = [n] ∧ s'.insts n = { isLoad := true } ∧
      s'.commit.instsBetweenRunahead = between ∧ s'.commit.instsPseudoretired = 1 := by
  obtain ⟨heq, hnext, hbetween, hinst⟩ := hs
  rw [heq]
  have hsquash := @iewSquash_live cautious
    { s.resting [] [n] [] [] with phase := .iewSquash } n rfl rfl rfl rfl
    (congrArg DynInst.squashed hinst) (Nat.zero_ne_add_one 7)
  exact ⟨_, foldlM_cons rfl <| foldlM_cons rfl <| foldlM_cons rfl <| foldlM_cons rfl <|
    foldlM_cons rfl <| foldlM_cons rfl <| foldlM_cons hsquash rfl, rfl, rfl, rfl, rfl, rfl, hinst,
    hbetween, rfl⟩

/-- Instruction `n` is fetched and goes all the way to commit. -/
def retireOne (n : Nat) : List Label :=
  tick [{}] 0 [] 0 [{}] ++ tick [] 1 [] 0 [{}] ++ tick [] 0 [] 0 [{}] ++ tick [] 0 [n] 1 [{}] ++
    tick [] 0 [] 0 [{}] ++ tick [] 0 [] 0 [{}, {}]

theorem run_of_foldlM (h : ls.foldlM (step cfg) s = some s') : (system cfg).Run s ls s' :=
  .of_foldlM (M := system cfg) (fun _ _ _ h => h) h

theorem retireOne_run (hs : s.Resting n between inst [] [] [] []) : ∃ s' inst',
    (system cautious).Run s (retireOne (n + 1)) s' ∧
      s'.Resting (n + 1) (between + 1) inst' [] [] [] [] := by
  obtain ⟨s₁, hfetch, hs⟩ := fetch_tick false hs
  obtain ⟨s₂, hrename, hs⟩ := rename_tick rfl hs
  obtain ⟨s₃, hinsert, hs⟩ := insert_tick hs
  obtain ⟨s₄, hexecute, hs⟩ := execute_tick n.succ_pos hs
  obtain ⟨s₅, hcomplete, hs⟩ := complete_tick hs
  obtain ⟨s₆, inst', hcommit, hs⟩ := commit_tick hs
  exact ⟨s₆, inst', (((((run_of_foldlM hfetch).trans (run_of_foldlM hrename)).trans
    (run_of_foldlM hinsert)).trans (run_of_foldlM hexecute)).trans
    (run_of_foldlM hcomplete)).trans (run_of_foldlM hcommit), hs⟩

/-- Any number of instructions commit one after the other. -/
theorem retire_run (k : Nat) (hs : s.Resting n between inst [] [] [] []) : ∃ s' inst',
    (system cautious).Run s ((List.range' (n + 1) k).flatMap retireOne) s' ∧
      s'.Resting (n + k) (between + k) inst' [] [] [] [] := by
  induction k generalizing s n between inst with
  | zero => exact ⟨s, inst, .nil, hs⟩
  | succ k ih =>
    obtain ⟨t, inst', hone, ht⟩ := retireOne_run hs
    obtain ⟨s', inst'', hrest, hs'⟩ := ih ht
    refine ⟨s', inst'', ?_, ?_⟩
    · rw [List.range'_succ, List.flatMap_cons]
      exact hone.trans hrest
    · rwa [Nat.add_assoc, Nat.add_assoc, Nat.add_comm 1 k] at hs'

/-- A load enters runahead, pseudo-retires and ends the period. -/
def shortPeriod : List Label :=
  entry ++ [.dataReturn 1 true false] ++ tick [] 0 [] 1 [{}] ++ tick [] 0 [] 0 [{}] ++
    tick [] 0 [] 0 [{}, {}] ++ [.signalExitRunahead] ++ tick [] 0 [] 0 [] ++
    tick [] 0 [] 0 [{}] ++ tick [] 0 [] 0 [{}]

theorem shortPeriod_run : ∃ s inst, shortPeriod.foldlM (step cautious) (start {}) = some s ∧
    s.Resting 1 0 inst [] [] [] [] := ⟨_, _, rfl, rfl, rfl, rfl, rfl⟩

/-- 2^32 instructions commit after the period, and then a load misses. -/
def wrapped : List Label :=
  shortPeriod ++ (List.range' 2 (2 ^ 32)).flatMap retireOne ++
    tick [{ isLoad := true }] 0 [] 0 [{}] ++ tick [] 1 [] 0 [{}] ++
    (earlyTick [] 0 [] 0 ++ [.squash, .iewSquash])

/-- **After 2^32 instructions since the exit, and one in the period before it, a load is refused for
overlap: the counter of the instructions committed has wrapped around to 0.** -/
theorem entry_refused_after_wrap : ∃ s s', (system cautious).Reaches wrapped s ∧
    s.step cautious (.commitInst missed) = some s' ∧
    s'.inRunahead = false ∧ s.RefusedForOverlap cautious 1 ∧
    committedBetween s.log = 2 ^ 32 ∧ pseudoretired s.log = 1 ∧
    ¬ NonOverlapping cautious s (.commitInst missed) := by
  obtain ⟨s₀, inst, hperiod, hs⟩ := shortPeriod_run
  obtain ⟨s₁, inst', hmany, hs⟩ := retire_run (2 ^ 32) hs
  obtain ⟨s₂, hfetch, hs⟩ := fetch_tick true hs
  obtain ⟨s₃, hrename, hs⟩ := rename_tick rfl hs
  obtain ⟨s, hhead, hphase, hstatus, hinterrupt, hmode, hrob, hload, hbetween, hpseudo⟩ :=
    load_at_head hs
  have hreach : (system cautious).Reaches wrapped s :=
    ⟨start {}, ⟨{}, rfl⟩, ((((run_of_foldlM hperiod).trans hmany).trans (run_of_foldlM hfetch)).trans
      (run_of_foldlM hrename)).trans (run_of_foldlM hhead)⟩
  have hoverlaps : s.overlaps = true := by
    rw [overlaps, hbetween, hpseudo]
    decide
  have hrefused : s.canEnterRunahead cautious 1 = some false := by
    simp [canEnterRunahead, hoverlaps, hmode, cautious]
  have hrefuses : s.RefusedForOverlap cautious 1 := ⟨rfl, hmode, .inl rfl, by decide, hrefused⟩
  have hwaits : s.lllAtHead cautious (1 + 2 ^ 32 + 1) missed = some s := by
    have hno : s.canEnterRunahead cautious missed.inFlightCycles = some false := hrefused
    rw [lllAtHead, enterRunahead, hno, hmode, hload]
    rfl
  have hcounts := reaches_periodCounts hreach
  have hcommitted : committedBetween s.log = 2 ^ 32 := by
    rw [← hcounts.between, hbetween, Nat.zero_add]
  have hretired : pseudoretired s.log = 1 := hcounts.pseudo.symm.trans hpseudo
  refine ⟨s, _, hreach, commitInst_notReady hphase Nat.one_pos hinterrupt hstatus hrob
    (congrArg DynInst.canCommit hload) hwaits, hmode, hrefuses, hcommitted, hretired, fun h => ?_⟩
  have hless := h.refuses _ 1 rfl hrefuses
  rw [hcommitted, hretired] at hless
  exact absurd hless (by decide)

end Wrap

end Pipeline
end Runahead
end Gem5
