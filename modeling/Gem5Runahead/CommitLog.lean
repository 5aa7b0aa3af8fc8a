import Gem5Runahead.PipelineFrame

/-!
# CommitLog

What commit does, as its log tells it. A step adds to the log, and the flags and counters that
go with commit's deeds change only with what is added.

* `Deed`, `step_deed` — what a step can add, and what it does to the flags and counters.
* `archSeq`, `pseudoSeq` — the instructions that have committed, and pseudo-retired.
-/

namespace Gem5
namespace Runahead

/-- An event that does not count here. -/
def Event.quiet : Event → Bool
  | .enter .. | .exitSquash .. | .archRestore | .retire .. | .pcEvent .. | .processInterrupts _
  | .propagateInterrupt | .commitDrained _ => false
  | _ => true

/-- An event of a runahead period as such. -/
def Event.mode : Event → Bool
  | .enter .. | .exitSquash .. | .archRestore => true
  | _ => false

theorem Event.mode_of_quiet {e : Event} (h : e.quiet = true) : e.mode = false := by
  cases e <;> first | rfl | cases h

/-- The instruction that has retired un-squashed, if the event is that one has. -/
def Event.committed : Event → Option DynInst
  | .retire _ inst _ => if inst.squashed then none else some inst
  | _ => none

namespace Pipeline

variable {cfg : PipelineParams} {s s' : Pipeline} {l : Label}

/-- The flags and counters that go with the log. -/
structure Tally where
  inRunahead : Bool
  canHandleInterrupts : Bool
  archRestore : Bool
  archRestorePrev : Bool
  numInst : Nat
  numOp : Nat
  instsPseudoretired : Nat
  instsBetweenRunahead : Nat

def tally (s : Pipeline) : Tally where
  inRunahead := s.inRunahead
  canHandleInterrupts := s.commit.canHandleInterrupts
  archRestore := s.commit.archRestore
  archRestorePrev := s.commit.archRestorePrev
  numInst := s.numInst
  numOp := s.numOp
  instsPseudoretired := s.commit.instsPseudoretired
  instsBetweenRunahead := s.commit.instsBetweenRunahead

/-- An instruction that `instDone` is told of. -/
def isOp (inst : DynInst) : Bool := !inst.isNop && !inst.isInstPrefetch

/-- An operation that ends an instruction. -/
def isInst (inst : DynInst) : Bool := isOp inst && (!inst.isMicroop || inst.isLastMicroop)

/-- An instruction that the counters of the periods count. -/
def endsInst (inst : DynInst) : Bool := !inst.isMicroop || inst.isLastMicroop

/-- Commit takes the drain point after `inst`. -/
def drains (s : Pipeline) (e : CommitEnv) (inst : DynInst) : Bool :=
  s.commit.drainPending && decide (inst.nextPC.microPC = 0) &&
    !(s.afterInterrupt e).commit.interrupt && !(s.afterInterrupt e).commit.trapPending

/-- What a step adds to the log, and what the flags and counters are after it. -/
inductive Deed (cfg : PipelineParams) (s : Pipeline) : Label → List Event → Tally → Prop
  | quiet {l : Label} {new : List Event} (hnew : ∀ e ∈ new, e.quiet = true) : Deed cfg s l new s.tally
  | propagate {a b : Bool} (hmode : s.inRunahead = false) (hnow : s.commit.archRestore = false)
      (hprev : s.commit.archRestorePrev = false) :
      Deed cfg s (.commitTick a b) [.propagateInterrupt] s.tally
  | process {e : CommitEnv} {pc : PCState} (hcan : s.commit.canHandleInterrupts = true)
      (hmode : s.inRunahead = false) (hnow : s.commit.archRestore = false)
      (hprev : s.commit.archRestorePrev = false) :
      Deed cfg s (.commitInst e) [.processInterrupts pc] s.tally
  | exit (hexits : s.exits = true) : Deed cfg s .squash
      [.exitSquash s.runaheadPeriods s.commit.storedPC s.commit.canHandleInterrupts]
      { s.tally with inRunahead := false, archRestore := true, instsBetweenRunahead := 0 }
  | enter {e : CommitEnv} {pc : PCState} (hmode : s.inRunahead = false)
      (hrob : s.rob.instList ≠ []) : Deed cfg s (.commitInst e)
      [.enter (s.runaheadPeriods + 1) pc s.commit.canHandleInterrupts]
      { s.tally with inRunahead := true, instsPseudoretired := 0 }
  | squashed {e : CommitEnv} {head : Nat} (hsquashed : (s.insts head).squashed = true) :
      Deed cfg s (.commitInst e) [.retire head (s.insts head) (s.mark head)] s.tally
  | commit {e : CommitEnv} {n head : Nat} {new : List Event} (hphase : s.phase = .commitInsts n)
      (hcommits : s.Commits cfg n head)
      (hnew : ∀ e ∈ new, e.quiet = true ∨ (∃ pc, e = .pcEvent head (s.mark head) pc) ∨
        e = .commitDrained (s.insts head).nextPC)
      (hpc : (∃ pc, .pcEvent head (s.mark head) pc ∈ new) ↔
        onInstBoundary (s.insts head) = true ∧ e.pcEvents ≠ [])
      (hdrain : .commitDrained (s.insts head).nextPC ∈ new ↔ s.drains e (s.insts head) = true) :
      Deed cfg s (.commitInst e) (new ++ [.retire head (s.insts head) (s.mark head)])
        { s.tally with
          canHandleInterrupts := !(s.insts head).isDelayedCommit
          numInst := s.numInst + (isInst (s.insts head) && !(s.insts head).runahead).toNat
          numOp := s.numOp + (isOp (s.insts head)).toNat
          instsPseudoretired := s.commit.instsPseudoretired +
            (endsInst (s.insts head) && (s.insts head).runahead).toNat
          instsBetweenRunahead := s.commit.instsBetweenRunahead +
            (endsInst (s.insts head) && !s.inRunahead).toNat }
  | finish : Deed cfg s .finish (if s.commit.archRestorePrev then [.archRestore] else [])
      { s.tally with archRestore := false, archRestorePrev := s.commit.archRestore }

section CommitSuccess

theorem retireInst_tally (s : Pipeline) (head : Nat) :
    (s.retireInst head).tally = { s.tally with
      canHandleInterrupts := !(s.insts head).isDelayedCommit
      numInst := s.numInst + (isInst (s.insts head) && !(s.insts head).runahead).toNat
      numOp := s.numOp + (isOp (s.insts head)).toNat
      instsPseudoretired := s.commit.instsPseudoretired +
        (endsInst (s.insts head) && (s.insts head).runahead).toNat
      instsBetweenRunahead := s.commit.instsBetweenRunahead +
        (endsInst (s.insts head) && !s.inRunahead).toNat } := by
  simp only [retireInst, updateComInstStats]
  split
  · rename_i hop
    have hop' : isOp (s.insts head) = true := hop
    simp only [isInst, hop', Bool.true_and]
    rfl
  · rename_i hop
    have hop' : isOp (s.insts head) = false := by simpa [isOp] using hop
    simp only [isInst, hop', Bool.false_and]
    rfl

theorem retireInst_log (s : Pipeline) (head : Nat) :
    (s.retireInst head).log = .retire head (s.insts head) (s.mark head) :: s.log := by
  simp only [retireInst, updateComInstStats]
  split <;> rfl

theorem retireInst_mark (s : Pipeline) (head : Nat) :
    (s.retireInst head).mark head = s.mark head := by
  refine mark_congr ?_ ?_
  · have hinst : (s.retireInst head).insts head =
        (s.insts head).setCommitted.removeFromCPU := by
      simp only [retireInst, updateComInstStats]
      split <;> simp [instDone, retireHead, emit, insts, InstList.removeFrontInst,
        InstList.setRemoving]
    rw [hinst]
    rfl
  · simp only [retireInst, updateComInstStats]
    split <;> rfl

theorem Serviced.tally {i : Nat} {new : List Event} (h : Serviced s i new s') :
    s'.tally = s.tally := by
  obtain ⟨⟨_, _, _, rfl⟩, -⟩ := h
  rfl

theorem retireInst_drainDue (s : Pipeline) (head : Nat) :
    (s.retireInst head).drainDue ↔ s.commit.drainPending = true ∧
      (s.insts head).nextPC.microPC = 0 ∧ s.commit.interrupt = false ∧
      s.commit.trapPending = false := by
  simp only [drainDue, retireInst, updateComInstStats]
  split <;> exact Iff.rfl

theorem retireInst_pc (s : Pipeline) (head : Nat) :
    (s.retireInst head).commit.pc = (s.insts head).nextPC := by
  simp only [retireInst, updateComInstStats]

/-- A successful commit: the head is logged, and then what comes with it. -/
theorem commitSuccess_deed {head : Nat} {e : CommitEnv} {skipped : Bool}
    (h : s.commitSuccess head e = some (s', skipped)) :
    ∃ new, s'.log = new ++ .retire head (s.insts head) (s.mark head) :: s.log ∧
      (∀ e ∈ new, e.quiet = true ∨ (∃ pc, e = .pcEvent head (s.mark head) pc) ∨
        e = .commitDrained (s.insts head).nextPC) ∧
      ((∃ pc, .pcEvent head (s.mark head) pc ∈ new) ↔
        onInstBoundary (s.insts head) = true ∧ e.pcEvents ≠ []) ∧
      (.commitDrained (s.insts head).nextPC ∈ new ↔ (s.retireInst head).drainDue) ∧
      s'.tally = (s.retireInst head).tally := by
  obtain ⟨t, ht, hend⟩ := commitSuccess_cases h
  obtain ⟨status, hafter, -⟩ := squashAfterInst_frame s head
  obtain ⟨new, u, status', hserviced, rfl, -, hpc⟩ := instBoundary_cases hend
  have hdrains : (s.squashAfterInst head).drainDue ↔ (s.retireInst head).drainDue := by
    rw [hafter]
    exact Iff.rfl
  have htally : (s.squashAfterInst head).tally = (s.retireInst head).tally := by
    rw [hafter]
    rfl
  have hlog : (s.squashAfterInst head).log = .retire head (s.insts head) (s.mark head) :: s.log := by
    rw [hafter]
    exact retireInst_log s head
  have hnext : (s.squashAfterInst head).commit.pc = (s.insts head).nextPC := by
    rw [hafter]
    exact retireInst_pc s head
  have hmarked : (s.squashAfterInst head).mark head = s.mark head := by
    rw [hafter]
    exact retireInst_mark s head
  generalize s.squashAfterInst head = r at ht hdrains htally hlog hnext hmarked
  -- the handlers see the mark of the head, and call no drain
  have hmark : t.mark head = s.mark head := by
    rw [← hmarked]
    rcases drainPoint_cases ht with ⟨-, rfl⟩ | ⟨-, rfl⟩ <;> rfl
  have hevents : ∀ e ∈ new, e.quiet = true ∨ ∃ pc, e = .pcEvent head (s.mark head) pc := by
    intro e he
    cases hserviced.handled e he with
    | pcEvent pc => exact .inr ⟨pc, hmark ▸ rfl⟩
    | tcWrite pc => exact .inl rfl
  have hnodrain : ∀ pc, .commitDrained pc ∉ new := by
    intro pc hmem
    rcases hevents _ hmem with hq | ⟨_, heq⟩
    · cases hq
    · cases heq
  rw [hmark] at hpc
  rcases drainPoint_cases ht with ⟨hnot, rfl⟩ | ⟨hdue, rfl⟩
  · refine ⟨new, ?_, fun e he => (hevents e he).imp_right .inl, hpc, ?_,
      hserviced.tally.trans htally⟩
    · rw [← hlog]
      exact hserviced.log
    · rw [← hdrains]
      exact ⟨fun hmem => absurd hmem (hnodrain _), fun h => absurd h hnot⟩
  · refine ⟨new ++ [.commitDrained r.commit.pc], ?_, fun e he => ?_, ?_, ?_,
      hserviced.tally.trans htally⟩
    · rw [List.append_assoc, ← hlog]
      exact hserviced.log
    · rcases List.mem_append.mp he with he | he
      · exact (hevents e he).imp_right .inl
      · rw [List.mem_singleton.mp he, hnext]
        exact .inr (.inr rfl)
    · rw [← hpc]
      simp
    · rw [← hdrains, hnext]
      simp [hdue]

end CommitSuccess

section Steps

theorem atHead_insts (s : Pipeline) (e : CommitEnv) (head : Nat) :
    (s.atHead e head).insts = s.insts :=
  afterInterrupt_insts s e

theorem afterInterrupt_tally (s : Pipeline) (e : CommitEnv) :
    (s.afterInterrupt e).tally = s.tally := by
  obtain ⟨_, _, _, _, _, _, _, _, _, heq, -⟩ := afterInterrupt_frame s e
  rw [heq]
  rfl

theorem afterInterrupt_markedIn (s : Pipeline) (e : CommitEnv) :
    (s.afterInterrupt e).markedIn = s.markedIn := by
  obtain ⟨_, _, _, _, _, _, _, _, _, heq, -⟩ := afterInterrupt_frame s e
  rw [heq]

theorem atHead_mark (s : Pipeline) (e : CommitEnv) (head i : Nat) :
    (s.atHead e head).mark i = s.mark i := by
  refine mark_congr ?_ ?_
  · rw [atHead_insts]
  · exact congrFun (afterInterrupt_markedIn s e) i

/-- No interrupt is processed while there is an instruction in the ROB. -/
theorem afterInterrupt_log {head : Nat} {tail : List Nat} (hcore : s.window.Core)
    (hhead : s.rob.instList = head :: tail) (e : CommitEnv) :
    (s.afterInterrupt e).log = s.log := by
  obtain ⟨_, _, _, _, _, _, _, _, _, heq, ⟨rfl, -⟩ | ⟨-, -, -, -, -, -, -, hempty⟩⟩ :=
    afterInterrupt_frame s e
  · rw [heq]
  · have hmem : head ∈ s.window.rob.instList := by
      change head ∈ s.rob.instList
      rw [hhead]
      exact List.mem_cons_self
    have hlisted := (hcore.order.rob head hmem).1
    have hnil : s.window.list.instList = [] := hempty
    rw [hnil] at hlisted
    cases hlisted

theorem lllAtHead_deed {head : Nat} {e : CommitEnv} (h : s.lllAtHead cfg head e = some s') :
    s'.log = s.log ∧ s'.tally = s.tally ∨
      s.inRunahead = false ∧
      s'.log = .enter (s.runaheadPeriods + 1) s.commit.pc s.commit.canHandleInterrupts :: s.log ∧
      s'.tally = { s.tally with inRunahead := true, instsPseudoretired := 0 } := by
  cases lllAtHead_cases h with
  | waits | again => exact .inl ⟨rfl, rfl⟩
  | enter _ _ _ hmode => exact .inr ⟨hmode, rfl, rfl⟩

theorem commitFault_deed {head : Nat} {e : CommitEnv} :
    (s.commitFault head e).tally = s.tally ∧
      ∃ new, (s.commitFault head e).log = new ++ s.log ∧ ∀ e ∈ new, e.quiet = true := by
  simp only [commitFault]
  split
  · exact ⟨rfl, [.trap e.trapPC], rfl, by simp [Event.quiet]⟩
  · split <;> exact ⟨rfl, [], rfl, by simp⟩

theorem success_deed {n head : Nat} {e : CommitEnv} {u : Pipeline} {skipped : Bool}
    (hcore : s.window.Core) (hphase : s.phase = .commitInsts n) (hcommits : s.Commits cfg n head)
    (hu : (s.atHead e head).commitSuccess head e = some (u, skipped)) :
    ∃ new, u.log = new ++ .retire head (s.insts head) (s.mark head) :: s.log ∧
      Deed cfg s (.commitInst e) (new ++ [.retire head (s.insts head) (s.mark head)]) u.tally ∧
      ((∃ pc, .pcEvent head (s.mark head) pc ∈ new) ↔
        onInstBoundary (s.insts head) = true ∧ e.pcEvents ≠ []) ∧
      (.commitDrained (s.insts head).nextPC ∈ new ↔ s.drains e (s.insts head) = true) ∧
      u.numOp = s.numOp + (isOp (s.insts head)).toNat := by
  obtain ⟨tail, hhead⟩ := hcommits.atHead
  have hlog : (s.atHead e head).log = s.log := afterInterrupt_log hcore hhead e
  have hinst : (s.atHead e head).insts head = s.insts head := congrFun (atHead_insts s e head) head
  have hmark := atHead_mark s e head head
  have hat : (s.atHead e head).tally = s.tally := afterInterrupt_tally s e
  have hpending : (s.atHead e head).commit.drainPending = s.commit.drainPending := by
    obtain ⟨_, _, _, _, _, _, _, _, _, heq, -⟩ := afterInterrupt_frame s e
    rw [atHead, heq]
  obtain ⟨new, hnew, hevents, hpc, hdrain, htallyu⟩ := commitSuccess_deed hu
  rw [hinst, hmark, hlog] at hnew
  rw [hinst, hmark] at hevents
  rw [hinst, hmark] at hpc
  rw [hinst, retireInst_drainDue, hinst, hpending] at hdrain
  have hdrains : .commitDrained (s.insts head).nextPC ∈ new ↔
      s.drains e (s.insts head) = true := by
    rw [hdrain]
    simp only [drains, Bool.and_eq_true, decide_eq_true_eq, Bool.not_eq_true', and_assoc]
    exact Iff.rfl
  rw [retireInst_tally, hinst, hat] at htallyu
  have hnumInst : (s.atHead e head).numInst = s.numInst := congrArg Tally.numInst hat
  have hnumOp : (s.atHead e head).numOp = s.numOp := congrArg Tally.numOp hat
  have hpseudo : (s.atHead e head).commit.instsPseudoretired = s.commit.instsPseudoretired :=
    congrArg Tally.instsPseudoretired hat
  have hbetween : (s.atHead e head).commit.instsBetweenRunahead = s.commit.instsBetweenRunahead :=
    congrArg Tally.instsBetweenRunahead hat
  have hmode : (s.atHead e head).inRunahead = s.inRunahead := congrArg Tally.inRunahead hat
  rw [hnumInst, hnumOp, hpseudo, hbetween, hmode] at htallyu
  refine ⟨new, hnew, ?_, hpc, hdrains, congrArg Tally.numOp htallyu⟩
  have hdeed := Deed.commit (e := e) hphase hcommits hevents hpc hdrains
  rw [← htallyu] at hdeed
  exact hdeed

theorem round_deed {n : Nat} {e : CommitEnv} (hcore : s.window.Core)
    (hphase : s.phase = .commitInsts n) (h : Round cfg s n e s') :
    ∃ new, s'.log = new ++ s.log ∧ Deed cfg s (.commitInst e) new s'.tally := by
  have htally := afterInterrupt_tally s e
  have hnone : ∀ e ∈ ([] : List Event), e.quiet = true := by simp
  cases h with
  | full => exact ⟨[], rfl, .quiet hnone⟩
  | nothing =>
    have hrest : ∀ t : Tally, t = s.tally → ∀ new, Deed cfg s (.commitInst e) new s.tally →
        Deed cfg s (.commitInst e) new t := by
      rintro _ rfl new h
      exact h
    obtain ⟨_, _, _, pc, _, _, _, _, log, heq, ⟨rfl, -⟩ |
      ⟨rfl, -, -, hcan, hmode, hnow, hprev, -⟩⟩ := afterInterrupt_frame s e
    · refine ⟨[], ?_, hrest _ htally _ (.quiet hnone)⟩
      rw [heq]
      rfl
    · refine ⟨[.processInterrupts pc], ?_, hrest _ htally _ (.process hcan hmode hnow hprev)⟩
      rw [heq]
      rfl
  | @notReady head tail u hhead hready hu =>
    have hlog := afterInterrupt_log hcore hhead e
    have hmode' : (s.afterInterrupt e).inRunahead = s.inRunahead :=
      congrArg Tally.inRunahead htally
    have hcan : (s.afterInterrupt e).commit.canHandleInterrupts = s.commit.canHandleInterrupts :=
      congrArg Tally.canHandleInterrupts htally
    have hperiods : (s.afterInterrupt e).runaheadPeriods = s.runaheadPeriods := by
      obtain ⟨_, _, _, _, _, _, _, _, _, heq, -⟩ := afterInterrupt_frame s e
      rw [heq]
    rcases lllAtHead_deed hu with ⟨hsame, htallyu⟩ | ⟨hmode, hnew, htallyu⟩
    · refine ⟨[], hsame.trans hlog, ?_⟩
      have hdeed : Deed cfg s (.commitInst e) [] s.tally := .quiet hnone
      rw [← htally, ← htallyu] at hdeed
      exact hdeed
    · rw [hlog, hcan, hperiods] at hnew
      refine ⟨[_], hnew, ?_⟩
      have hdeed := @Deed.enter cfg s e (s.afterInterrupt e).commit.pc
        (hmode'.symm.trans hmode) (hhead ▸ List.cons_ne_nil head tail)
      rw [← htally, ← htallyu] at hdeed
      exact hdeed
  | @squashed head tail hhead hsquashed =>
    have hlog := afterInterrupt_log hcore hhead e
    have hinst : (s.afterInterrupt e).insts head = s.insts head :=
      congrFun (atHead_insts s e head) head
    have hmark : (s.afterInterrupt e).mark head = s.mark head := atHead_mark s e head head
    refine ⟨[.retire head (s.insts head) (s.mark head)], ?_, ?_⟩
    · rw [← hinst, ← hmark, ← hlog]
      rfl
    · have hdeed := @Deed.squashed cfg _ e _ hsquashed
      rw [← htally] at hdeed
      exact hdeed
  | @wait head tail hhead hlive =>
    have hlog := afterInterrupt_log hcore hhead e
    have hdeed : Deed cfg s (.commitInst e) [] s.tally := .quiet hnone
    rw [← htally] at hdeed
    exact ⟨[], hlog, hdeed⟩
  | @unexecuted head tail hhead hlive =>
    have hlog := afterInterrupt_log hcore hhead e
    have hdeed : Deed cfg s (.commitInst e) [] s.tally := .quiet hnone
    rw [← htally] at hdeed
    exact ⟨[], hlog, hdeed⟩
  | @fault head tail hhead hready hlive hexecuted hfault =>
    have hlog : (s.atHead e head).log = s.log := afterInterrupt_log hcore hhead e
    obtain ⟨hsame, new, hnew, hquiet⟩ := @commitFault_deed (s.atHead e head) head e
    rw [hlog] at hnew
    have hdeed : Deed cfg s (.commitInst e) new s.tally := .quiet hquiet
    rw [← htally] at hdeed
    have hat : (s.atHead e head).tally = (s.afterInterrupt e).tally := rfl
    rw [← hat, ← hsame] at hdeed
    exact ⟨new, hnew, hdeed⟩
  | @success head u skipped hcommits hu =>
    obtain ⟨new, hnew, hdeed, -⟩ := success_deed hcore hphase hcommits hu
    refine ⟨new ++ [.retire head (s.insts head) (s.mark head)], ?_, hdeed⟩
    rw [List.append_assoc]
    exact hnew

/-- What a step adds to the log, and what it does to the flags and counters. -/
theorem step_deed (hcore : s.window.Core) (hst : s.step cfg l = some s') :
    ∃ new, s'.log = new ++ s.log ∧ Deed cfg s l new s'.tally := by
  have hnone : ∀ e ∈ ([] : List Event), e.quiet = true := by simp
  have hquiet : ∀ l new t, t = s.tally → (∀ e ∈ new, e.quiet = true) → Deed cfg s l new t := by
    rintro l new _ rfl hnew
    exact .quiet hnew
  cases step_effect hst with
  | outside hout =>
    obtain ⟨⟨_, _, _, _, _, _, _, log, rfl⟩, -, hlog⟩ := hout
    rcases hlog with hsame | ⟨i, hset⟩
    · exact ⟨[], hsame, hquiet _ _ _ rfl hnone⟩
    · exact ⟨[_], hset, hquiet _ _ _ rfl (by simp [Event.quiet])⟩
  | fetchInst _ h =>
    obtain ⟨_, _, _, _, rfl⟩ := fetchInst_frame h
    exact ⟨[], rfl, hquiet _ _ _ rfl hnone⟩
  | signal h =>
    obtain ⟨-, ⟨-, rfl⟩ | ⟨-, exit, load, -, -, heq⟩⟩ := signalExitRunahead_cases h
    · exact ⟨[], rfl, hquiet _ _ _ rfl hnone⟩
    · cases exit with
      | true =>
        rw [if_pos rfl] at heq
        subst heq
        exact ⟨[.exitSignal], rfl, hquiet _ _ _ rfl (by simp [Event.quiet])⟩
      | false =>
        rw [if_neg (by simp)] at heq
        subst heq
        exact ⟨[.arm, .exitSignal], rfl, hquiet _ _ _ rfl (by simp [Event.quiet])⟩
  | deadline h =>
    obtain ⟨_, _, -, -, rfl, -⟩ := deadline_cases h
    exact ⟨[], rfl, hquiet _ _ _ rfl hnone⟩
  | drain => exact ⟨[], rfl, hquiet _ _ _ rfl hnone⟩
  | drainResume => exact ⟨[], rfl, hquiet _ _ _ rfl hnone⟩
  | @tcWrite pc tcSquash =>
    refine ⟨pc.toList.map .tcWrite, rfl, hquiet _ _ _ rfl fun e he => ?_⟩
    obtain ⟨_, -, rfl⟩ := List.mem_map.mp he
    rfl
  | @commitTick a b t h =>
    obtain ⟨_, _, _, _, _, _, rfl, rfl | ⟨rfl, hmode, hnow, hprev⟩⟩ := commitTick_frame h
    · exact ⟨[], rfl, hquiet _ _ _ rfl hnone⟩
    · exact ⟨[_], rfl, .propagate hmode hnow hprev⟩
  | squash h =>
    obtain ⟨⟨_, _, _, _, _, _, _, _, _, log, rfl⟩, hlog⟩ := h
    rcases hlog with hsame | hredirect
    · exact ⟨[], hsame, hquiet _ _ _ rfl hnone⟩
    · exact ⟨[_], hredirect, hquiet _ _ _ rfl (by simp [Event.quiet])⟩
  | exit hexits h =>
    obtain ⟨_, _, _, _, _, rfl⟩ := squashFromRunaheadExit_frame h
    exact ⟨[_], rfl, .exit hexits⟩
  | iewSquash h =>
    obtain ⟨_, _, _, _, _, _, _, _, _, rfl, new, rfl, hnew⟩ := iewSquash_frame h
    refine ⟨new, rfl, hquiet _ _ _ rfl fun e he => ?_⟩
    cases hnew e he <;> rfl
  | round hphase h => exact round_deed hcore hphase h
  | finish =>
    obtain ⟨exit, log, heq, -, hlog⟩ :=
      @updateRunaheadState_cases cfg s.markCompletedInsts
    rw [finish, heq]
    refine ⟨if s.commit.archRestorePrev then [.archRestore] else [], ?_, .finish⟩
    have hlog : log = if s.commit.archRestorePrev then .archRestore :: s.log else s.log := hlog
    change log = _
    rw [hlog]
    split <;> rfl

/-- What commits was marked in the mode the thread is in. -/
theorem Commits.runahead {n head : Nat} (h : s.Commits cfg n head) (hcore : s.window.Core)
    (hphase : s.phase = .commitInsts n) : (s.insts head).runahead = s.inRunahead := by
  obtain ⟨tail, hhead⟩ := h.atHead
  have hmark : s.window.mark head = s.window.modeMark := by
    refine hcore.committing hphase (List.mem_append_left _ ?_) h.live
    change head ∈ s.rob.instList
    rw [hhead]
    exact List.mem_cons_self
  change (if (s.insts head).runahead then some (s.markedIn head) else none) =
    if s.inRunahead then some s.runaheadPeriods else none at hmark
  cases hr : (s.insts head).runahead <;> cases hm : s.inRunahead <;> simp [hr, hm] at hmark ⊢

/-- The log of a step in which the head commits. -/
theorem commits_deed {n head : Nat} {e : CommitEnv} (hcore : s.window.Core)
    (hphase : s.phase = .commitInsts n) (hcommits : s.Commits cfg n head)
    (hst : s.step cfg (.commitInst e) = some s') :
    ∃ new, s'.log = new ++ .retire head (s.insts head) (s.mark head) :: s.log ∧
      ((∃ pc, .pcEvent head (s.mark head) pc ∈ new) ↔
        onInstBoundary (s.insts head) = true ∧ e.pcEvents ≠ []) ∧
      (.commitDrained (s.insts head).nextPC ∈ new ↔ s.drains e (s.insts head) = true) ∧
      s'.numOp = s.numOp + (isOp (s.insts head)).toNat := by
  simp only [step, hphase] at hst
  obtain ⟨u, skipped, hu, rfl⟩ := hcommits.success hst
  obtain ⟨new, hnew, -, hpc, hdrain, hop⟩ := success_deed hcore hphase hcommits hu
  exact ⟨new, hnew, hpc, hdrain, hop⟩

/-- The events of a step in which the head commits. -/
theorem commit_events {head : Nat} {new : List Event} {e : Event}
    (hnew : ∀ e ∈ new, e.quiet = true ∨ (∃ pc, e = .pcEvent head (s.mark head) pc) ∨
      e = .commitDrained (s.insts head).nextPC)
    (hmem : e ∈ new ++ [.retire head (s.insts head) (s.mark head)]) :
    e.quiet = true ∨ (∃ pc, e = .pcEvent head (s.mark head) pc) ∨
      e = .commitDrained (s.insts head).nextPC ∨ e = .retire head (s.insts head) (s.mark head) := by
  rcases List.mem_append.mp hmem with hmem | hmem
  · rcases hnew e hmem with h | h | h
    · exact .inl h
    · exact .inr (.inl h)
    · exact .inr (.inr (.inl h))
  · exact .inr (.inr (.inr (List.mem_singleton.mp hmem)))

/-- An interrupt is processed in the normal mode only, with no restore on the wires. -/
theorem Deed.process_cases {new : List Event} {t : Tally} {pc : PCState}
    (h : Deed cfg s l new t) (hmem : .processInterrupts pc ∈ new) :
    s.commit.canHandleInterrupts = true ∧ s.inRunahead = false ∧ s.commit.archRestore = false ∧
      s.commit.archRestorePrev = false := by
  cases h with
  | quiet hnew => cases hnew _ hmem
  | propagate | exit | enter | squashed => simp at hmem
  | process hcan hmode hnow hprev => exact ⟨hcan, hmode, hnow, hprev⟩
  | commit _ _ hnew => rcases commit_events hnew hmem with h | ⟨_, h⟩ | h | h <;> cases h
  | finish => split at hmem <;> simp at hmem

theorem Deed.propagate_cases {new : List Event} {t : Tally} (h : Deed cfg s l new t)
    (hmem : .propagateInterrupt ∈ new) : s.inRunahead = false ∧ s.commit.archRestore = false ∧
      s.commit.archRestorePrev = false := by
  cases h with
  | quiet hnew => cases hnew _ hmem
  | propagate hmode hnow hprev => exact ⟨hmode, hnow, hprev⟩
  | process | exit | enter | squashed => simp at hmem
  | commit _ _ hnew => rcases commit_events hnew hmem with h | ⟨_, h⟩ | h | h <;> cases h
  | finish => split at hmem <;> simp at hmem

theorem Deed.exit_cases {new : List Event} {t : Tally} {period : Nat} {pc : PCState}
    {canHandle : Bool} (h : Deed cfg s l new t) (hmem : .exitSquash period pc canHandle ∈ new) :
    l = .squash ∧ s.exits = true ∧ canHandle = s.commit.canHandleInterrupts := by
  cases h with
  | quiet hnew => cases hnew _ hmem
  | exit hexits =>
    cases List.mem_singleton.mp hmem
    exact ⟨rfl, hexits, rfl⟩
  | propagate | process | enter | squashed => simp at hmem
  | commit _ _ hnew => rcases commit_events hnew hmem with h | ⟨_, h⟩ | h | h <;> cases h
  | finish => split at hmem <;> simp at hmem

/-- What a step does to the wires of the restore. -/
theorem Deed.restore_cases {new : List Event} {t : Tally} (h : Deed cfg s l new t) :
    t.archRestore = s.commit.archRestore ∧ t.archRestorePrev = s.commit.archRestorePrev ∨
      l = .squash ∧ s.exits = true ∧ t.archRestorePrev = s.commit.archRestorePrev ∨
      l = .finish ∧ t.archRestore = false ∧ t.archRestorePrev = s.commit.archRestore := by
  cases h with
  | quiet | propagate | process | enter | squashed | commit => exact .inl ⟨rfl, rfl⟩
  | exit hexits => exact .inr (.inl ⟨rfl, hexits, rfl⟩)
  | finish => exact .inr (.inr ⟨rfl, rfl, rfl⟩)

end Steps

section Sequences

/-- The instructions that have retired un-squashed, the last one first. -/
def committedSeq (log : List Event) : List DynInst := log.filterMap Event.committed

/-- The instructions that have committed architecturally, the last one first. -/
def archSeq (log : List Event) : List DynInst := (committedSeq log).filter (!·.runahead)

/-- The instructions that have pseudo-retired, the last one first. -/
def pseudoSeq (log : List Event) : List DynInst := (committedSeq log).filter (·.runahead)

theorem committedSeq_append (new log : List Event) :
    committedSeq (new ++ log) = committedSeq new ++ committedSeq log := List.filterMap_append

theorem committedSeq_quiet {new : List Event} (h : ∀ e ∈ new, e.quiet = true) :
    committedSeq new = [] := by
  refine List.filterMap_eq_nil_iff.mpr fun e he => ?_
  have := h e he
  cases e <;> first | rfl | cases this

theorem archSeq_append (new log : List Event) : archSeq (new ++ log) = archSeq new ++ archSeq log := by
  simp [archSeq, committedSeq_append]

theorem pseudoSeq_append (new log : List Event) :
    pseudoSeq (new ++ log) = pseudoSeq new ++ pseudoSeq log := by
  simp [pseudoSeq, committedSeq_append]

/-- A committed instruction is in the sequence of its mode. -/
theorem seqs_of_commit {new : List Event} {inst : DynInst} (h : committedSeq new = [inst]) :
    archSeq new = (if inst.runahead then [] else [inst]) ∧
      pseudoSeq new = if inst.runahead then [inst] else [] := by
  rw [archSeq, pseudoSeq, h]
  cases hr : inst.runahead <;> simp [hr]

theorem commit_sequence {n head : Nat} {new : List Event} (hcommits : s.Commits cfg n head)
    (hnew : ∀ e ∈ new, e.quiet = true ∨ (∃ pc, e = .pcEvent head (s.mark head) pc) ∨
      e = .commitDrained (s.insts head).nextPC) :
    committedSeq (new ++ [.retire head (s.insts head) (s.mark head)]) = [s.insts head] := by
  have hrest : committedSeq new = [] := by
    refine List.filterMap_eq_nil_iff.mpr fun e he => ?_
    rcases hnew e he with hquiet | ⟨pc, rfl⟩ | rfl
    · cases e <;> first | rfl | cases hquiet
    · rfl
    · rfl
  rw [committedSeq_append, hrest]
  simp [committedSeq, Event.committed, hcommits.live]

/-- An instruction is committed by the step, or no sequence changes. -/
theorem Deed.sequences {new : List Event} {t : Tally} (h : Deed cfg s l new t) :
    committedSeq new = [] ∧ t.numInst = s.numInst ∧ t.numOp = s.numOp ∧
        t.canHandleInterrupts = s.commit.canHandleInterrupts ∨
      ∃ e n head, l = .commitInst e ∧ s.phase = .commitInsts n ∧ s.Commits cfg n head ∧
        committedSeq new = [s.insts head] ∧
        t.canHandleInterrupts = (!(s.insts head).isDelayedCommit) ∧
        t.numInst = s.numInst + (isInst (s.insts head) && !(s.insts head).runahead).toNat ∧
        t.numOp = s.numOp + (isOp (s.insts head)).toNat := by
  cases h with
  | quiet hnew => exact .inl ⟨committedSeq_quiet hnew, rfl, rfl, rfl⟩
  | propagate | process | exit | enter => exact .inl ⟨rfl, rfl, rfl, rfl⟩
  | squashed hsquashed =>
    refine .inl ⟨?_, rfl, rfl, rfl⟩
    simp [committedSeq, Event.committed, hsquashed]
  | @commit e n head new hphase hcommits hnew _ _ =>
    exact .inr ⟨e, n, head, rfl, hphase, hcommits, commit_sequence hcommits hnew, rfl, rfl, rfl⟩
  | finish =>
    refine .inl ⟨?_, rfl, rfl, rfl⟩
    split <;> rfl

/-- The drain point is taken after an instruction that commits. -/
theorem Deed.drained_cases {new : List Event} {t : Tally} {pc : PCState}
    (h : Deed cfg s l new t) (hmem : .commitDrained pc ∈ new) :
    ∃ e n head, l = .commitInst e ∧ s.phase = .commitInsts n ∧ s.Commits cfg n head ∧
      s.drains e (s.insts head) = true ∧ pc = (s.insts head).nextPC ∧
      t.inRunahead = s.inRunahead ∧ t.archRestore = s.commit.archRestore ∧
      t.archRestorePrev = s.commit.archRestorePrev ∧
      committedSeq new = [s.insts head] := by
  cases h with
  | quiet hnew => cases hnew _ hmem
  | propagate | process | exit | enter | squashed => simp at hmem
  | @commit e n head new hphase hcommits hnew _ hdrain =>
    have hpc : pc = (s.insts head).nextPC := by
      rcases commit_events hnew hmem with h | ⟨_, h⟩ | h | h <;> cases h
      rfl
    subst hpc
    refine ⟨e, n, head, rfl, hphase, hcommits, hdrain.mp ?_, rfl, rfl, rfl, rfl,
      commit_sequence hcommits hnew⟩
    rcases List.mem_append.mp hmem with hmem | hmem
    · exact hmem
    · cases List.mem_singleton.mp hmem
  | finish => split at hmem <;> simp at hmem

end Sequences

end Pipeline
end Runahead
end Gem5
