import Gem5Runahead.Pipeline

/-!
# CommitStage

The commit stage, and the steps of the whole pipeline. In a tick commit first lets the ROB go on
squashing and looks for interrupts (`commitTick`), handles the squashes that are due
(`squash`), takes a squash from IEW and the instructions from rename (`iewSquash`), and retires
instructions from the head of the ROB, one a step (`commitInst`); then the instructions that are
complete are marked, the checks for the end of runahead are made, and the time buffers advance
(`finish`).

A runahead instruction retires as any other (it is pseudo-retired), but does not trap. `none`
stands for a failing assertion or a null pointer.

* `signalExitRunahead`, `deadline` — the load that caused runahead got its data; its deadline.
* `squashFromRunaheadExit`, `enterRunahead` — the ends of a period.
* `step`, `system` — one step of the pipeline, and its runs.
-/

namespace Gem5
namespace Runahead
namespace Pipeline

variable (cfg : PipelineParams)

section Squash

/-- What the squashes of commit have in common: the ROB starts squashing, and the other stages
are told. -/
def startSquash (s : Pipeline) (squashedSeqNum youngestSeqNum : Nat) (pc : PCState) :
    Option Pipeline := do
  let (rob, insts) ← s.rob.squash cfg.squashWidth squashedSeqNum s.insts
  return { s.setInsts insts with
    rob := rob
    commit := { s.commit with
      status := .robSquashing
      youngestSeqNum := youngestSeqNum
      toIEW := { s.commit.toIEW with
        squash := true
        robSquashing := true
        doneSeqNum := squashedSeqNum
        squashTail := rob.instList.getLast?.getD squashedSeqNum
        pc := pc } } }

def squashAll (s : Pipeline) : Option Pipeline :=
  let squashedInst := match s.rob.instList with
    | [] => s.commit.lastCommitedSeqNum
    | head :: _ => head - 1
  s.startSquash cfg squashedInst s.commit.lastCommitedSeqNum s.commit.pc

def squashFromTrap (s : Pipeline) : Option Pipeline := do
  let s ← s.squashAll cfg
  return { s with commit := { s.commit with
    trapPending := false, trapInFlight := false, trapSquash := false } }.emit .redirect

def squashFromTC (s : Pipeline) : Option Pipeline := do
  let s ← s.squashAll cfg
  if s.commit.trapPending then none
  else return { s with commit := { s.commit with tcSquash := false } }.emit .redirect

def squashFromSquashAfter (s : Pipeline) : Option Pipeline := s.squashAll cfg

/-- With `CPU::exitRunahead`. -/
def squashFromRunaheadExit (s : Pipeline) : Option Pipeline := do
  let lll ← s.commit.runaheadCause
  let s := { s with
    inRunahead := false
    commit := { s.commit with
      exitRunahead := false
      runaheadExitable := false
      archRestore := true
      pc := s.commit.storedPC
      trapInFlight := false
      trapPending := false
      instsBetweenRunahead := 0 } }
  let s ← s.startSquash cfg (lll - 1) (lll - 1) s.commit.pc
  return s.emit (.exitSquash s.runaheadPeriods s.commit.pc s.commit.canHandleInterrupts)

/-- `Commit::commit` up to the squashes from IEW. -/
def squash (s : Pipeline) : Option Pipeline :=
  if s.commit.trapSquash then if s.commit.tcSquash then none else s.squashFromTrap cfg
  else if s.commit.tcSquash then
    if s.commit.status = .trapPending then none else s.squashFromTC cfg
  else if s.commit.status = .squashAfterPending then
    -- not the squash-after of a stale runahead instruction
    if !(s.commit.wasRunahead && !s.inRunahead) then s.squashFromSquashAfter cfg
    else some { s with commit := { s.commit with status := .running } }
  else if s.commit.exitRunahead then s.squashFromRunaheadExit cfg
  else some s

/-- A squash from IEW must be older than the youngest valid instruction in the ROB. -/
def acceptSquash (s : Pipeline) : Option Pipeline :=
  match s.commit.fromIEW.squash with
  | none => some s
  | some sq =>
    if s.commit.status ≠ .trapPending ∧ sq.squashedSeqNum ≤ s.commit.youngestSeqNum then do
      let n := if sq.includeSquashInst then sq.squashedSeqNum - 1 else sq.squashedSeqNum
      let s' ← s.startSquash cfg n n sq.pc
      return s'.emit (.iewSquash sq.squashedSeqNum (s.mark sq.squashedSeqNum))
    else some s

/-- The loop body of `getInsts`. -/
def getInst (s : Pipeline) (i : Nat) : Option Pipeline :=
  if (s.insts i).squashed ∨ s.commit.status = .robSquashing ∨ s.commit.status = .trapPending then
    some s
  else if s.rob.instList.length = cfg.numROBEntries then none
  else some ({ s with
    rob := s.rob.insertInst i
    commit := { s.commit with youngestSeqNum := i } }.emit (.insertInst i (s.mark i)))

def getInsts (s : Pipeline) : Option Pipeline := do
  let s ← s.front.fromRename.foldlM (getInst cfg) s
  return { s with front := { s.front with fromRename := [] } }

/-- The squash from IEW, and the instructions from rename unless the ROB squashes. -/
def iewSquash (s : Pipeline) : Option Pipeline := do
  let s ← s.acceptSquash cfg
  let s := { s with commit := { s.commit with fromIEW := { s.commit.fromIEW with squash := none } } }
  if s.commit.status = .robSquashing then return { s with phase := .finish }
  else
    let s ← s.getInsts cfg
    return { s with phase := .commitInsts 0 }

end Squash

section Interrupts

def propagateInterrupt (s : Pipeline) (getInterrupts : Bool) : Pipeline :=
  if s.commit.status = .trapPending ∨ s.commit.interrupt ∨ s.commit.trapSquash ∨
      s.commit.tcSquash ∨ s.commit.drainImminent ∨ s.inRunahead ∨ s.commit.archRestorePrev ∨
      s.commit.archRestore then s
  else if getInterrupts then
    { s with commit := { s.commit with
      interrupt := true
      toIEW := { s.commit.toIEW with interruptPending := true } } }.emit .propagateInterrupt
  else s

def generateTrapEvent (s : Pipeline) : Pipeline :=
  { s with
    trapEvents := s.trapEvents ++ [s.inRunahead]
    commit := { s.commit with trapInFlight := true, trapPending := true } }

/-- `pc` is where the interrupt's handler starts. -/
def handleInterrupt (s : Pipeline) (checkInterrupts : Bool) (pc : PCState) : Pipeline :=
  if !checkInterrupts then
    { s with commit := { s.commit with
      interrupt := false
      avoidQuiesceLiveLock := true
      toIEW := { s.commit.toIEW with clearInterrupt := true } } }
  else
    let runaheadHazard := s.inRunahead || s.commit.archRestore || s.commit.archRestorePrev
    if s.commit.canHandleInterrupts && !runaheadHazard && s.list.instList.isEmpty then
      ({ s with commit := { s.commit with
        pc := pc
        status := .trapPending
        interrupt := false
        avoidQuiesceLiveLock := false
        toIEW := { s.commit.toIEW with clearInterrupt := true } } }.generateTrapEvent).emit
          (.processInterrupts pc)
    else s

/-- The start of `Commit::tick`: a squash goes on. -/
def tickSquashing (s : Pipeline) : Option Pipeline :=
  if s.commit.status = .robSquashing then
    if s.rob.doneSquashing then
      some { s with commit := { s.commit with status := .running } }
    else do
      let (rob, insts) ← s.rob.doSquash cfg.squashWidth s.insts
      return { s.setInsts insts with
        rob := rob
        commit := { s.commit with toIEW := { s.commit.toIEW with robSquashing := true } } }
  else some s

/-- `Commit::tick`, up to the interrupts. -/
def commitTick (s : Pipeline) (checkInterrupts getInterrupts : Bool) : Option Pipeline := do
  let s ← s.tickSquashing cfg
  return if checkInterrupts then s.propagateInterrupt getInterrupts else s

end Interrupts

section Runahead

/-- `instsBetweenRunahead < instsPseudoretired`. The one is an `int`, which wraps around and is
extended to the `uint64_t` that the other is. -/
def overlaps (s : Pipeline) : Bool :=
  ((BitVec.ofNat 32 s.commit.instsBetweenRunahead).signExtend 64).ult
    (BitVec.ofNat 64 s.commit.instsPseudoretired)

/-- The assertion fails for a load that was issued in this cycle. -/
def canEnterRunahead (s : Pipeline) (inFlightCycles : Nat) : Option Bool :=
  if !cfg.runaheadEnabled || s.inRunahead ||
      !cfg.eagerEntry && s.rob.instList.length ≠ cfg.numROBEntries then some false
  else if inFlightCycles = 0 then none
  else some (inFlightCycles ≤ cfg.inFlightThreshold && (cfg.allowOverlapping || !s.overlaps))

/-- Every instruction in flight is marked runahead; those that are marked already keep the period
in which they were. -/
def markRunahead (s : Pipeline) (period : Nat) : Pipeline :=
  let marks i := i ∈ s.list.instList ∧ (s.insts i).committed = false
  { s.setInsts fun i => if marks i then (s.insts i).setRunahead else s.insts i with
    markedIn := fun i =>
      if marks i ∧ (s.insts i).runahead = false then period else s.markedIn i }

/-- The load is poisoned and taken as executed; the LSQ forges a response. -/
def handleRunaheadLLL (s : Pipeline) (i : Nat) : Pipeline :=
  s.modifyInst i fun inst => inst.setPoisoned.setExecuted

/-- `chainSize` is the length of the dependence chain found in the ROB. -/
def enterRunahead (s : Pipeline) (head inFlightCycles chainSize : Nat) : Option Pipeline :=
  if ¬ ((s.insts head).isLoad ∧ (s.insts head).squashed = false ∧
      (s.insts head).runahead = false) then none
  else match s.canEnterRunahead cfg inFlightCycles with
  | none => none
  | some false => some s
  | some true =>
    let period := s.runaheadPeriods + 1
    some ({ (s.markRunahead period).handleRunaheadLLL head with
      inRunahead := true
      runaheadCause := head
      runaheadPeriods := period
      runaheadChainSize := if cfg.usingFiltered then chainSize else 0
      commit := { s.commit with
        storedPC := s.commit.pc
        instsPseudoretired := 0
        trackedROBInsts := s.rob.instList.length } }.emit
          (.enter period s.commit.pc s.commit.canHandleInterrupts))

def setExitRunahead (s : Pipeline) : Pipeline :=
  { s with commit := { s.commit with exitRunahead := true } }

def dynamicDelayedRunaheadExit (s : Pipeline) : Pipeline :=
  if s.commit.instsPseudoretired < s.commit.trackedROBInsts then s.setExitRunahead
  else if s.rob.findUnsentValidLoad s.insts cfg.minRunaheadWork = 0 then s.setExitRunahead
  else if cfg.usingFiltered && s.runaheadChainSize = 0 then s.setExitRunahead
  else s

/-- What the policy does when the exit is signalled. -/
def exitPolicy (s : Pipeline) : Pipeline :=
  match cfg.exitPolicy with
  | .eager => s.setExitRunahead
  | .minimumWork =>
    if cfg.minRunaheadWork ≤ s.commit.instsPseudoretired then s.setExitRunahead else s
  | .nllb =>
    let loadSn := s.rob.findUnsentValidLoad s.insts (-1)
    if loadSn ≠ 0 then { s with commit := { s.commit with runaheadExitSeqNum := loadSn } }
    else s.setExitRunahead
  | .dynamicDelayed => s.dynamicDelayedRunaheadExit cfg

/-- `CPU::runaheadLLLReturn` and `Commit::signalExitRunahead`: a response for the load that caused
runahead has arrived. -/
def signalExitRunahead (s : Pipeline) : Option Pipeline :=
  if ¬ (s.inRunahead ∧ (s.insts s.runaheadCause).runahead) then none
  else if s.commit.runaheadExitable then some s
  else
    let s := ({ s with commit := { s.commit with
      runaheadExitable := true
      runaheadCause := some s.runaheadCause } }.emit .exitSignal).exitPolicy cfg
    if s.commit.exitRunahead then some s
    else
      let event := DeadlineEvent.mk s.runaheadCause (s.cycle + cfg.exitDeadline) s.runaheadPeriods
      some ({ s with deadlineEvents := s.deadlineEvents ++ [event] }.emit .arm)

/-- The deadline event `k` fires. -/
def deadline (s : Pipeline) (k : Nat) : Option Pipeline := do
  let event ← s.deadlineEvents[k]?
  if s.cycle < event.when_ then none
  else
    let s := { s with deadlineEvents := s.deadlineEvents.eraseIdx k }
    -- already exited or exiting
    if !s.inRunahead || s.commit.exitRunahead then return s
    else
      let cause ← s.commit.runaheadCause
      -- a different runahead period
      if cause ≠ event.causeSeqNum then return s
      else return s.setExitRunahead

/-- What commit waits for once the exit is signalled. -/
def exitCondition (s : Pipeline) : Bool :=
  match cfg.exitPolicy with
  | .minimumWork => cfg.minRunaheadWork ≤ s.commit.instsPseudoretired
  | .nllb =>
    let load := s.commit.runaheadExitSeqNum
    load ≠ 0 && (load ∉ s.rob.instList || (s.insts load).executed ||
      s.rob.instList.head?.all (load < ·))
  | _ => false

/-- `Commit::updateRunaheadState`. The restore itself is not part of this state. -/
def updateRunaheadState (s : Pipeline) : Pipeline :=
  let s := { s with commit := { s.commit with wasRunahead := s.inRunahead } }
  let s := if s.commit.archRestorePrev then s.emit .archRestore else s
  if s.commit.runaheadExitable && !s.commit.exitRunahead && s.exitCondition cfg then
    s.setExitRunahead
  else s

end Runahead

section PCEvents

/-- A write through a thread context, perhaps to the PC. -/
def tcWrite (s : Pipeline) (pc : Option PCState) : Option Pipeline :=
  let s := match pc with
    | none => s
    | some pc => { s with commit := { s.commit with pc := pc } }.emit (.tcWrite pc)
  if s.commit.trapPending then some s
  else if s.commit.trapInFlight then none
  else some { s with commit := { s.commit with tcSquash := true } }

/-- What the handlers of the PC events at one PC do to the thread. -/
inductive PCHandler where
  | observe
  | write (pc : Option PCState)

def handlePCEvent (s : Pipeline) : PCHandler → Option Pipeline
  | .observe => some s
  | .write pc => s.tcWrite pc

/-- The loop of `commitInsts` that services the PC events; a round has the handlers of one PC, and
there is a next one if they move the thread to another PC. The flag says that they have. -/
def servicePCEvents (s : Pipeline) (head : Nat) : List PCHandler → Option (Pipeline × Bool)
  | [] => some (s, false)
  | handler :: rest => do
    let oldpc := s.commit.pc
    let s ← (s.emit (.pcEvent head (s.mark head) oldpc)).handlePCEvent handler
    if s.commit.pc.instAddr = oldpc.instAddr then return (s, false)
    else
      let (s, _) ← s.servicePCEvents head rest
      return (s, true)

end PCEvents

section CommitInsts

/-- The memory request of a load, as far as it is looked at. -/
structure LoadRequest where
  complete : Bool
  sent : Bool
  accessDepths : List Nat

/-- What commit meets when it looks at the head of the ROB. -/
structure CommitEnv where
  checkInterrupts : Bool := false
  interruptPC : PCState := {}
  trapPC : PCState := {}
  request : Option LoadRequest := none
  inFlightCycles : Nat := 0
  chainSize : Nat := 0
  storesToWB : Bool := false
  /-- What the PC events do that are due after the head has retired. -/
  pcEvents : List PCHandler := []

/-- The head is not ready. A load that has missed in every cache makes the CPU run ahead; in
runahead it is completed at once. -/
def lllAtHead (s : Pipeline) (head : Nat) (e : CommitEnv) : Option Pipeline :=
  match e.request with
  | none => some s
  | some request =>
    if !(s.insts head).isLoad || request.complete || !request.sent ||
        !request.accessDepths.all (cfg.lllDepthThreshold ≤ ·) then some s
    else if !s.inRunahead then s.enterRunahead cfg head e.inFlightCycles e.chainSize
    else if (s.insts head).poisoned then some s
    else if (s.insts head).runahead then some (s.handleRunaheadLLL head)
    else none

def retireHead (s : Pipeline) (head : Nat) : Pipeline :=
  { s with
    rob := s.rob.retireHead
    list := { s.list with insts := s.insts.modify head DynInst.setCommitted }.removeFrontInst head
    }.emit (.retire head (s.insts head) (s.mark head))

def squashAfter (s : Pipeline) : Pipeline :=
  { s with commit := { s.commit with status := .squashAfterPending } }

/-- The head has a fault. A runahead instruction's fault is ignored, but if it is a fetch fault
there is nothing more to run ahead of. -/
def commitFault (s : Pipeline) (head : Nat) (e : CommitEnv) : Pipeline :=
  let s := s.modifyInst head DynInst.setCompleted
  if !(s.insts head).runahead then
    ({ s with commit := { s.commit with
      pc := e.trapPC
      status := .trapPending } }.generateTrapEvent).emit (.trap e.trapPC)
  else
    let s := s.modifyInst head DynInst.setPoisoned
    if (s.insts head).notAnInst then
      { s with commit := { s.commit with
        runaheadCause := some s.runaheadCause
        exitRunahead := true } }
    else s

/-- `commitInsts` after a successful `commitHead`: the drain point. -/
def drainPoint (s : Pipeline) : Option Pipeline :=
  if s.commit.drainPending ∧ s.commit.pc.microPC = 0 ∧ s.commit.interrupt = false ∧
      s.commit.trapPending = false then
    if s.fetch.drainStall then none
    else
      let s := s.squashAfter
      some ({ s with
        fetch := { s.fetch with drainStall := true }
        commit := { s.commit with drainImminent := true } }.emit (.commitDrained s.commit.pc))
  else some s

/-- `CPU::instDone`. -/
def instDone (s : Pipeline) (inst : DynInst) : Pipeline :=
  let counted := !inst.isMicroop || inst.isLastMicroop
  { s with
    -- runahead is speculative, so it doesn't count towards the inst count
    numInst := s.numInst + (counted && !inst.runahead).toNat
    numOp := s.numOp + 1 }

def updateComInstStats (s : Pipeline) (inst : DynInst) : Pipeline :=
  let counted := !inst.isMicroop || inst.isLastMicroop
  let s := { s with commit := { s.commit with
    instsBetweenRunahead := s.commit.instsBetweenRunahead + (counted && !s.inRunahead).toNat
    instsPseudoretired := s.commit.instsPseudoretired + (counted && inst.runahead).toNat } }
  if !inst.isNop && !inst.isInstPrefetch then s.instDone inst else s

/-- The head leaves the ROB; commit's PC goes on to the next instruction. -/
def retireInst (s : Pipeline) (head : Nat) : Pipeline :=
  let inst := s.insts head
  let s := (s.updateComInstStats inst).retireHead head
  { s with commit := { s.commit with
    canHandleInterrupts := !inst.isDelayedCommit
    pc := inst.nextPC
    lastCommitedSeqNum := head
    toIEW := { s.commit.toIEW with doneSeqNum := head } } }

/-- The thread is between two instructions after this one. -/
def onInstBoundary (inst : DynInst) : Bool :=
  !inst.isMicroop || inst.isLastMicroop || !inst.isDelayedCommit

/-- The end of `commitInsts`' round after `inst`, if the thread is between two instructions. The
flag says that the PC events stop the loop. -/
def instBoundary (s : Pipeline) (inst : DynInst) (head : Nat) (e : CommitEnv) :
    Option (Pipeline × Bool) :=
  if !onInstBoundary inst then some (s, false)
  else if s.commit.trapPending then none
  else do
    let (s, skipped) ← s.servicePCEvents head e.pcEvents
    if !skipped && !s.commit.interrupt && s.commit.avoidQuiesceLiveLock && e.checkInterrupts
    then return (s.squashAfter, false)
    else return (s, skipped)

/-- The head is committed. -/
def commitSuccess (s : Pipeline) (head : Nat) (e : CommitEnv) : Option (Pipeline × Bool) := do
  let inst := s.insts head
  let s := s.retireInst head
  let s := if inst.isSquashAfter then s.squashAfter else s
  let s ← s.drainPoint
  s.instBoundary inst head e

/-- One round of the loop of `commitInsts`, with `commitHead`. -/
def commitInst (s : Pipeline) (numCommitted : Nat) (e : CommitEnv) : Option Pipeline :=
  if cfg.commitWidth ≤ numCommitted then some { s with phase := .finish }
  else
    let committing := s.commit.status = .running ∨ s.commit.status = .idle ∨
      s.commit.status = .fetchTrapPending
    let s := if s.commit.interrupt then s.handleInterrupt e.checkInterrupts e.interruptPC else s
    match if committing then s.rob.instList else [] with
    | [] => some { s with phase := .finish }
    | head :: _ =>
      let inst := s.insts head
      if !inst.canCommit then do
        let s ← s.lllAtHead cfg head e
        return { s with phase := .finish }
      else if inst.squashed then some (s.retireHead head)
      else
        let s := { s with commit := { s.commit with pc := inst.pcState } }
        if !inst.executed then
          if 0 < numCommitted || e.storesToWB then some { s with phase := .finish }
          else some { s.modifyInst head DynInst.clearCanCommit with phase := .finish }
        else if inst.fault then
          if !inst.runahead && (e.storesToWB || 0 < numCommitted) then
            some { s with phase := .finish }
          else some { s.commitFault head e with phase := .finish }
        else do
          let (s, skipped) ← s.commitSuccess head e
          return { s with phase := if skipped then .finish else .commitInsts (numCommitted + 1) }

end CommitInsts

section Finish

/-- `markCompletedInsts`. -/
def markCompletedInsts (s : Pipeline) : Pipeline :=
  s.setInsts fun i =>
    if i ∈ s.commit.fromIEW.insts ∧ (s.insts i).squashed = false then (s.insts i).setCanCommit
    else s.insts i

/-- The end of `CPU::tick`. -/
def advance (s : Pipeline) : Pipeline :=
  { s with
    phase := .idle
    cycle := s.cycle + 1
    list := s.list.endTick
    fetch := { s.fetch with fromCommit := s.commit.toIEW }
    front := { s.front with
      toDecode := []
      queued := s.front.queued ++ s.front.toDecode
      toROB := []
      fromRename := s.front.toROB }
    iew := { s.iew with toCommit := {}, fromCommit := s.commit.toIEW }
    commit := { s.commit with
      toIEW := {}
      fromIEW := s.iew.toCommit
      archRestore := false
      archRestorePrev := s.commit.archRestore } }

def finish (s : Pipeline) : Pipeline := ((s.markCompletedInsts).updateRunaheadState cfg).advance

end Finish

section Step

/-- `Commit::processTrapEvent`. -/
def processTrapEvent (s : Pipeline) : Option Pipeline :=
  match s.trapEvents with
  | [] => none
  | wasRunahead :: rest =>
    let s := { s with trapEvents := rest }
    if wasRunahead && !s.inRunahead then some s
    else some { s with commit := { s.commit with trapSquash := true } }

def drain (s : Pipeline) : Pipeline := { s with commit := { s.commit with drainPending := true } }

def drainResume (s : Pipeline) : Pipeline :=
  { s with
    fetch := { s.fetch with drainStall := false }
    commit := { s.commit with drainPending := false, drainImminent := false } }

inductive Label where
  -- between two ticks
  | signalExitRunahead
  | deadline (k : Nat)
  | processTrapEvent
  | drain
  | drainResume
  | tcWrite (pc : Option PCState)
  | icacheResponse
  | dataReturn (i : Nat) (poisoned mispredicted : Bool)
  -- a tick
  | fetchSignals (fromDecode : Option (Nat × PCState))
  | fetchInst (inst : DynInst) (nextPC : PCState)
  | fetchWait
  | fetchDiscard (i : Nat)
  | renameInsts (n : Nat)
  | iewSignals (full : Bool)
  | dispatchNonSpec (i : Nat)
  | execute (i : Nat) (result : ExecResult) (r : Redirect)
  | writebackInsts (n : Nat)
  | commitTick (checkInterrupts getInterrupts : Bool)
  | squash
  | iewSquash
  | commitInst (e : CommitEnv)
  | finish

/-- No deadline event is overdue. -/
def Due (s : Pipeline) : Prop := ∀ event ∈ s.deadlineEvents, s.cycle ≤ event.when_

instance (s : Pipeline) : Decidable s.Due := inferInstanceAs (Decidable (∀ _ ∈ _, _))

def step (s : Pipeline) : Label → Option Pipeline
  | .signalExitRunahead => if s.phase = .idle then s.signalExitRunahead cfg else none
  | .deadline k => if s.phase = .idle then s.deadline k else none
  | .processTrapEvent => if s.phase = .idle then s.processTrapEvent else none
  | .drain => if s.phase = .idle then some s.drain else none
  | .drainResume => if s.phase = .idle then some s.drainResume else none
  | .tcWrite pc => if s.phase = .idle then s.tcWrite pc else none
  | .icacheResponse => if s.phase = .idle then s.icacheResponse else none
  | .dataReturn i poisoned mispredicted =>
    if s.phase = .idle then s.dataReturn i poisoned mispredicted else none
  | .fetchSignals fromDecode =>
    if s.phase = .idle ∧ s.Due then do
      let s ← s.fetchSignals fromDecode
      return { s with phase := .fetch }
    else none
  | .fetchInst inst nextPC => if s.phase = .fetch then s.fetchInst inst nextPC else none
  | .fetchWait => if s.phase = .fetch then s.fetchWait else none
  | .fetchDiscard i => if s.phase = .fetch then s.fetchDiscard i else none
  | .renameInsts n =>
    if s.phase = .fetch then do
      let s ← s.renameInsts n
      return { s with phase := .iewSignals }
    else none
  | .iewSignals full =>
    if s.phase = .iewSignals then some { s.iewSignals full with phase := .iew } else none
  | .dispatchNonSpec i => if s.phase = .iew then s.dispatchNonSpec i else none
  | .execute i result r => if s.phase = .iew then s.execute i result r else none
  | .writebackInsts n =>
    if s.phase = .iew then some { s.writebackInsts n with phase := .commit } else none
  | .commitTick checkInterrupts getInterrupts =>
    if s.phase = .commit then do
      let s ← s.commitTick cfg checkInterrupts getInterrupts
      return { s with phase := .squash }
    else none
  | .squash =>
    if s.phase = .squash then do
      let s ← s.squash cfg
      return { s with phase := .iewSquash }
    else none
  | .iewSquash => if s.phase = .iewSquash then s.iewSquash cfg else none
  | .commitInst e =>
    match s.phase with
    | .commitInsts n => s.commitInst cfg n e
    | _ => none
  | .finish => if s.phase = .finish then some (s.finish cfg) else none

/-- The pipeline is empty and about to fetch at `pc`. -/
def start (pc : PCState) : Pipeline where
  list := ⟨fun _ => {}, [], [], false, 1⟩
  fetch := { pc := pc }
  commit := { pc := pc }

def system : Transition.System Pipeline Label where
  init s := ∃ pc, s = start pc
  step s l s' := s.step cfg l = some s'

end Step

end Pipeline
end Runahead
end Gem5
