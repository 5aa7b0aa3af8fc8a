import Gem5Runahead.Lib.EventLog
import Gem5Runahead.Lib.Transition
import Gem5Runahead.InstList
import Gem5Runahead.ROB

/-!
# Pipeline

The CPU's pipeline around the commit stage, with one thread. A tick runs fetch, decode, rename,
IEW and commit in this order, then the time buffers advance and the instruction list is cleaned
up; the phases of a state are the points inside a tick. The delays between the stages are the
default of one cycle. What the rest of the CPU, the caches and the devices do in between is in
the labels of the steps: which instructions are fetched, when one executes and with what result,
when data returns, when an interrupt is posted.

This module has the state and the stages before commit. Decode and rename are one queue. A wire
out of a time buffer is a field of the stage that reads it; a stage that has read a squash off
its wire clears it.

* `fetchSignals`, `fetchInst`, `renameInsts` — the front end.
* `execute`, `dataReturn` — an instruction is executed, or a load gets its data.
* `Event` — what happens, as a ghost log in the state.
-/

namespace Gem5
namespace Runahead

inductive REExitPolicy where
  | eager | minimumWork | nllb | dynamicDelayed
deriving DecidableEq

structure PipelineParams where
  commitWidth : Nat
  squashWidth : Nat
  numROBEntries : Nat
  lllDepthThreshold : Nat
  runaheadEnabled : Bool
  eagerEntry : Bool
  allowOverlapping : Bool
  usingFiltered : Bool
  inFlightThreshold : Nat
  exitPolicy : REExitPolicy
  minRunaheadWork : Nat
  exitDeadline : Nat

inductive CommitStatus where
  | running | idle | robSquashing | trapPending | fetchTrapPending | squashAfterPending
deriving DecidableEq

/-- `waiting` stands for the states in which fetch waits for the I-cache or the ITLB. -/
inductive FetchStatus where
  | running | squashing | blocked | waiting | trapPending
deriving DecidableEq

/-- What commit sends to the earlier stages. -/
structure CommitInfo where
  squash : Bool := false
  robSquashing : Bool := false
  doneSeqNum : Nat := 0
  squashTail : Nat := 0
  pc : PCState := {}
  interruptPending : Bool := false
  clearInterrupt : Bool := false

/-- A squash that IEW asks commit for. `foundBy` is the instruction whose execution showed that
it is needed; it is not part of the wire. -/
structure IEWSquash where
  squashedSeqNum : Nat
  includeSquashInst : Bool
  pc : PCState
  foundBy : Nat

structure IEWInfo where
  squash : Option IEWSquash := none
  /-- Instructions that are complete. -/
  insts : List Nat := []

/-- What an observer of the pipeline sees. A `mark` is the runahead period in which the
instruction was marked runahead, if it was. -/
inductive Event where
  | enter (period : Nat) (pc : PCState) (canHandle : Bool)
  /-- Commit takes the response of the load that caused the period. -/
  | exitSignal
  /-- A deadline event is scheduled. -/
  | arm
  | exitSquash (period : Nat) (pc : PCState) (canHandle : Bool)
  | archRestore
  | insertInst (i : Nat) (mark : Option Nat)
  | setReg (i : Nat) (mark : Option Nat)
  | iewSquash (i : Nat) (mark : Option Nat)
  | retire (i : Nat) (inst : DynInst) (mark : Option Nat)
  /-- The PC events at `pc` are serviced for instruction `i`. -/
  | pcEvent (i : Nat) (mark : Option Nat) (pc : PCState)
  | trap (pc : PCState)
  | processInterrupts (pc : PCState)
  | propagateInterrupt
  /-- Commit squashes for a trap or a write through a thread context. -/
  | redirect
  | tcWrite (pc : PCState)
  | commitDrained (pc : PCState)

/-- The points of a tick. -/
inductive Phase where
  | idle | fetch | iewSignals | iew | commit | squash | iewSquash | commitInsts (numCommitted : Nat)
  | finish
deriving DecidableEq

structure Fetch where
  status : FetchStatus := .running
  pc : PCState := {}
  /-- `stalls.drain`. -/
  drainStall : Bool := false
  fromCommit : CommitInfo := {}

/-- The instructions on their way to the ROB. -/
structure FrontEnd where
  /-- Fetched in this tick. -/
  toDecode : List Nat := []
  /-- In decode and rename. -/
  queued : List Nat := []
  /-- Sent on by rename in this tick. -/
  toROB : List Nat := []
  fromRename : List Nat := []
  /-- IEW stalls rename. -/
  iewBlock : Bool := false

namespace FrontEnd

/-- From the oldest to the youngest. -/
def insts (f : FrontEnd) : List Nat := f.fromRename ++ f.toROB ++ f.queued ++ f.toDecode

end FrontEnd

structure IEW where
  squashedSeqNum : Nat := 0
  squashTailSeqNum : Nat := 0
  iewQueue : List Nat := []
  toCommit : IEWInfo := {}
  fromCommit : CommitInfo := {}

structure DeadlineEvent where
  causeSeqNum : Nat
  when_ : Nat
  /-- The period that armed the event; the event itself does not know it. -/
  armedIn : Nat

structure Commit where
  status : CommitStatus := .idle
  trapSquash : Bool := false
  tcSquash : Bool := false
  trapInFlight : Bool := false
  trapPending : Bool := false
  interrupt : Bool := false
  canHandleInterrupts : Bool := true
  avoidQuiesceLiveLock : Bool := false
  drainPending : Bool := false
  drainImminent : Bool := false
  pc : PCState := {}
  storedPC : PCState := {}
  lastCommitedSeqNum : Nat := 0
  youngestSeqNum : Nat := 0
  exitRunahead : Bool := false
  runaheadExitable : Bool := false
  wasRunahead : Bool := false
  runaheadCause : Option Nat := none
  runaheadExitSeqNum : Nat := 0
  instsPseudoretired : Nat := 0
  instsBetweenRunahead : Nat := 0
  trackedROBInsts : Nat := 0
  toIEW : CommitInfo := {}
  fromIEW : IEWInfo := {}
  /-- `archRestore` on the wire of this tick, and of the tick before. -/
  archRestore : Bool := false
  archRestorePrev : Bool := false

structure Pipeline where
  phase : Phase := .idle
  cycle : Nat := 0
  list : InstList
  rob : ROB := {}
  fetch : Fetch := {}
  front : FrontEnd := {}
  iew : IEW := {}
  commit : Commit := {}
  inRunahead : Bool := false
  runaheadCause : Nat := 0
  runaheadPeriods : Nat := 0
  runaheadChainSize : Nat := 0
  deadlineEvents : List DeadlineEvent := []
  /-- The trap events in flight: whether the thread was in runahead when they were scheduled. -/
  trapEvents : List Bool := []
  numInst : Nat := 0
  numOp : Nat := 0
  /-- The period in which an instruction was marked runahead. -/
  markedIn : Nat → Nat := fun _ => 0
  log : List Event := []

namespace Pipeline

variable (cfg : PipelineParams)

def insts (s : Pipeline) : Insts := s.list.insts

def setInsts (s : Pipeline) (insts : Insts) : Pipeline :=
  { s with list := { s.list with insts := insts } }

def modifyInst (s : Pipeline) (i : Nat) (f : DynInst → DynInst) : Pipeline :=
  s.setInsts (s.insts.modify i f)

@[simp] theorem modifyInst_insts (s : Pipeline) (i : Nat) (f : DynInst → DynInst) :
    (s.modifyInst i f).insts = s.insts.modify i f := rfl

def emit (s : Pipeline) (e : Event) : Pipeline := { s with log := e :: s.log }

/-- The period in which the instruction was marked runahead, if it was. -/
def mark (s : Pipeline) (i : Nat) : Option Nat :=
  if (s.insts i).runahead then some (s.markedIn i) else none

section Fetch

/-- The new instruction of `buildInst`: no stage has handled it, and in runahead it is marked. -/
def buildInst (s : Pipeline) (inst : DynInst) : DynInst :=
  { inst with
    threadNumber := 0
    pcState := s.fetch.pc
    runahead := s.inRunahead
    fault := inst.notAnInst
    squashed := false
    removePending := false
    committed := false
    completed := false
    issued := false
    canCommit := false
    executed := false
    poisoned := false }

/-- `Fetch::checkSignalsAndUpdate`, and what decode and rename do on a squash from commit.
`fromDecode` is a squash from decode: its sequence number and the new PC. -/
def fetchSignals (s : Pipeline) (fromDecode : Option (Nat × PCState)) : Option Pipeline :=
  if s.fetch.fromCommit.squash then do
    let list ← s.list.removeInstsNotInROB 0 s.rob.instList.getLast?
    return { s with
      list := list
      fetch := { s.fetch with
        status := .squashing
        pc := s.fetch.fromCommit.pc
        fromCommit := { s.fetch.fromCommit with squash := false } }
      front := { s.front with queued := [] } }
  else match fromDecode with
  | some (seqNum, pc) =>
    if s.fetch.status ≠ .squashing ∧ seqNum ∈ s.front.queued ∧ (s.insts seqNum).squashed = false
    then do
      let list ← s.list.removeInstsUntil seqNum 0
      return { s with
        list := list
        fetch := { s.fetch with status := .squashing, pc := pc }
        front := { s.front with queued := s.front.queued.filter (· ≤ seqNum) } }
    else none
  | none =>
    if s.fetch.drainStall && s.fetch.status ≠ .waiting then
      some { s with fetch := { s.fetch with status := .blocked } }
    else if s.fetch.status = .blocked ∨ s.fetch.status = .squashing then
      some { s with fetch := { s.fetch with status := .running } }
    else some s

/-- An instruction is fetched; `nextPC` is where fetch goes on. -/
def fetchInst (s : Pipeline) (inst : DynInst) (nextPC : PCState) : Option Pipeline :=
  if s.fetch.status = .running then
    let i := s.list.globalSeqNum
    some { s with
      list := s.list.addInst i (s.buildInst inst)
      fetch := { s.fetch with
        pc := nextPC
        status := if inst.notAnInst then .trapPending else .running }
      front := { s.front with toDecode := s.front.toDecode ++ [i] }
      markedIn := Function.update s.markedIn i s.runaheadPeriods }
  else none

def fetchWait (s : Pipeline) : Option Pipeline :=
  if s.fetch.status = .running then some { s with fetch := { s.fetch with status := .waiting } }
  else none

/-- `Fetch::processCacheCompletion`. -/
def icacheResponse (s : Pipeline) : Option Pipeline :=
  if s.fetch.status = .waiting then
    some { s with fetch := { s.fetch with
      status := if s.fetch.drainStall then .blocked else .running } }
  else none

/-- In runahead, fetch discards an instruction that is not in the chain. -/
def fetchDiscard (s : Pipeline) (i : Nat) : Option Pipeline :=
  if s.inRunahead && s.runaheadChainSize ≠ 0 && i ∈ s.front.queued then do
    let list ← s.list.removeInst i
    return { s with
      list := list
      front := { s.front with queued := s.front.queued.filter (· ≠ i) } }
  else none

/-- Rename takes the next `n` instructions and sends on those that are not squashed. -/
def renameInsts (s : Pipeline) (n : Nat) : Option Pipeline :=
  if s.front.iewBlock && n ≠ 0 then none
  else
    some { s with front := { s.front with
      queued := s.front.queued.drop n
      toROB := (s.front.queued.take n).filter fun i => !(s.insts i).squashed } }

end Fetch

section IEW

/-- `IEW::checkSignalsAndUpdate`; rename stalls while the ROB squashes, and when the queues are
full. -/
def iewSignals (s : Pipeline) (full : Bool) : Pipeline :=
  if s.iew.fromCommit.squash then
    { s with
      iew := { s.iew with
        squashedSeqNum := s.iew.fromCommit.doneSeqNum
        squashTailSeqNum := s.iew.fromCommit.squashTail
        fromCommit := { s.iew.fromCommit with squash := false } }
      front := { s.front with iewBlock := false } }
  else { s with front := { s.front with iewBlock := s.iew.fromCommit.robSquashing || full } }

/-- The sequence number is one that the last squash covers. -/
def inSquashWindow (s : Pipeline) (i : Nat) : Bool :=
  s.iew.squashedSeqNum < i && i ≤ s.iew.squashTailSeqNum

def stale (s : Pipeline) (i : Nat) : Bool := (s.insts i).runahead && !s.inRunahead

/-- `IEW::instToCommit`. -/
def instToCommit (s : Pipeline) (i : Nat) : Pipeline :=
  { s with iew := { s.iew with iewQueue := s.iew.iewQueue ++ [i] } }

/-- The squash that goes to commit when one more is found: the oldest one. -/
def olderSquash (squash : IEWSquash) : Option IEWSquash → Option IEWSquash
  | none => some squash
  | some old =>
    if squash.squashedSeqNum < old.squashedSeqNum ∨
        squash.includeSquashInst ∧ squash.squashedSeqNum = old.squashedSeqNum then some squash
    else some old

def sendSquash (s : Pipeline) (squash : IEWSquash) : Pipeline :=
  { s with iew := { s.iew with
    toCommit := { s.iew.toCommit with squash := olderSquash squash s.iew.toCommit.squash } } }

/-- `IEW::squashDueToBranch`. -/
def squashDueToBranch (s : Pipeline) (i : Nat) : Pipeline :=
  s.sendSquash ⟨i, false, (s.insts i).nextPC, i⟩

/-- `IEW::squashDueToMemOrder`: the execution of `i` shows that the load `violator` was too
early. -/
def squashDueToMemOrder (s : Pipeline) (i violator : Nat) : Pipeline :=
  s.sendSquash ⟨violator, true, (s.insts violator).pcState, i⟩

inductive Redirect where
  | none
  | mispredicted
  | violation (violator : Nat)

/-- A violator is younger and in the load queue, which drops what a squash covers. -/
def Redirect.Legal (s : Pipeline) (i : Nat) : Redirect → Prop
  | .violation v => i < v ∧ v ∈ s.rob.instList ∧ (s.insts v).squashed = false ∧
      s.inSquashWindow v = false ∧ s.stale v = false
  | _ => True

instance (s : Pipeline) (i : Nat) : (r : Redirect) → Decidable (r.Legal s i)
  | .none => inferInstanceAs (Decidable True)
  | .mispredicted => inferInstanceAs (Decidable True)
  | .violation v => inferInstanceAs (Decidable (i < v ∧ v ∈ s.rob.instList ∧
      (s.insts v).squashed = false ∧ s.inSquashWindow v = false ∧ s.stale v = false))

def redirect (s : Pipeline) (i : Nat) : Redirect → Pipeline
  | .none => s
  | .mispredicted => s.squashDueToBranch i
  | .violation v => s.squashDueToMemOrder i v

/-- What the execution of a memory instruction comes to: it waits for the translation or its
data, it is left to commit (a strictly ordered load), or it is done. -/
inductive ExecResult where
  | waits
  | unexecuted
  | done (fault : Bool)
deriving DecidableEq

/-- The instruction is in IEW and not on its way to commit yet. -/
def InFlight (s : Pipeline) (i : Nat) : Prop :=
  i ∈ s.rob.instList ∧ (s.insts i).canCommit = false ∧ i ∉ s.iew.iewQueue ∧
    i ∉ s.iew.toCommit.insts ∧ i ∉ s.commit.fromIEW.insts

instance (s : Pipeline) (i : Nat) : Decidable (s.InFlight i) := inferInstanceAs (Decidable (_ ∧ _))

/-- A non-speculative instruction is dispatched: commit has to tell IEW when to execute it. -/
def dispatchNonSpec (s : Pipeline) (i : Nat) : Option Pipeline :=
  if i ∈ s.rob.instList ∧ (s.insts i).isNonSpeculative ∧ (s.insts i).issued = false then
    some (s.modifyInst i DynInst.setCanCommit)
  else none

/-- An instruction writes its destination registers. -/
def writeRegs (s : Pipeline) (i : Nat) : Pipeline := s.emit (.setReg i (s.mark i))

def isMemRef (inst : DynInst) : Bool := inst.isLoad || inst.isStore || inst.isAtomic

/-- Only a memory instruction may wait. -/
def ExecResult.Legal (result : ExecResult) (inst : DynInst) : Prop :=
  isMemRef inst = true ∨ result ≠ .waits ∧ result ≠ .unexecuted

instance (result : ExecResult) (inst : DynInst) : Decidable (result.Legal inst) :=
  inferInstanceAs (Decidable (_ ∨ _))

/-- The part of `executeInsts` that executes the instruction. -/
def executeInst (s : Pipeline) (i : Nat) (result : ExecResult) : Pipeline :=
  let s := s.modifyInst i DynInst.setIssued
  let s := if (s.insts i).runahead && ((s.insts i).isNonSpeculative || (s.insts i).isAtomic) then
    s.modifyInst i DynInst.setPoisoned else s
  let inst := s.insts i
  if inst.poisoned && (!inst.isStore || inst.isNonSpeculative || inst.isAtomic) then
    (s.modifyInst i DynInst.setExecuted).instToCommit i
  else match result with
    | .waits => s
    | .unexecuted => s.instToCommit i
    | .done fault =>
      let s := if inst.fault || fault then s else s.writeRegs i
      (s.modifyInst i fun inst => { inst.setExecuted with fault := inst.fault || fault }).instToCommit i

/-- The loop body of `IEW::executeInsts`. -/
def execute (s : Pipeline) (i : Nat) (result : ExecResult) (r : Redirect) : Option Pipeline :=
  if s.InFlight i ∧ result.Legal (s.insts i) ∧ r.Legal s i then
    if (s.insts i).squashed || s.stale i || s.inSquashWindow i then
      some (s.modifyInst i fun inst => inst.setSquashed.setExecuted.setCanCommit)
    else some ((s.executeInst i result).redirect i r)
  else none

/-- `LSQUnit::writeback`, and the check for a mispredicted branch after it. -/
def dataReturn (s : Pipeline) (i : Nat) (poisoned mispredicted : Bool) : Option Pipeline :=
  if s.InFlight i ∧ isMemRef (s.insts i) = true then
    if (s.insts i).squashed || s.stale i then some s
    else
      let s := if poisoned then s.modifyInst i DynInst.setPoisoned else s
      let s := if (s.insts i).executed || (s.insts i).fault then s else s.writeRegs i
      let s := (s.modifyInst i DynInst.setExecuted).instToCommit i
      some (if mispredicted then s.squashDueToBranch i else s)
  else none

/-- `IEW::writebackInsts`: the first `n` instructions of the queue go to commit. -/
def writebackInsts (s : Pipeline) (n : Nat) : Pipeline :=
  { s with iew := { s.iew with
    iewQueue := s.iew.iewQueue.drop n
    toCommit := { s.iew.toCommit with insts := s.iew.iewQueue.take n } } }

end IEW

end Pipeline
end Runahead
end Gem5
