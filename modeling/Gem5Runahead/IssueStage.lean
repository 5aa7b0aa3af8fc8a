import Gem5Runahead.Lib.Transition
import Gem5Runahead.Lib.While
import Gem5Runahead.FUPool
import Gem5Runahead.ReadyLists

/-!
# IssueStage

The issue of instructions from the instruction queue. In each cycle the ready instructions are
taken oldest first, each as far as a functional unit of its class is free. An instruction with a
latency of one cycle is executed in the next cycle, any other once its unit completes. The sizes in
the time buffer from issue to execute say how many instructions to execute in a cycle.

When an instruction becomes ready, is squashed, translated or executed, and when the cache is free
again, is in the labels. `none` is a failing assertion, or the cycles of an operation that takes
less than none.

* `scheduleReadyInsts` — with `requeue` for the memory instructions that waited, and the loop over
  the ready lists, `Cursor.issue`.
* `ExecuteQueue` — what was issued, until it is executed.
* `system` — the cycles of the stage, and all that can happen in between.
-/

namespace Gem5
namespace Runahead

structure IssueParams (κ : Type) where
  totalWidth : Nat
  issueToExecuteDelay : Nat
  fuList : List (FUDesc κ)
  noOpClass : κ
  opClass : Nat → κ

/-- A completion event, and how many cycles still end before it comes. -/
structure FUCompletion where
  inst : Nat
  fuIdx : Nat
  freeFU : Bool
  left : Nat

/-- When an instruction was issued, and the latency of its operation. -/
structure Issued where
  inst : Nat
  cycle : Nat
  latency : Nat

/-- Where the cycle is: before `executeInsts`, or with so many instructions still to execute. -/
inductive IssuePhase where
  | idle
  | executing (n : Nat)
deriving DecidableEq

/-- What was issued, on its way to be executed. -/
structure ExecuteQueue where
  instsToExecute : List Nat := []
  /-- The sizes in the time buffer that were not read yet, `access(0)` first. -/
  issueToExecute : List Nat
  executions : List FUCompletion := []
  cycle : Nat := 0
  phase : IssuePhase := .idle
  /-- What was issued, and what was handed out to be executed in which cycle. -/
  issued : List Issued := []
  executed : List (Nat × Nat) := []

namespace ExecuteQueue

/-- The instruction is executed next: it goes with the newest size. -/
def issueNext (q : ExecuteQueue) (inst : Nat) : ExecuteQueue :=
  { q with
    issued := q.issued ++ [⟨inst, q.cycle, 1⟩]
    issueToExecute := q.issueToExecute.modifyHead (· + 1)
    instsToExecute := q.instsToExecute ++ [inst] }

/-- The instruction is executed after its completion event. -/
def issueEvent (q : ExecuteQueue) (execution : FUCompletion) : ExecuteQueue :=
  { q with
    issued := q.issued ++ [⟨execution.inst, q.cycle, execution.left⟩]
    executions := q.executions ++ [execution] }

def complete (q : ExecuteQueue) (k : Nat) (execution : FUCompletion) : ExecuteQueue :=
  { q with
    executions := q.executions.eraseIdx k
    issueToExecute := q.issueToExecute.modify 1 (· + 1)
    instsToExecute := q.instsToExecute ++ [execution.inst] }

/-- `executeInsts` reads how many instructions there are. -/
def readSize (q : ExecuteQueue) : Option ExecuteQueue := do
  let n ← q.issueToExecute.getLast?
  return { q with issueToExecute := q.issueToExecute.dropLast, phase := .executing n }

def getInstToExecute (q : ExecuteQueue) : Option ExecuteQueue :=
  match q.instsToExecute, q.phase with
  | i :: rest, .executing (n + 1) =>
    some { q with
      instsToExecute := rest, executed := q.executed ++ [(i, q.cycle)], phase := .executing n }
  | _, _ => none

/-- The end of the cycle. -/
def advance (q : ExecuteQueue) : ExecuteQueue :=
  { q with
    issueToExecute := 0 :: q.issueToExecute
    executions := q.executions.map fun x => { x with left := x.left - 1 }
    cycle := q.cycle + 1
    phase := .idle }

end ExecuteQueue

structure IssueStage (κ : Type) where
  ready : ReadyLists κ := {}
  fuPool : FUPool κ
  toExecute : ExecuteQueue
  wbOutstanding : Int := 0
  deferredMemInsts : List Nat := []
  blockedMemInsts : List Nat := []
  retryMemInsts : List Nat := []
  isSquashed : Nat → Bool := fun _ => false
  translationCompleted : Nat → Bool := fun _ => false
  isExecuted : Nat → Bool := fun _ => false

namespace IssueStage

variable {κ : Type} [DecidableEq κ] (cfg : IssueParams κ)

section Requeue

/-- `addReadyMemInst`, and the end of `addIfReady`. -/
def addReady (s : IssueStage κ) (inst : Nat) : Option (IssueStage κ) := do
  return { s with ready := ← s.ready.addReady (cfg.opClass inst) inst }

/-- A deferred instruction need not wait any longer. -/
def deferredDone (s : IssueStage κ) (i : Nat) : Bool := s.translationCompleted i || s.isSquashed i

def getDeferredMemInstToExecute (s : IssueStage κ) : Option Nat × IssueStage κ :=
  match s.deferredMemInsts.find? s.deferredDone with
  | none => (none, s)
  | some i => (some i, { s with deferredMemInsts := s.deferredMemInsts.erase i })

/-- An instruction that has been executed in the meantime is dropped, and none is handed out. -/
def getBlockedMemInstToExecute (s : IssueStage κ) : Option Nat × IssueStage κ :=
  match s.retryMemInsts with
  | [] => (none, s)
  | i :: rest =>
    (if s.isExecuted i then none else some i, { s with retryMemInsts := rest })

/-- `while ((mem_inst = get())) addReadyMemInst(mem_inst)`. -/
def requeue (get : IssueStage κ → Option Nat × IssueStage κ) :
    Nat → IssueStage κ → Option (IssueStage κ)
  | 0, _ => none
  | n + 1, s =>
    match get s with
    | (none, s) => some s
    | (some i, s) => do requeue get n (← s.addReady cfg i)

end Requeue

section Issue

/-- The instruction has its unit, or needs none. -/
def issueInst (s : IssueStage κ) (op_class : κ) (inst : Nat) (idx : FUIdx) :
    Option (IssueStage κ) :=
  let op_latency := match idx with
    | .unit _ => s.fuPool.maxOpLatencies op_class
    | _ => 1
  if op_latency = 1 then
    let s := { s with toExecute := s.toExecute.issueNext inst }
    match idx with
    | .unit fu_idx => do return { s with fuPool := ← s.fuPool.freeUnitNextCycle fu_idx }
    | _ => some s
  else if op_latency = 0 then none
  else
    match idx with
    | .unit fu_idx =>
      let pipelined := s.fuPool.pipelined op_class
      let s := { s with
        wbOutstanding := s.wbOutstanding + 1
        toExecute := s.toExecute.issueEvent ⟨inst, fu_idx, !pipelined, op_latency⟩ }
      if pipelined then do return { s with fuPool := ← s.fuPool.freeUnitNextCycle fu_idx }
      else some s
    | _ => none

/-- The loop over the ready lists: the list is split at the iterator. -/
structure Cursor (κ : Type) where
  stage : IssueStage κ
  passed : List (ListOrderEntry κ)
  rest : List (ListOrderEntry κ)
  total_issued : Nat := 0

namespace Cursor

def done (s : Cursor κ) : Bool := cfg.totalWidth ≤ s.total_issued || s.rest.isEmpty

def getUnit (s : IssueStage κ) (op_class : κ) : Option (FUIdx × FUPool κ) :=
  if op_class ≠ cfg.noOpClass then s.fuPool.getUnit op_class else some (.noCapableFU, s.fuPool)

/-- The loop body. -/
def issue (s : Cursor κ) : Option (Cursor κ) :=
  match s.rest with
  | [] => some s
  | e :: next => do
    let op_class := e.queueType
    let issuing_inst ← (s.stage.ready.readyInsts op_class).head?
    if issuing_inst ≠ e.oldestInst then none
    else if s.stage.isSquashed issuing_inst then do
      let (ready, next) ← s.stage.ready.popTop op_class next
      return { s with stage := { s.stage with ready }, rest := next }
    else do
      let (idx, fuPool) ← getUnit cfg s.stage op_class
      let stage := { s.stage with fuPool }
      if idx = .noFreeFU then return { s with stage, passed := s.passed ++ [e], rest := next }
      else do
        let stage ← stage.issueInst op_class issuing_inst idx
        let (ready, next) ← stage.ready.popTop op_class next
        return { s with
          stage := { stage with ready }, rest := next, total_issued := s.total_issued + 1 }

end Cursor

/-- With the cursor at the begin of the list, until it is done. -/
def issueLoop (s : IssueStage κ) : Option (IssueStage κ) := do
  let cursor ← While.loop (Cursor.done cfg) (Cursor.issue cfg) (s.ready.load s.ready.listOrder + 1)
    ⟨s, [], s.ready.listOrder, 0⟩
  return { cursor.stage with
    ready := { cursor.stage.ready with listOrder := cursor.passed ++ cursor.rest } }

def scheduleReadyInsts (s : IssueStage κ) : Option (IssueStage κ) := do
  let s ← s.requeue cfg getDeferredMemInstToExecute (s.deferredMemInsts.length + 1)
  let s ← s.requeue cfg getBlockedMemInstToExecute (s.retryMemInsts.length + 1)
  s.issueLoop cfg

end Issue

/-- The `k`th of the completion events that are outstanding. -/
def processFUCompletion (s : IssueStage κ) (k : Nat) : Option (IssueStage κ) := do
  let execution ← s.toExecute.executions[k]?
  let s := { s with wbOutstanding := s.wbOutstanding - 1 }
  let fuPool ←
    if execution.freeFU then s.fuPool.freeUnitNextCycle execution.fuIdx else some s.fuPool
  return { s with fuPool, toExecute := s.toExecute.complete k execution }

inductive IssueOp where
  | addReady (inst : Nat)
  | setSquashed (inst : Nat)
  | setTranslationCompleted (inst : Nat) (f : Bool)
  | setExecuted (inst : Nat)
  | deferMemInst (inst : Nat)
  | blockMemInst (inst : Nat)
  | cacheUnblocked
  | processFUCompletion (k : Nat)
  | processFreeUnits
  | executeInsts
  | getInstToExecute
  | scheduleReadyInsts

def step (s : IssueStage κ) : IssueOp → Option (IssueStage κ)
  | .addReady i => s.addReady cfg i
  | .setSquashed i => some { s with isSquashed := Function.update s.isSquashed i true }
  | .setTranslationCompleted i f =>
    some { s with translationCompleted := Function.update s.translationCompleted i f }
  | .setExecuted i => some { s with isExecuted := Function.update s.isExecuted i true }
  | .deferMemInst i => some { s with deferredMemInsts := s.deferredMemInsts ++ [i] }
  | .blockMemInst i => some { s with blockedMemInsts := s.blockedMemInsts ++ [i] }
  | .cacheUnblocked =>
    some { s with retryMemInsts := s.retryMemInsts ++ s.blockedMemInsts, blockedMemInsts := [] }
  | .processFUCompletion k => s.processFUCompletion k
  | .processFreeUnits => do return { s with fuPool := ← s.fuPool.processFreeUnits }
  | .executeInsts => do return { s with toExecute := ← s.toExecute.readSize }
  | .getInstToExecute => do return { s with toExecute := ← s.toExecute.getInstToExecute }
  | .scheduleReadyInsts => do
    let s ← s.scheduleReadyInsts cfg
    return { s with toExecute := s.toExecute.advance }

/-- A cycle frees units, executes what it read from the time buffer, and schedules. The completion
events that are due come before the next cycle. -/
def Allowed (s : IssueStage κ) : IssueOp → Prop
  | .processFUCompletion k =>
    s.toExecute.phase = .idle ∧ ∃ x, s.toExecute.executions[k]? = some x ∧ x.left = 0
  | .processFreeUnits | .executeInsts =>
    s.toExecute.phase = .idle ∧ ∀ x ∈ s.toExecute.executions, 0 < x.left
  | .getInstToExecute => ∃ n, s.toExecute.phase = .executing (n + 1)
  | .scheduleReadyInsts => s.toExecute.phase = .executing 0
  | _ => True

def system : Transition.System (IssueStage κ) IssueOp where
  init s := s = {
    fuPool := FUPool.create cfg.fuList
    toExecute := { issueToExecute := List.replicate (cfg.issueToExecuteDelay + 1) 0 } }
  step s op t := s.Allowed op ∧ s.step cfg op = some t

end IssueStage
end Runahead
end Gem5
