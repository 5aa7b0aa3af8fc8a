import Gem5Runahead.StoreSet
import Gem5Runahead.WakeUp

/-!
# MemDepUnit

The memory dependence unit. A memory instruction waits in it, beside its registers, for the barriers
that are outstanding, or else for the store that the predictor says. Each instruction has an entry
with the entries that depend on it; when it is completed, these have one instruction less to wait
for.

The unit of one thread. An entry can be reached through the entries it depends on after it has left
the hash, and is told apart by the sequence number. `none` is a failing assertion or a panic.

* `insert`, `insertNonSpec`, `insertBarrier` — an instruction is dispatched.
* `regsReady`, `nonSpecInstReady`, `replay` — it may be ready to issue now.
* `completeInst`, `squash` — it leaves the unit.
* `Allowed` — what the instruction queue sees to.
-/

namespace Gem5
namespace Runahead

structure MemDepInst extends QueueFlags where
  isHtmCmd : Bool := false
  pc : Nat := 0

namespace MemDepInst

/-- The instruction is among the `loadBarrierSNs` while it is in the unit. -/
def loadBarrier (w : MemDepInst) : Bool := w.isReadBarrier || w.isHtmCmd

def storeBarrier (w : MemDepInst) : Bool := w.isWriteBarrier || w.isHtmCmd

/-- Only stores, atomics and barriers have dependents. -/
def hasDependents (w : MemDepInst) : Bool :=
  w.isStore || w.isAtomic || w.isReadBarrier || w.isWriteBarrier || w.isHtmCmd

end MemDepInst

structure MemDepEntry where
  inst : MemDepInst := {}
  dependInsts : List Nat := []
  regsReady : Bool := false
  memDeps : Nat := 0
  squashed : Bool := false

structure MemDepUnit where
  depPred : StoreSet := {}
  entry : Nat → MemDepEntry := fun _ => {}
  memDepHash : List Nat := []
  /-- In the order of insertion. -/
  instList : List Nat := []
  instsToReplay : List Nat := []
  loadBarrierSNs : List Nat := []
  storeBarrierSNs : List Nat := []
  /-- The instructions that were moved to the ready list of the instruction queue. -/
  readied : List Nat := []
  /-- The instructions that are to be executed once more. -/
  rescheduled : List Nat := []
  youngest : Nat := 0

namespace MemDepUnit

variable (cfg : StoreSetParams)

def modifyEntry (s : MemDepUnit) (i : Nat) (f : MemDepEntry → MemDepEntry) : MemDepUnit :=
  { s with entry := Function.update s.entry i (f (s.entry i)) }

def inst (s : MemDepUnit) (i : Nat) : MemDepInst := (s.entry i).inst

def moveToReady (s : MemDepUnit) (i : Nat) : Option MemDepUnit :=
  if (s.entry i).squashed then none else some { s with readied := s.readied ++ [i] }

section Insert

/-- What `insert` and `insertBarrier` begin with. -/
def insertEntry (s : MemDepUnit) (i : Nat) (inst : MemDepInst) : MemDepUnit :=
  { s with
    entry := Function.update s.entry i { inst }
    memDepHash := i :: s.memDepHash
    instList := s.instList ++ [i] }

def insertBarrierSN (s : MemDepUnit) (i : Nat) : MemDepUnit :=
  { s with
    loadBarrierSNs := if (s.inst i).loadBarrier then i :: s.loadBarrierSNs else s.loadBarrierSNs
    storeBarrierSNs :=
      if (s.inst i).storeBarrier then i :: s.storeBarrierSNs else s.storeBarrierSNs }

/-- The barriers that the instruction waits for, or the store that it is predicted to depend on. -/
def producingStores (s : MemDepUnit) (i : Nat) : Option (List Nat) :=
  let w := s.inst i
  if (w.isLoad || w.isAtomic) && !s.loadBarrierSNs.isEmpty then some s.loadBarrierSNs
  else if (w.isStore || w.isAtomic) && !s.storeBarrierSNs.isEmpty then some s.storeBarrierSNs
  else do
    let dep ← s.depPred.checkInst cfg w.pc
    return if dep ≠ 0 then [dep] else []

/-- Both kinds of insertion end with this. -/
def insertStore (s : MemDepUnit) (i : Nat) : Option MemDepUnit :=
  let w := s.inst i
  if w.isStore || w.isAtomic then
    (s.depPred.insertStore cfg w.pc i).map fun depPred => { s with depPred }
  else if w.isLoad then some s
  else none

def addDependents (s : MemDepUnit) (i : Nat) (storeEntries : List Nat) : MemDepUnit :=
  (storeEntries.foldl (fun s p => s.modifyEntry p fun e =>
    { e with dependInsts := e.dependInsts ++ [i] }) s).modifyEntry i fun e =>
      { e with memDeps := storeEntries.length }

/-- Without a producer in the unit, the instruction can issue as soon as its registers are ready. -/
def dependOn (s : MemDepUnit) (i : Nat) (readyToIssue : Bool) (storeEntries : List Nat) :
    Option MemDepUnit :=
  let s := if readyToIssue then s.modifyEntry i fun e => { e with regsReady := true } else s
  if storeEntries = [] then if readyToIssue then s.moveToReady i else some s
  else some (s.addDependents i storeEntries)

def insert (s : MemDepUnit) (i : Nat) (inst : MemDepInst) (readyToIssue : Bool) :
    Option MemDepUnit := do
  let s := s.insertEntry i inst
  let producing ← s.producingStores cfg i
  let s ← s.dependOn i readyToIssue (producing.filter (· ∈ s.memDepHash))
  (s.insertBarrierSN i).insertStore cfg i

def insertBarrier (s : MemDepUnit) (i : Nat) (inst : MemDepInst) : MemDepUnit :=
  (s.insertEntry i inst).insertBarrierSN i

def insertNonSpec (s : MemDepUnit) (i : Nat) (inst : MemDepInst) : Option MemDepUnit :=
  (s.insertBarrier i inst).insertStore cfg i

/-- What the insertion into the instruction queue does here. -/
def dispatch (s : MemDepUnit) (i : Nat) (inst : MemDepInst) (readyToIssue : Bool) :
    Option MemDepUnit :=
  let s := { s with youngest := i }
  match inst.insertKind with
  | .insert => if inst.isMemRef then s.insert cfg i inst readyToIssue else some s
  | .insertNonSpec => if inst.isMemRef then s.insertNonSpec cfg i inst else some s
  | .insertBarrier =>
    let s := s.insertBarrier i inst
    if inst.isMemRef then s.insertNonSpec cfg i inst else some s
  | .recordProducer => some s

end Insert

section Ready

def regsReady (s : MemDepUnit) (i : Nat) : Option MemDepUnit :=
  if i ∈ s.memDepHash then
    let s := s.modifyEntry i fun e => { e with regsReady := true }
    if (s.entry i).memDeps = 0 then s.moveToReady i else some s
  else none

def nonSpecInstReady (s : MemDepUnit) (i : Nat) : Option MemDepUnit :=
  if i ∈ s.memDepHash then s.moveToReady i else none

def reschedule (s : MemDepUnit) (i : Nat) : MemDepUnit :=
  { s with instsToReplay := s.instsToReplay ++ [i], rescheduled := s.rescheduled ++ [i] }

/-- The loop of `replay`. -/
def replayInsts : List Nat → MemDepUnit → Option MemDepUnit
  | [], s => some { s with instsToReplay := [] }
  | i :: rest, s => if i ∈ s.memDepHash then s.moveToReady i >>= replayInsts rest else none

def replay (s : MemDepUnit) : Option MemDepUnit := replayInsts s.instsToReplay s

end Ready

section Complete

/-- The loop body of `wakeDependents`. -/
def wakeInst (s : MemDepUnit) (i : Nat) : Option MemDepUnit :=
  if (s.entry i).memDeps = 0 then none
  else
    let s := s.modifyEntry i fun e => { e with memDeps := e.memDeps - 1 }
    if (s.entry i).memDeps = 0 && (s.entry i).regsReady && !(s.entry i).squashed then
      s.moveToReady i
    else some s

def wakeDependents (s : MemDepUnit) (i : Nat) : Option MemDepUnit :=
  if !(s.inst i).hasDependents then some s
  else if i ∈ s.memDepHash then
    ((s.entry i).dependInsts.foldlM wakeInst s).map fun s =>
      s.modifyEntry i fun e => { e with dependInsts := [] }
  else none

def completed (s : MemDepUnit) (i : Nat) : Option MemDepUnit :=
  if i ∈ s.memDepHash then
    some { s with instList := s.instList.erase i, memDepHash := s.memDepHash.erase i }
  else none

/-- The barriers of one kind that are outstanding when the instruction is completed. -/
def eraseBarrier (isBarrier : Bool) (sns : List Nat) (i : Nat) : Option (List Nat) :=
  if isBarrier then if sns.isEmpty then none else some (sns.erase i) else some sns

def completeInst (s : MemDepUnit) (i : Nat) : Option MemDepUnit := do
  let s ← s.wakeDependents i
  let s ← s.completed i
  let storeBarrierSNs ← eraseBarrier (s.inst i).storeBarrier s.storeBarrierSNs i
  let loadBarrierSNs ← eraseBarrier (s.inst i).loadBarrier s.loadBarrierSNs i
  return { s with storeBarrierSNs, loadBarrierSNs }

end Complete

section Squash

/-- The walk of `squash` from the tail. -/
def squashWalk (squashedNum : Nat) : List Nat → MemDepUnit → Option MemDepUnit
  | [], s => some { s with instList := [] }
  | i :: rest, s =>
    if squashedNum < i then
      if i ∈ s.memDepHash then
        squashWalk squashedNum rest
          ({ s with
            loadBarrierSNs := s.loadBarrierSNs.erase i
            storeBarrierSNs := s.storeBarrierSNs.erase i
            memDepHash := s.memDepHash.erase i }.modifyEntry i fun e => { e with squashed := true })
      else none
    else some { s with instList := (i :: rest).reverse }

def squash (s : MemDepUnit) (squashedNum : Nat) : Option MemDepUnit := do
  let s := { s with instsToReplay := s.instsToReplay.filter fun i => !decide (squashedNum < i) }
  let s ← squashWalk squashedNum s.instList.reverse s
  let depPred ← s.depPred.squash squashedNum
  return { s with depPred }

end Squash

inductive MemDepOp where
  | dispatch (i : Nat) (inst : MemDepInst) (readyToIssue : Bool)
  | regsReady (i : Nat)
  | nonSpecInstReady (i : Nat)
  | reschedule (i : Nat)
  | replay
  | issue (i : Nat)
  | completeInst (i : Nat)
  | violation (storePC loadPC : Nat)
  | squash (squashedNum : Nat)

def step (s : MemDepUnit) : MemDepOp → Option MemDepUnit
  | .dispatch i inst readyToIssue => s.dispatch cfg i inst readyToIssue
  | .regsReady i => s.regsReady i
  | .nonSpecInstReady i => s.nonSpecInstReady i
  | .reschedule i => some (s.reschedule i)
  | .replay => s.replay
  | .issue i =>
    (s.depPred.issued cfg (s.inst i).pc i (s.inst i).isStore).map fun depPred => { s with depPred }
  | .completeInst i => s.completeInst i
  | .violation storePC loadPC =>
    (s.depPred.violation cfg storePC loadPC).map fun depPred => { s with depPred }
  | .squash n => s.squash n

/-- The instruction waits in the unit for what it depends on. -/
def Speculative (s : MemDepUnit) (i : Nat) : Prop := (s.inst i).insertKind = .insert

instance (s : MemDepUnit) (i : Nat) : Decidable (s.Speculative i) :=
  inferInstanceAs (Decidable (_ = _))

/-- Instructions come in order. The registers of an instruction get ready once, and a load that is
to be executed again is not completed before that. -/
def Allowed (s : MemDepUnit) : MemDepOp → Prop
  | .dispatch i _ _ => s.youngest < i
  | .regsReady i => i ∈ s.instList ∧ s.Speculative i ∧ (s.entry i).regsReady = false
  | .nonSpecInstReady i => i ∈ s.instList ∧ ¬s.Speculative i
  | .reschedule i => i ∈ s.instList ∧ i ∈ s.readied
  | .completeInst i => i ∈ s.instList ∧ i ∉ s.instsToReplay
  | _ => True

instance : DecidableRel Allowed
  | _, .dispatch .. => inferInstanceAs (Decidable (_ < _))
  | _, .regsReady _ => inferInstanceAs (Decidable (_ ∧ _ ∧ _))
  | _, .nonSpecInstReady _ | _, .reschedule _ | _, .completeInst _ =>
    inferInstanceAs (Decidable (_ ∧ _))
  | _, .replay | _, .issue _ | _, .violation .. | _, .squash _ => .isTrue trivial

def tryStep (cfg : StoreSetParams) (s : MemDepUnit) (op : MemDepOp) : Option MemDepUnit :=
  if s.Allowed op then s.step cfg op else none

def system : Transition.System MemDepUnit MemDepOp where
  init s := s = {}
  step s op t := s.Allowed op ∧ s.step cfg op = some t

end MemDepUnit
end Runahead
end Gem5
