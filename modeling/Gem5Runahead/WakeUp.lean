import Gem5Runahead.Lib.Transition
import Mathlib.Logic.Function.Basic

/-!
# WakeUp

How the instruction queue finds out that the source registers of an instruction are ready. The
dependency graph has, for each physical register, the instruction that produces it and a chain of
entries for the operands that wait for it. An instruction that has been executed wakes the chains of
its destination registers, and an instruction with no operand left to wait for is ready to issue.

The queue of one thread, without pinned registers, that have several producers. What a memory
instruction that is ready still waits for is not part of the state. `none` is a failing assertion
or a panic.

* `DependencyGraph` — the chains and the producers.
* `insert`, `insertNonSpec` — an instruction is dispatched, in one way or the other.
* `wakeDependents`, `doSquash`, `commit` — it is written back, squashed or committed.
* `Allowed` — what rename and commit see to.
-/

namespace Gem5
namespace Runahead

structure DependencyGraph where
  /-- The chains, the newest entry first. -/
  dependents : Nat → List Nat := fun _ => []
  producer : Nat → Option Nat := fun _ => none

namespace DependencyGraph

def empty (g : DependencyGraph) (idx : Nat) : Bool := (g.dependents idx).isEmpty

def insert (g : DependencyGraph) (idx inst : Nat) : DependencyGraph :=
  { g with dependents := Function.update g.dependents idx (inst :: g.dependents idx) }

def setInst (g : DependencyGraph) (idx inst : Nat) : DependencyGraph :=
  { g with producer := Function.update g.producer idx (some inst) }

def clearInst (g : DependencyGraph) (idx : Nat) : DependencyGraph :=
  { g with producer := Function.update g.producer idx none }

/-- It is an error not to find the instruction in a chain that is not empty. -/
def remove (g : DependencyGraph) (idx inst : Nat) : Option DependencyGraph :=
  if g.dependents idx = [] then some g
  else if inst ∈ g.dependents idx then
    some { g with
      dependents := Function.update g.dependents idx ((g.dependents idx).erase inst) }
  else none

end DependencyGraph

/-- The flags of an instruction that say how it is dispatched. -/
structure QueueFlags where
  isLoad : Bool := false
  isStore : Bool := false
  isStoreConditional : Bool := false
  isAtomic : Bool := false
  isReadBarrier : Bool := false
  isWriteBarrier : Bool := false
  isNop : Bool := false
  isNonSpeculative : Bool := false

namespace QueueFlags

def isMemRef (f : QueueFlags) : Bool := f.isLoad || f.isStore || f.isAtomic

def isFullMemBarrier (f : QueueFlags) : Bool := f.isReadBarrier && f.isWriteBarrier

inductive InsertKind where
  | insert
  | insertNonSpec
  | insertBarrier
  | recordProducer
deriving DecidableEq

/-- The cases of `dispatchInsts`. -/
def insertKind (f : QueueFlags) : InsertKind :=
  if f.isAtomic then .insertNonSpec
  else if f.isLoad then if f.isNonSpeculative then .insertNonSpec else .insert
  else if f.isStore then
    if f.isStoreConditional then .insertNonSpec
    else if f.isNonSpeculative then .insertNonSpec else .insert
  else if f.isReadBarrier || f.isWriteBarrier then .insertBarrier
  else if f.isNop then .recordProducer
  else if f.isNonSpeculative then .insertNonSpec else .insert

def isAcqRel (f : QueueFlags) : Bool :=
  f.isFullMemBarrier && (f.isLoad || f.isStore && !f.isStoreConditional)

/-- A squash looks for the instruction in the dependency graph, and not among those that are not
speculative. -/
def removesDependents (f : QueueFlags) : Bool :=
  f.isAcqRel || !f.isNonSpeculative && !f.isStoreConditional && !f.isAtomic && !f.isReadBarrier &&
    !f.isWriteBarrier

end QueueFlags

/-- A source register, as it was renamed, and its `readySrcIdx` flag. -/
structure SrcReg where
  reg : Nat
  ready : Bool

structure WakeInst where
  flags : QueueFlags := {}
  srcs : List SrcReg := []
  dests : List Nat := []
  readyRegs : Nat := 0
  canIssue : Bool := false
  issued : Bool := false
  squashedInIQ : Bool := false
  memOpDone : Bool := false
  /-- The instruction has woken its dependents. -/
  woken : Bool := false

namespace WakeInst

/-- The instruction as it comes from rename. -/
def renamed (flags : QueueFlags) (srcs : List SrcReg) (dests : List Nat) : WakeInst :=
  { flags, srcs, dests
    readyRegs := srcs.countP SrcReg.ready
    canIssue := srcs.countP SrcReg.ready == srcs.length }

def markSrcRegReady (w : WakeInst) : WakeInst :=
  { w with
    readyRegs := w.readyRegs + 1, canIssue := w.canIssue || w.readyRegs + 1 == w.srcs.length }

end WakeInst

structure WakeUp where
  graph : DependencyGraph := {}
  regScoreboard : Nat → Bool := fun _ => false
  inst : Nat → WakeInst := fun _ => {}
  /-- The queue's list, the oldest instruction first. -/
  instList : List Nat := []
  nonSpecInsts : List Nat := []
  /-- The instructions that were found to be ready, in this order. -/
  readied : List Nat := []
  youngest : Nat := 0

namespace WakeUp

variable (isFixedMapping : Nat → Bool)

def modifyInst (s : WakeUp) (i : Nat) (f : WakeInst → WakeInst) : WakeUp :=
  { s with inst := Function.update s.inst i (f (s.inst i)) }

/-- `addIfReady`; of a memory instruction the memory dependence unit is told. -/
def addIfReady (s : WakeUp) (i : Nat) : WakeUp :=
  if (s.inst i).canIssue then { s with readied := s.readied ++ [i] } else s

section Insert

/-- The loop of `addToDependents` over the source registers, with what becomes of their flags. -/
def addSrcs (i : Nat) : List SrcReg → WakeUp → List SrcReg × WakeUp
  | [], s => ([], s)
  | src :: rest, s =>
    let (src, s) :=
      if src.ready || isFixedMapping src.reg then (src, s)
      else if s.regScoreboard src.reg then
        ({ src with ready := true }, s.modifyInst i WakeInst.markSrcRegReady)
      else (src, { s with graph := s.graph.insert src.reg i })
    let (rest, s) := addSrcs i rest s
    (src :: rest, s)

def addToDependents (s : WakeUp) (i : Nat) : WakeUp :=
  let (srcs, s) := addSrcs isFixedMapping i (s.inst i).srcs s
  s.modifyInst i fun w => { w with srcs }

/-- The loop body of `addToProducers`. -/
def addProducer (i : Nat) (s : WakeUp) (dest : Nat) : Option WakeUp :=
  if isFixedMapping dest then some s
  else if !s.graph.empty dest then none
  else some { s with
    graph := s.graph.setInst dest i
    regScoreboard := Function.update s.regScoreboard dest false }

def addToProducers (s : WakeUp) (i : Nat) : Option WakeUp :=
  (s.inst i).dests.foldlM (addProducer isFixedMapping i) s

def insert (s : WakeUp) (i : Nat) : Option WakeUp := do
  let s := { s with instList := s.instList ++ [i] }
  let s := s.addToDependents isFixedMapping i
  let s ← s.addToProducers isFixedMapping i
  return s.addIfReady i

/-- `insertBarrier` is the same. -/
def insertNonSpec (s : WakeUp) (i : Nat) : Option WakeUp :=
  { s with nonSpecInsts := s.nonSpecInsts ++ [i], instList := s.instList ++ [i] }.addToProducers
    isFixedMapping i

def dispatch (s : WakeUp) (i : Nat) (w : WakeInst) : Option WakeUp :=
  let s := { s with inst := Function.update s.inst i w, youngest := i }
  match w.flags.insertKind with
  | .insert => s.insert isFixedMapping i
  | .insertNonSpec | .insertBarrier => s.insertNonSpec isFixedMapping i
  | .recordProducer => s.addToProducers isFixedMapping i

end Insert

section Ready

def scheduleNonSpec (s : WakeUp) (i : Nat) : Option WakeUp :=
  if i ∈ s.nonSpecInsts then
    let s := { s with nonSpecInsts := s.nonSpecInsts.erase i }.modifyInst i fun w =>
      { w with canIssue := true }
    some (s.addIfReady i)
  else none

/-- The loop that pops the chain of a register. -/
def wakeChain : List Nat → WakeUp → WakeUp
  | [], s => s
  | i :: chain, s => wakeChain chain ((s.modifyInst i WakeInst.markSrcRegReady).addIfReady i)

/-- The loop body of `wakeDependents`. -/
def wakeDest (s : WakeUp) (dest : Nat) : WakeUp :=
  if isFixedMapping dest then s
  else
    let s := wakeChain (s.graph.dependents dest) s
    { s with
      graph := { s.graph with
        dependents := Function.update s.graph.dependents dest [] }.clearInst dest
      regScoreboard := Function.update s.regScoreboard dest true }

def wakeDependents (s : WakeUp) (i : Nat) : WakeUp :=
  let s := s.modifyInst i fun w => { w with memOpDone := w.memOpDone || w.flags.isMemRef }
  let s := (s.inst i).dests.foldl (wakeDest isFixedMapping) s
  s.modifyInst i fun w => { w with woken := true }

end Ready

section Squash

def removeSrc (i : Nat) (g : DependencyGraph) (src : SrcReg) : Option DependencyGraph :=
  if !src.ready && !isFixedMapping src.reg then g.remove src.reg i else some g

def clearDest (g : DependencyGraph) (dest : Nat) : Option DependencyGraph :=
  if isFixedMapping dest then some g
  else if g.empty dest then some (g.clearInst dest) else none

/-- The instruction no longer waits, for its operands or for its turn at commit. -/
def leave (s : WakeUp) (i : Nat) : Option WakeUp :=
  if (s.inst i).flags.removesDependents then
    ((s.inst i).srcs.foldlM (removeSrc isFixedMapping i) s.graph).map fun graph =>
      { s with graph }
  else some { s with nonSpecInsts := s.nonSpecInsts.erase i }

/-- The loop body of `doSquash`, for an instruction that is not squashed yet. -/
def squashInst (s : WakeUp) (i : Nat) : Option WakeUp := do
  let w := s.inst i
  let s ←
    if !w.issued || w.flags.isMemRef && !w.memOpDone then
      (s.leave isFixedMapping i).map fun s =>
        s.modifyInst i fun w => { w with squashedInIQ := true, issued := true }
    else some s
  let graph ← w.dests.foldlM (clearDest isFixedMapping) s.graph
  return { s with graph }

/-- The walk from the tail, that leaves an instruction in the list which was squashed before. -/
def squashWalk (squashedSeqNum : Nat) : List Nat → List Nat → WakeUp → Option WakeUp
  | [], kept, s => some { s with instList := kept }
  | i :: rest, kept, s =>
    if squashedSeqNum < i then
      if (s.inst i).squashedInIQ then squashWalk squashedSeqNum rest (i :: kept) s
      else do squashWalk squashedSeqNum rest kept (← s.squashInst isFixedMapping i)
    else some { s with instList := rest.reverse ++ i :: kept }

def doSquash (s : WakeUp) (squashedSeqNum : Nat) : Option WakeUp :=
  squashWalk isFixedMapping squashedSeqNum s.instList.reverse [] s

/-- The instructions up to the number leave the list at its front. -/
def commit (s : WakeUp) (inst : Nat) : WakeUp :=
  { s with instList := s.instList.dropWhile (· ≤ inst) }

end Squash

inductive WakeOp where
  | dispatch (i : Nat) (flags : QueueFlags) (srcs : List SrcReg) (dests : List Nat)
  | scheduleNonSpec (i : Nat)
  | setIssued (i : Nat)
  | clearIssued (i : Nat)
  | wakeDependents (i : Nat)
  | commit (inst : Nat)
  | squash (squashedSeqNum : Nat)

def step (s : WakeUp) : WakeOp → Option WakeUp
  | .dispatch i flags srcs dests =>
    s.dispatch isFixedMapping i (.renamed flags srcs dests)
  | .scheduleNonSpec i => s.scheduleNonSpec i
  | .setIssued i => some (s.modifyInst i fun w => { w with issued := true })
  | .clearIssued i => some (s.modifyInst i fun w => { w with issued := false })
  | .wakeDependents i => some (s.wakeDependents isFixedMapping i)
  | .commit i => some (s.commit i)
  | .squash n => s.doSquash isFixedMapping n

/-- A source register that rename did not find ready is in the scoreboard of the queue by now, or an
instruction of the queue is to produce it. -/
def SrcOk (s : WakeUp) (src : SrcReg) : Prop :=
  src.ready = false → isFixedMapping src.reg = false ∧
    (s.regScoreboard src.reg = true ∨
      ∃ p ∈ s.instList, src.reg ∈ (s.inst p).dests ∧ (s.inst p).woken = false)

/-- Rename has taken the destination register from the free list: no instruction of the queue uses
it. -/
def DestOk (s : WakeUp) (srcs : List SrcReg) (dest : Nat) : Prop :=
  isFixedMapping dest = false →
    (∀ i ∈ s.instList, dest ∉ (s.inst i).dests ∧ ∀ src ∈ (s.inst i).srcs, src.reg ≠ dest) ∧
      ∀ src ∈ srcs, src.reg ≠ dest

/-- Instructions come in order from rename, with registers of their own. A squash takes out of the
chains what `insert` has put there, and what is only recorded as a producer has registers with a
fixed mapping. An instruction is issued when it is ready, and is no longer issued when it is
blocked; it is written back once, and committed after that. -/
def Allowed (s : WakeUp) : WakeOp → Prop
  | .dispatch i flags srcs dests =>
    s.youngest < i ∧ (∀ src ∈ srcs, s.SrcOk isFixedMapping src) ∧
      (∀ dest ∈ dests, s.DestOk isFixedMapping srcs dest) ∧
      (flags.insertKind ≠ .recordProducer →
        (flags.removesDependents = true ↔ flags.insertKind = .insert)) ∧
      (flags.insertKind = .recordProducer → ∀ dest ∈ dests, isFixedMapping dest = true)
  | .scheduleNonSpec i => i ∈ s.nonSpecInsts
  | .setIssued i => i ∈ s.instList ∧ i ∈ s.readied
  | .clearIssued i => i ∈ s.instList
  | .wakeDependents i => i ∈ s.instList ∧ i ∈ s.readied ∧ (s.inst i).woken = false
  | .commit n => ∀ i ∈ s.instList, i ≤ n → (s.inst i).woken = true
  | .squash _ => True

def system : Transition.System WakeUp WakeOp where
  init s := s = {}
  step s op t := s.Allowed isFixedMapping op ∧ s.step isFixedMapping op = some t

end WakeUp
end Runahead
end Gem5
