import Mathlib.Logic.Function.Basic

/-!
# DynInst

A dynamic instruction. Instructions are shared by every stage of the pipeline, so a state holds
them in one heap, indexed by sequence number; a stage's queue holds sequence numbers. A sequence
number is never given out twice, so it stands for the pointer to the instruction as well.
-/

namespace Gem5
namespace Runahead

structure PCState where
  instAddr : Nat := 0
  microPC : Nat := 0
deriving DecidableEq

structure DynInst where
  threadNumber : Nat := 0
  pcState : PCState := {}
  /-- What `advancePC` makes of `pcState` once the instruction is executed. -/
  nextPC : PCState := {}
  /-- The `Squashed` status. -/
  squashed : Bool := false
  /-- The `RemovePending` flag: the instruction is to leave the CPU's instruction list. -/
  removePending : Bool := false
  runahead : Bool := false
  /-- The `Committed` status: the instruction has left the ROB. -/
  committed : Bool := false
  /-- The `Completed` status: a store's data is on its way. -/
  completed : Bool := false
  issued : Bool := false
  canCommit : Bool := false
  executed : Bool := false
  poisoned : Bool := false
  /-- The instruction carries a fault. -/
  fault : Bool := false
  /-- A fault of the fetch stage, carried by a nop. -/
  notAnInst : Bool := false
  isLoad : Bool := false
  isStore : Bool := false
  isControl : Bool := false
  isNonSpeculative : Bool := false
  isDataPrefetch : Bool := false
  isStoreConditional : Bool := false
  isAtomic : Bool := false
  isDelayedCommit : Bool := false
  isSquashAfter : Bool := false
  isNop : Bool := false
  isInstPrefetch : Bool := false
  isMicroop : Bool := false
  isLastMicroop : Bool := false
deriving DecidableEq

namespace DynInst

def setSquashed (inst : DynInst) : DynInst := { inst with squashed := true }
def removeFromCPU (inst : DynInst) : DynInst := { inst with removePending := true }
def setRunahead (inst : DynInst) : DynInst := { inst with runahead := true }
def setCommitted (inst : DynInst) : DynInst := { inst with committed := true }
def setCompleted (inst : DynInst) : DynInst := { inst with completed := true }
def setCanCommit (inst : DynInst) : DynInst := { inst with canCommit := true }
def clearCanCommit (inst : DynInst) : DynInst := { inst with canCommit := false }
def setIssued (inst : DynInst) : DynInst := { inst with issued := true }
def setExecuted (inst : DynInst) : DynInst := { inst with executed := true }
def setPoisoned (inst : DynInst) : DynInst := { inst with poisoned := true }

end DynInst

/-- The instructions by sequence number. -/
abbrev Insts := Nat → DynInst

def Insts.modify (insts : Insts) (i : Nat) (f : DynInst → DynInst) : Insts :=
  Function.update insts i (f (insts i))

@[simp] theorem Insts.modify_self (insts : Insts) (i : Nat) (f : DynInst → DynInst) :
    insts.modify i f i = f (insts i) := Function.update_self ..

theorem Insts.modify_of_ne {insts : Insts} {i j : Nat} (h : j ≠ i) (f : DynInst → DynInst) :
    insts.modify i f j = insts j := Function.update_of_ne h ..

theorem Insts.modify_apply (insts : Insts) (i j : Nat) (f : DynInst → DynInst) :
    insts.modify i f j = if j = i then f (insts j) else insts j := by
  by_cases h : j = i
  · subst h; simp
  · simp [modify_of_ne h, h]

end Runahead
end Gem5
