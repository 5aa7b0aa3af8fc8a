import Gem5Runahead.Lib.Transition
import Mathlib.Algebra.Ring.Nat
import Mathlib.Logic.Function.Basic

/-!
# RegState

The renamed registers of the CPU, with what renaming, execution and retirement do to them: the
physical register file with its poison flags, the free lists, the rename map of the rename stage
and of the commit stage, rename's history buffer, the scoreboard, and the ISA's miscellaneous
registers, which are not renamed.

A physical register is named by its class and index; the scoreboard and the poison flags are
indexed by its flat index. A null pointer of a rename map is `none`, as is a failing assertion.
The contents of a vector register stand as one value.

* `renameDestReg`, `doSquash`, `removeFromHistory` — renaming, and how it is undone or made final.
* `writebackDest` — a result is written back: the register becomes ready, and poisoned or cured.
* `updateMiscRegs` — an instruction that retires performs the writes it has recorded.
-/

namespace Gem5
namespace Runahead

inductive RegClassType where
  | int | float | vec | vecElem | vecPred | cc | misc | invalid
deriving DecidableEq

namespace RegClassType

/-- The classes up to `CCRegClass`, in order: those with a free list and a rename map. -/
def renamed : List RegClassType := [int, float, vec, vecElem, vecPred, cc]

/-- The classes up to `MiscRegClass`: those with a checkpoint. -/
def checkpointed : List RegClassType := renamed ++ [misc]

end RegClassType

abbrev RegVal := BitVec 64

structure RegId where
  cls : RegClassType
  index : Nat
deriving DecidableEq

namespace RegId

def isRenameable (r : RegId) : Bool := r.cls ≠ .misc && r.cls ≠ .invalid

end RegId

structure PhysRegId where
  cls : RegClassType
  index : Nat
deriving DecidableEq

namespace PhysRegId

/-- Miscellaneous and invalid registers keep their mapping. -/
def isFixedMapping (p : PhysRegId) : Bool := p.cls = .misc || p.cls = .invalid

end PhysRegId

/-- How many registers each class has. The constructor of the CPU asserts `le`. -/
structure RegParams where
  numArch : RegClassType → Nat
  numPhys : RegClassType → Nat
  le : ∀ c ∈ RegClassType.renamed, numArch c ≤ numPhys c

namespace RegParams

/-- The place of a register in the flat numbering, which goes through the classes in order. -/
def flatIndex (cfg : RegParams) (p : PhysRegId) : Nat :=
  ((RegClassType.renamed.takeWhile (· ≠ p.cls)).map cfg.numPhys).sum + p.index

/-- Where a poison flag is read. Miscellaneous registers have the flat index 0. -/
def poisonIdx (cfg : RegParams) (p : PhysRegId) : Nat :=
  if p.cls = .misc then 0 else cfg.flatIndex p

/-- An architectural register of one of the renamed classes. -/
def Valid (cfg : RegParams) (r : RegId) : Prop :=
  r.cls ∈ RegClassType.renamed ∧ r.index < cfg.numArch r.cls

end RegParams

/-- The miscellaneous registers, as the ISA keeps them. -/
structure ISA (σ : Type) where
  setMiscReg : σ → Nat → RegVal → σ
  readMiscReg : σ → Nat → RegVal
  isValid : Nat → Bool

structure RenameHistory where
  instSeqNum : Nat
  archReg : RegId
  newPhysReg : PhysRegId
  prevPhysReg : PhysRegId

structure RegCheckpoint where
  values : Nat → RegVal
  validIdxs : List Nat

/-- `PC` is the type of PC states, `σ` the type of the ISA's miscellaneous state. -/
structure RegState (PC σ : Type) where
  regFile : PhysRegId → RegVal
  poisonedRegs : Nat → Bool
  numPinnedWrites : PhysRegId → Nat
  numPinnedWritesToComplete : PhysRegId → Nat
  freeLists : RegClassType → List PhysRegId
  renameMap : RegId → Option PhysRegId
  commitRenameMap : RegId → Option PhysRegId
  /-- The most recent rename first. -/
  historyBuffer : List RenameHistory
  scoreboard : Nat → Bool
  registerCheckpoints : RegClassType → RegCheckpoint
  miscRegs : σ
  /-- Commit's PC, and the one it stored when runahead was entered. -/
  pc : PC
  storedPC : PC
  inRunahead : Bool
  /-- The exit squash has happened, the restore has not. -/
  archRestore : Bool

namespace RegState

variable {PC σ : Type}

/-- `UnifiedRenameMap::lookup` in one of the two maps. -/
def lookup (map : RegId → Option PhysRegId) (r : RegId) : Option PhysRegId :=
  match r.cls with
  | .invalid => some ⟨.invalid, 0⟩
  | .misc => some ⟨.misc, r.index⟩
  | _ => map r

/-- `UnifiedRenameMap::setEntry`. -/
def setEntry (map : RegId → Option PhysRegId) (r : RegId) (p : PhysRegId) :
    Option (RegId → Option PhysRegId) :=
  if p.cls ≠ r.cls then none
  else if !r.isRenameable then if lookup map r = some p then some map else none
  else some (Function.update map r (some p))

def getArchReg (s : RegState PC σ) (r : RegId) : Option RegVal :=
  (lookup s.commitRenameMap r).map s.regFile

def setArchReg (s : RegState PC σ) (r : RegId) (val : RegVal) : Option (RegState PC σ) := do
  let p ← lookup s.commitRenameMap r
  return { s with regFile := Function.update s.regFile p val }

/-- `SimpleFreeList::getReg`. -/
def getFreeReg (s : RegState PC σ) (c : RegClassType) : Option (RegState PC σ × PhysRegId) :=
  match s.freeLists c with
  | [] => none
  | p :: rest => some ({ s with freeLists := Function.update s.freeLists c rest }, p)

def addFreeReg (s : RegState PC σ) (p : PhysRegId) : RegState PC σ :=
  { s with freeLists := Function.update s.freeLists p.cls (s.freeLists p.cls ++ [p]) }

section Scoreboard

variable (cfg : RegParams)

def setReady (s : RegState PC σ) (p : PhysRegId) : RegState PC σ :=
  if p.isFixedMapping then s
  else { s with scoreboard := Function.update s.scoreboard (cfg.flatIndex p) true }

def unsetReady (s : RegState PC σ) (p : PhysRegId) : RegState PC σ :=
  if p.isFixedMapping then s
  else { s with scoreboard := Function.update s.scoreboard (cfg.flatIndex p) false }

def isReady (s : RegState PC σ) (p : PhysRegId) : Bool :=
  p.isFixedMapping || s.scoreboard (cfg.flatIndex p)

def regPoisoned (s : RegState PC σ) (p : PhysRegId) : Bool :=
  p.cls ≠ .invalid && s.poisonedRegs (cfg.poisonIdx p)

/-- Poisons or cures a register. -/
def setPoisoned (s : RegState PC σ) (p : PhysRegId) (poisoned : Bool) :
    Option (RegState PC σ) :=
  if p.cls = .misc then none
  else if p.cls = .invalid then some s
  else some { s with
    poisonedRegs := Function.update s.poisonedRegs (cfg.flatIndex p) poisoned }

end Scoreboard

section Rename

variable (cfg : RegParams)

/-- `UnifiedRenameMap::rename` for a register with `pinned` pinned writes: the new and the
previous physical register. -/
def rename (s : RegState PC σ) (r : RegId) (pinned : Nat) :
    Option (RegState PC σ × PhysRegId × PhysRegId) := do
  let prev ← lookup s.renameMap r
  if !r.isRenameable then return (s, prev, prev)
  else if 0 < s.numPinnedWrites prev then
    if pinned ≠ 0 then none
    else
      let n := s.numPinnedWrites prev - 1
      return ({ s with numPinnedWrites := Function.update s.numPinnedWrites prev n }, prev, prev)
  else
    let (s, p) ← s.getFreeReg r.cls
    return ({ s with
      renameMap := Function.update s.renameMap r (some p)
      numPinnedWrites := Function.update s.numPinnedWrites p pinned
      numPinnedWritesToComplete := Function.update s.numPinnedWritesToComplete p (pinned + 1) },
      p, prev)

/-- The loop body of `renameDestRegs`. -/
def renameDestReg (s : RegState PC σ) (seqNum : Nat) (r : RegId) (pinned : Nat) :
    Option (RegState PC σ) := do
  let (s, new, prev) ← s.rename r pinned
  let s := s.unsetReady cfg new
  return { s with historyBuffer := ⟨seqNum, r, new, prev⟩ :: s.historyBuffer }

/-- Undoes one rename. -/
def undoRename (s : RegState PC σ) (h : RenameHistory) : Option (RegState PC σ) :=
  if h.newPhysReg = h.prevPhysReg then some s
  else do
    let map ← setEntry s.renameMap h.archReg h.prevPhysReg
    return { s with renameMap := map }.addFreeReg h.newPhysReg

def doSquash (s : RegState PC σ) (squashedSeqNum : Nat) : Option (RegState PC σ) :=
  let undone := s.historyBuffer.takeWhile (squashedSeqNum < ·.instSeqNum)
  let kept := s.historyBuffer.dropWhile (squashedSeqNum < ·.instSeqNum)
  undone.foldlM undoRename { s with historyBuffer := kept }

/-- Frees the register that a final rename has replaced. -/
def freePrev (s : RegState PC σ) (h : RenameHistory) : RegState PC σ :=
  if h.newPhysReg = h.prevPhysReg then s else s.addFreeReg h.prevPhysReg

def removeFromHistory (s : RegState PC σ) (seqNum : Nat) : RegState PC σ :=
  -- from the oldest entry on
  let final := s.historyBuffer.reverse.takeWhile (·.instSeqNum ≤ seqNum)
  let kept := (s.historyBuffer.reverse.dropWhile (·.instSeqNum ≤ seqNum)).reverse
  final.foldl freePrev { s with historyBuffer := kept }

end Rename

section Execute

variable (cfg : RegParams)

/-- `PhysRegFile::setReg`. -/
def setReg (s : RegState PC σ) (p : PhysRegId) (val : RegVal) : Option (RegState PC σ) :=
  if p.cls = .misc then none
  else if p.cls = .invalid then some s
  else some { s with regFile := Function.update s.regFile p val }

/-- A result reaches `IEW::writebackInsts`, which wakes the dependents first. A runahead
instruction poisons the register if it is poisoned, and cures it if not. -/
def writebackDest (s : RegState PC σ) (p : PhysRegId) (runahead poisoned : Bool) :
    Option (RegState PC σ) :=
  let s := if p.isFixedMapping then s else { s with
    numPinnedWritesToComplete :=
      Function.update s.numPinnedWritesToComplete p (s.numPinnedWritesToComplete p - 1) }
  let s := if s.numPinnedWritesToComplete p = 0 then s.setReady cfg p else s
  if runahead && p.cls ≠ .misc then s.setPoisoned cfg p poisoned else some s

end Execute

section Misc

variable (isa : ISA σ)

/-- `DynInst::setMiscReg`: the write is recorded, and only the first to a register is kept. -/
def recordMiscReg (dest : List (Nat × RegVal)) (write : Nat × RegVal) : List (Nat × RegVal) :=
  if write.1 ∈ dest.map Prod.fst then dest else dest ++ [write]

/-- What an instruction has recorded after the calls of `setMiscReg` it made. -/
def recorded (calls : List (Nat × RegVal)) : List (Nat × RegVal) := calls.foldl recordMiscReg []

/-- The ISA performs misc writes in order. -/
def performMisc (m : σ) (writes : List (Nat × RegVal)) : σ :=
  writes.foldl (fun m write => isa.setMiscReg m write.1 write.2) m

def updateMiscRegs (s : RegState PC σ) (calls : List (Nat × RegVal)) : RegState PC σ :=
  { s with miscRegs := performMisc isa s.miscRegs (recorded calls) }

end Misc

end RegState
end Runahead
end Gem5
