import Gem5Runahead.Lib.UpdateEach
import Gem5Runahead.RegState

/-!
# ArchCheckpoint

The checkpoint of the architectural registers, and how the CPU enters runahead, leaves it and
comes back to the state before. During runahead instructions are renamed, executed and retired as
always, but the commit stage's rename map is not updated; so a physical register that holds an
architectural value may be freed and overwritten. When the period is over, every map and list is
set up anew (rN to rN) and the values are written back from the checkpoint.

* `fullSave` / `restore` — the checkpoint: every class but vectors and predicates is saved, every
  class but those and the miscellaneous registers is restored.
* `enterRunahead`, `exitRunahead`, `restoreCheckpointState` — the period's ends.
* `system` — what may happen to the registers in between, in any order.
-/

namespace Gem5
namespace Runahead
namespace RegState

variable {PC σ : Type} (cfg : RegParams) (isa : ISA σ)

section Save

/-- Classes that `fullSave` skips. -/
def unsaved (c : RegClassType) : Bool := c = .vec || c = .vecPred

/-- Classes that `restore` skips. -/
def unrestored (c : RegClassType) : Bool := c = .vec || c = .vecPred || c = .misc

def saveReg (s : RegState PC σ) (c : RegClassType) (ck : RegCheckpoint) (archIdx : Nat) :
    Option RegCheckpoint :=
  if c = .misc && !isa.isValid archIdx then some ck
  else do
    let val ← if c = .misc then some (isa.readMiscReg s.miscRegs archIdx)
      else s.getArchReg ⟨c, archIdx⟩
    return { ck with
      values := Function.update ck.values archIdx val
      validIdxs := ck.validIdxs ++ [archIdx] }

def saveClass (s : RegState PC σ) (c : RegClassType) (ck : RegCheckpoint) :
    Option RegCheckpoint :=
  if unsaved c then some ck
  else (List.range (cfg.numArch c)).foldlM (s.saveReg isa c) { ck with validIdxs := [] }

def fullSave (s : RegState PC σ) : Option (RegState PC σ) := do
  let cks ← updateEach (s.saveClass cfg isa) RegClassType.checkpointed s.registerCheckpoints
  return { s with registerCheckpoints := cks }

end Save

section Restore

def restoreReg (c : RegClassType) (ck : RegCheckpoint) (s : RegState PC σ) (archIdx : Nat) :
    Option (RegState PC σ) := do
  let curVal ← s.getArchReg ⟨c, archIdx⟩
  if curVal ≠ ck.values archIdx then s.setArchReg ⟨c, archIdx⟩ (ck.values archIdx) else return s

def restoreClass (s : RegState PC σ) (c : RegClassType) : Option (RegState PC σ) :=
  let ck := s.registerCheckpoints c
  if unrestored c || ck.validIdxs.isEmpty then some s
  else do
    let s ← ck.validIdxs.foldlM (restoreReg c ck) s
    return { s with registerCheckpoints :=
      Function.update s.registerCheckpoints c { ck with validIdxs := [] } }

def restore (s : RegState PC σ) : Option (RegState PC σ) :=
  RegClassType.checkpointed.foldlM restoreClass s

/-- `UnifiedFreeList::reset`: every physical register, in order. -/
def resetFreeLists (s : RegState PC σ) : RegState PC σ :=
  { s with freeLists := fun c =>
      if c ∈ RegClassType.renamed then (List.range (cfg.numPhys c)).map (PhysRegId.mk c)
      else s.freeLists c }

/-- `UnifiedRenameMap::reset` of both maps: every entry is null. -/
def resetMaps (s : RegState PC σ) : RegState PC σ :=
  { s with renameMap := fun _ => none, commitRenameMap := fun _ => none }

def clearHistory (s : RegState PC σ) : RegState PC σ := { s with historyBuffer := [] }

def clearPoison (s : RegState PC σ) : RegState PC σ := { s with poisonedRegs := fun _ => false }

/-- The next free register becomes the register of an architectural one, in both maps. -/
def remapReg (c : RegClassType) (s : RegState PC σ) (archIdx : Nat) : Option (RegState PC σ) := do
  let (s, p) ← s.getFreeReg c
  let map ← setEntry s.renameMap ⟨c, archIdx⟩ p
  let commitMap ← setEntry s.commitRenameMap ⟨c, archIdx⟩ p
  return { s with renameMap := map, commitRenameMap := commitMap }.setReady cfg p

def remapClass (s : RegState PC σ) (c : RegClassType) : Option (RegState PC σ) :=
  (List.range (cfg.numArch c)).foldlM (remapReg cfg c) s

def restoreCheckpointState (s : RegState PC σ) : Option (RegState PC σ) := do
  let s := ((s.resetFreeLists cfg).resetMaps).clearHistory
  let s ← RegClassType.renamed.foldlM (remapClass cfg) s
  let s ← s.restore
  return { s.clearPoison with archRestore := false }

end Restore

section Period

/-- `CPU::enterRunahead`, as far as it concerns the registers. -/
def enterRunahead (s : RegState PC σ) : Option (RegState PC σ) :=
  if s.inRunahead then none
  else do
    let s ← s.fullSave cfg isa
    return { s with storedPC := s.pc, inRunahead := true }

/-- `Commit::squashFromRunaheadExit` and `CPU::exitRunahead`; the restore comes a tick later. -/
def exitRunahead (s : RegState PC σ) : RegState PC σ :=
  { s with pc := s.storedPC, inRunahead := false, archRestore := true }

/-- A runahead instruction retires: it performs its misc writes and commit's PC goes on, but the
commit rename map stays. -/
def pseudoRetire (s : RegState PC σ) (calls : List (Nat × RegVal)) (nextPC : PC) :
    RegState PC σ :=
  { s.updateMiscRegs isa calls with pc := nextPC }

inductive Op (PC : Type) where
  /-- The destination registers, each with its number of pinned writes. -/
  | renameDestRegs (seqNum : Nat) (dests : List (RegId × Nat))
  | setReg (p : PhysRegId) (val : RegVal)
  | writebackDests (dests : List PhysRegId) (runahead poisoned : Bool)
  | pseudoRetire (calls : List (Nat × RegVal)) (nextPC : PC)
  /-- Rename learns what has retired. -/
  | removeFromHistory (seqNum : Nat)
  | doSquash (squashedSeqNum : Nat)
  | exitRunahead

def step (s : RegState PC σ) : Op PC → Option (RegState PC σ)
  | .renameDestRegs seqNum dests =>
    dests.foldlM (fun s d => s.renameDestReg cfg seqNum d.1 d.2) s
  | .setReg p val => s.setReg p val
  | .writebackDests dests runahead poisoned =>
    dests.foldlM (fun s p => s.writebackDest cfg p runahead poisoned) s
  | .pseudoRetire calls nextPC => if s.inRunahead then some (s.pseudoRetire isa calls nextPC) else none
  | .removeFromHistory seqNum => some (s.removeFromHistory seqNum)
  | .doSquash squashedSeqNum => s.doSquash squashedSeqNum
  | .exitRunahead => if s.inRunahead then some s.exitRunahead else none

/-- A runahead period, from the state in which it is entered. -/
def system : Transition.System (RegState PC σ) (Op PC) where
  init s := ∃ s₀ : RegState PC σ, s₀.enterRunahead cfg isa = some s
  step s op s' := s.step cfg isa op = some s'

end Period

end RegState
end Runahead
end Gem5
