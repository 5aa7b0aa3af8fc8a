import Mathlib.Algebra.Ring.Nat
import Gem5Runahead.Lib.IndexedQueue
import Gem5Runahead.Lib.Transition
import Gem5Runahead.DynInst

/-!
# StoreQueue

The store queue of a load/store unit and its writeback. Stores enter in program order, get their
request when they execute, may write back once they commit, and are written back in order by the
pointer `storeWBIt`: normal stores to the D-cache, as far as its ports and its readiness allow,
runahead stores to the runahead cache. A store leaves the queue at the front, when it and every
store before it are completed, or at the back, when it is squashed before it may write back.

Iterators are indices of the queue. `effects` records what leaves the unit: packets sent to one
of the caches, calls of a request's local accessor, and the responses of store conditionals that
fail. `none` stands for a failing assertion and for access through a missing request or packet.

Load queue and forwarding, transactional memory and the bytes of the data are left out.

* `writebackIter` / `writebackStores` — one round of the writeback loop, and the whole function.
* `system` — the unit under any order of calls and events; the writeback loop is one label for
  each round.
-/

namespace Gem5
namespace Runahead

/-- A store's request: its flags and how many of its packets were sent and answered. -/
structure LSQRequest where
  /-- `none` for a `SingleDataRequest`; the fragments of a `SplitDataRequest`. -/
  fragments : Option Nat := none
  isLLSC : Bool := false
  isRelease : Bool := false
  isLocalAccess : Bool := false
  runahead : Bool := false
  sent : Bool := false
  /-- The packets have been built. -/
  built : Bool := false
  sentPackets : Nat := 0
  received : Nat := 0
deriving DecidableEq

namespace LSQRequest

def numPackets (r : LSQRequest) : Nat := r.fragments.getD 1

/-- As `pushRequest` makes it. -/
def Fresh (r : LSQRequest) : Prop :=
  r.sent = false ∧ r.built = false ∧ r.sentPackets = 0 ∧ r.received = 0 ∧ 0 < r.numPackets

instance (r : LSQRequest) : Decidable r.Fresh := inferInstanceAs (Decidable (_ ∧ _))

def setRunahead (r : LSQRequest) : LSQRequest := { r with runahead := true }
def buildPackets (r : LSQRequest) : LSQRequest := { r with built := true }
/-- `packetSent`: only the flag. -/
def packetSent (r : LSQRequest) : LSQRequest := { r with sent := true }
def packetNotSent (r : LSQRequest) : LSQRequest := { r with sent := false }
/-- One more packet is on its way. -/
def countPacket (r : LSQRequest) : LSQRequest :=
  { r.packetSent with sentPackets := r.sentPackets + 1 }
def countResponse (r : LSQRequest) : LSQRequest := { r with received := r.received + 1 }

end LSQRequest

/-- A size that `LSQUnit::write` accepts. It is the same number when it is read as an `int`. -/
abbrev StoreSize := Fin 0x80000000

instance StoreSize.instNeZero : NeZero (0x80000000 : Nat) := ⟨by decide⟩

structure SQEntry where
  inst : Nat
  request : Option LSQRequest := none
  size : StoreSize := 0
  canWB : Bool := false
  /-- Writeback has started. -/
  committed : Bool := false
  completed : Bool := false
deriving DecidableEq

namespace SQEntry

def setCanWB (e : SQEntry) : SQEntry := { e with canWB := true }
def setCompleted (e : SQEntry) : SQEntry := { e with completed := true }
def onRequest (e : SQEntry) (f : LSQRequest → LSQRequest) : SQEntry :=
  { e with request := e.request.map f }

/-- The entry counts for `storesToWB`. -/
def toWB (e : SQEntry) : Bool := e.canWB && !e.completed

end SQEntry

inductive Effect where
  | dcacheWrite (inst packet : Nat)
  | rcacheWrite (inst packet : Nat)
  | localAccess (inst : Nat)
  | storeConditionalFailed (inst : Nat)
deriving DecidableEq

structure LSQUnit where
  insts : Insts
  storeQueue : IndexedQueue SQEntry
  storeWBIt : Nat
  storesToWB : Int
  isStoreBlocked : Bool
  storeInFlight : Bool
  usedStorePorts : Nat
  cacheBlocked : Bool
  inRunahead : Bool
  /-- The next sequence number; one number is given out once. -/
  globalSeqNum : Nat
  effects : List Effect

structure LSQParams where
  needsTSO : Bool
  cacheStorePorts : Nat

/-- The answers of the memory system during one call: whether the D-cache takes a packet of a
store, and whether a store conditional succeeds. -/
structure Answers where
  accepts : Nat → Nat → Bool
  lockedWrite : Nat → Bool

namespace LSQUnit

variable (cfg : LSQParams) (env : Answers)

def cachePortAvailable (s : LSQUnit) : Bool := s.usedStorePorts < cfg.cacheStorePorts

def modifyEntry (s : LSQUnit) (idx : Nat) (f : SQEntry → SQEntry) : LSQUnit :=
  { s with storeQueue := s.storeQueue.modify idx f }

def modifyRequest (s : LSQUnit) (idx : Nat) (f : LSQRequest → LSQRequest) : LSQUnit :=
  s.modifyEntry idx fun e => e.onRequest f

def emit (s : LSQUnit) (e : Effect) : LSQUnit := { s with effects := s.effects ++ [e] }

/-- `trySendPacket(false, pkt)` for the next packet of the store at `idx`. -/
def trySendPacket (s : LSQUnit) (idx : Nat) : Option (LSQUnit × Nat) := do
  let e ← s.storeQueue.get? idx
  let r ← e.request
  if r.runahead then
    -- the runahead cache takes every store; `success` is cleared, but only after it was tested
    if !(s.insts e.inst).runahead then none
    else
      let s := s.emit (.rcacheWrite e.inst r.sentPackets)
      return ({ s with isStoreBlocked := false }.modifyRequest idx .countPacket, 1)
  else if !s.cacheBlocked && s.cachePortAvailable cfg then
    if env.accepts e.inst r.sentPackets then
      let s := s.emit (.dcacheWrite e.inst r.sentPackets)
      return ({ s with isStoreBlocked := false, usedStorePorts := s.usedStorePorts + 1 }.modifyRequest
        idx .countPacket, 1)
    else if idx ≠ s.storeWBIt then none
    else
      return ({ s with cacheBlocked := true, isStoreBlocked := true }.modifyRequest
        idx .packetNotSent, 0)
  else if idx ≠ s.storeWBIt then none
  else return ({ s with isStoreBlocked := true }.modifyRequest idx .packetNotSent, 0)

/-- The loop of `SplitDataRequest::sendPacketToCache` over `n` unsent packets. -/
def sendPackets (idx : Nat) : Nat → LSQUnit → Option LSQUnit
  | 0, s => some s
  | n + 1, s => do
    let (s, packetsSent) ← s.trySendPacket cfg env idx
    if packetsSent = 0 then return s else sendPackets idx n s

def sendPacketToCache (s : LSQUnit) (idx : Nat) : Option LSQUnit := do
  let e ← s.storeQueue.get? idx
  let r ← e.request
  match r.fragments with
  | none => if r.built && r.sentPackets == r.received then sendPackets cfg env idx 1 s else none
  | some n => sendPackets cfg env idx (if r.built then n - r.sentPackets else 0) s

def storePostSend (s : LSQUnit) (e : SQEntry) : LSQUnit :=
  { s with
    insts :=
      if (s.insts e.inst).isStoreConditional then s.insts
      else s.insts.modify e.inst DynInst.setCompleted
    storeInFlight := s.storeInFlight || cfg.needsTSO
    storeWBIt := s.storeWBIt + 1 }

/-- `sendPacketToCache` for the store at the pointer, and `storePostSend` if it was sent. -/
def sendAtPointer (s : LSQUnit) : Option LSQUnit := do
  let s ← s.sendPacketToCache cfg env s.storeWBIt
  let e ← s.storeQueue.get? s.storeWBIt
  let r ← e.request
  return if r.sent then s.storePostSend cfg e else s

def writebackBlockedStore (s : LSQUnit) : Option LSQUnit :=
  if s.isStoreBlocked then s.sendAtPointer cfg env else none

/-- The entry at `idx` is completed; at the head, the completed front leaves the queue. -/
def completeAt (q : IndexedQueue SQEntry) (idx : Nat) : IndexedQueue SQEntry :=
  let q := q.modify idx .setCompleted
  if idx = q.head then q.dropFront (·.completed) else q

def completeStore (s : LSQUnit) (idx : Nat) : Option LSQUnit := do
  let e ← s.storeQueue.get? idx
  return { s with
    insts := s.insts.modify e.inst DynInst.setCompleted
    storeQueue := completeAt s.storeQueue idx
    storesToWB := s.storesToWB - 1
    storeInFlight := s.storeInFlight && !cfg.needsTSO }

def advance (s : LSQUnit) : LSQUnit := { s with storeWBIt := s.storeWBIt + 1 }

/-- The condition of the writeback loop. -/
def writebackCond (s : LSQUnit) : Bool :=
  decide (0 < s.storesToWB) && (s.storeQueue.get? s.storeWBIt).any (·.canWB) &&
    !(cfg.needsTSO && s.storeInFlight)

/-- What the loop does with a store that is due: `committed` set and the packets built. -/
def writeEntry (s : LSQUnit) (e : SQEntry) (r : LSQRequest) : Option LSQUnit :=
  let s := s.modifyEntry s.storeWBIt fun e => { e with committed := true }.onRequest .buildPackets
  let inst := s.insts e.inst
  if inst.isStoreConditional && !env.lockedWrite e.inst then do
    let s := s.modifyRequest s.storeWBIt .packetSent
    let s ← (s.emit (.storeConditionalFailed e.inst)).completeStore cfg s.storeWBIt
    return if s.storeQueue.items.isEmpty then { s with storeWBIt := s.storeQueue.endIdx }
      else s.advance
  else
    let s := if inst.isStoreConditional then s.modifyRequest s.storeWBIt .packetSent else s
    if r.isLocalAccess then
      if inst.isStoreConditional then none
      else do
        let s ← (s.emit (.localAccess e.inst)).completeStore cfg s.storeWBIt
        return s.advance
    else s.sendAtPointer cfg env

/-- One round of the writeback loop; the flag says whether the loop goes on. -/
def writebackIter (s : LSQUnit) : Option (LSQUnit × Bool) := do
  let e ← s.storeQueue.get? s.storeWBIt
  let inst := s.insts e.inst
  if !s.cachePortAvailable cfg && !inst.runahead then
    return (s.advance, true)
  else if s.isStoreBlocked then
    if inst.runahead then none else return (s, false)
  else if e.size = 0 then
    return (← s.advance.completeStore cfg s.storeWBIt, true)
  else if inst.isDataPrefetch then
    return (s.advance, true)
  else do
    let r ← e.request
    if e.committed then none
    else if (r.isLLSC || r.isRelease) && s.storeWBIt ≠ s.storeQueue.head then
      return (s, false)
    else return (← s.writeEntry cfg env e r, true)

def writebackLoop : Nat → LSQUnit → Option LSQUnit
  | 0, s => if s.writebackCond cfg then none else some s
  | n + 1, s =>
    if s.writebackCond cfg then do
      let (s, goOn) ← s.writebackIter cfg env
      if goOn then writebackLoop n s else return s
    else some s

/-- Rounds left: two for each store from the pointer on, as a store may first get blocked. -/
def rounds (s : LSQUnit) : Nat :=
  2 * (s.storeQueue.endIdx - s.storeWBIt) + (!s.isStoreBlocked).toNat

def writebackStores (s : LSQUnit) : Option LSQUnit := do
  let s ← if s.isStoreBlocked then s.writebackBlockedStore cfg env else some s
  writebackLoop cfg env s.rounds s

/-- The loop of `commitStores` over the queue, in age order. -/
def commitEntries (youngest : Nat) : List SQEntry → List SQEntry × Nat
  | [] => ([], 0)
  | e :: rest =>
    if e.canWB then
      let (rest, n) := commitEntries youngest rest
      (e :: rest, n)
    else if youngest < e.inst then (e :: rest, 0)
    else
      let (rest, n) := commitEntries youngest rest
      (e.setCanWB :: rest, n + 1)

def commitStores (s : LSQUnit) (youngest : Nat) : LSQUnit :=
  let (items, n) := commitEntries youngest s.storeQueue.items
  { s with
    storeQueue := { s.storeQueue with items := items }
    storesToWB := s.storesToWB + n }

def insertStore (s : LSQUnit) (i : Nat) (inst : DynInst) : LSQUnit :=
  { s with
    insts := Function.update s.insts i inst
    storeQueue := s.storeQueue.pushBack { inst := i }
    globalSeqNum := i + 1 }

/-- The store at `idx` executes: `LSQUnit::write` sets its request and size; a store conditional
or an atomic may write back at once. -/
def executeStore (s : LSQUnit) (idx : Nat) (size : StoreSize) (r : LSQRequest) :
    Option LSQUnit := do
  let e ← s.storeQueue.get? idx
  let s := s.modifyEntry idx fun e => { e with request := some r, size := size }
  if ((s.insts e.inst).isStoreConditional || (s.insts e.inst).isAtomic) && size ≠ 0 then
    return { s.modifyEntry idx .setCanWB with storesToWB := s.storesToWB + 1 }
  else return s

def squash (s : LSQUnit) (squashedNum : Nat) : LSQUnit :=
  { s with storeQueue := s.storeQueue.dropBack fun e => decide (squashedNum < e.inst) && !e.canWB }

/-- `enterRunahead` marks every instruction that is not committed, and its request. -/
def enterRunahead (s : LSQUnit) : LSQUnit :=
  { s with
    insts := fun i => if (s.insts i).committed then s.insts i else (s.insts i).setRunahead
    storeQueue := s.storeQueue.map fun e =>
      if (s.insts e.inst).committed then e else e.onRequest .setRunahead
    inRunahead := true }

/-- A packet of the store at `idx` is answered; the last answer completes the store. -/
def recvTimingResp (s : LSQUnit) (idx : Nat) : Option LSQUnit := do
  let e ← s.storeQueue.get? idx
  let r ← e.request
  let s := s.modifyRequest idx .countResponse
  if r.received + 1 = r.numPackets then s.completeStore cfg idx else return s

def recvReqRetry (s : LSQUnit) : Option LSQUnit :=
  let s := { s with cacheBlocked := false }
  if s.isStoreBlocked then s.writebackBlockedStore cfg env else some s

inductive Op where
  | insertStore (i : Nat) (inst : DynInst)
  | executeStore (idx : Nat) (size : StoreSize) (r : LSQRequest)
  /-- The instruction retires or pseudo-retires. -/
  | retire (i : Nat)
  | commitStores (youngest : Nat)
  | enterRunahead
  | exitRunahead
  | squash (squashedNum : Nat)
  /-- `LSQ::tick`: the store ports are free again. -/
  | tick
  /-- The D-cache refuses a load. -/
  | cacheGotBlocked
  | recvReqRetry (env : Answers)
  | recvTimingResp (idx : Nat)
  | writebackBlockedStore (env : Answers)
  | writebackIter (env : Answers)

def step (s : LSQUnit) : Op → Option LSQUnit
  | .insertStore i inst => some (s.insertStore i inst)
  | .executeStore idx size r => s.executeStore idx size r
  | .retire i => some { s with insts := s.insts.modify i DynInst.setCommitted }
  | .commitStores youngest => some (s.commitStores youngest)
  | .enterRunahead => some s.enterRunahead
  | .exitRunahead => some { s with inRunahead := false }
  | .squash n => some (s.squash n)
  | .tick => some { s with usedStorePorts := 0 }
  | .cacheGotBlocked => some { s with cacheBlocked := true }
  | .recvReqRetry env => s.recvReqRetry cfg env
  | .recvTimingResp idx => s.recvTimingResp cfg idx
  | .writebackBlockedStore env => s.writebackBlockedStore cfg env
  | .writebackIter env =>
    if s.writebackCond cfg then (s.writebackIter cfg env).map Prod.fst else none

/-- What the rest of the CPU guarantees: stores are inserted in program order and not committed
yet; a store executes with a fresh request that carries its runahead flag, before it commits and
may write back; only committed stores are released for writeback; no store that committed outside
runahead is squashed; only sent packets are answered; the mode is entered from normal mode. -/
def Op.Legal (s : LSQUnit) : Op → Prop
  | .insertStore i inst =>
    s.globalSeqNum ≤ i ∧ inst.committed = false ∧ inst.completed = false
  | .executeStore idx _ r =>
    r.Fresh ∧ ∀ e ∈ s.storeQueue.get? idx,
      e.canWB = false ∧ (s.insts e.inst).committed = false ∧
        r.runahead = (s.insts e.inst).runahead
  | .commitStores youngest =>
    ∀ e ∈ s.storeQueue.items, e.inst ≤ youngest → (s.insts e.inst).committed = true
  | .squash squashedNum =>
    ∀ e ∈ s.storeQueue.items, (s.insts e.inst).committed = true →
      (s.insts e.inst).runahead = false → e.inst ≤ squashedNum
  | .enterRunahead => s.inRunahead = false
  | .recvTimingResp idx =>
    ∀ e ∈ s.storeQueue.get? idx, ∀ r ∈ e.request, r.received < r.sentPackets
  | _ => True

instance (s : LSQUnit) : (op : Op) → Decidable (op.Legal s)
  | .insertStore .. => inferInstanceAs (Decidable (_ ∧ _))
  | .executeStore .. => inferInstanceAs (Decidable (_ ∧ ∀ e ∈ s.storeQueue.get? _, _))
  | .commitStores _ => inferInstanceAs (Decidable (∀ e ∈ s.storeQueue.items, _))
  | .squash _ => inferInstanceAs (Decidable (∀ e ∈ s.storeQueue.items, _))
  | .enterRunahead => inferInstanceAs (Decidable (_ = _))
  | .recvTimingResp _ =>
    inferInstanceAs (Decidable (∀ e ∈ s.storeQueue.get? _, ∀ r ∈ e.request, _))
  | .retire _ | .exitRunahead | .tick | .cacheGotBlocked | .recvReqRetry _
  | .writebackBlockedStore _ | .writebackIter _ => inferInstanceAs (Decidable True)

def init (insts : Insts) : LSQUnit where
  insts := insts
  storeQueue := ⟨0, []⟩
  storeWBIt := 0
  storesToWB := 0
  isStoreBlocked := false
  storeInFlight := false
  usedStorePorts := 0
  cacheBlocked := false
  inRunahead := false
  globalSeqNum := 1
  effects := []

def system : Transition.System LSQUnit Op where
  init s := ∃ insts, s = init insts
  step s op s' := op.Legal s ∧ s.step cfg op = some s'

end LSQUnit
end Runahead
end Gem5
