import Gem5Runahead.Lib.Arena
import Gem5Runahead.Lib.UpdateEach
import Gem5Runahead.DataRequest

/-!
# RequestOwner

Who owns a memory request. An instruction that accesses memory makes a request when it is executed;
the request is installed in the instruction's entry of the load or store queue and saved in the
instruction. It is deleted when the entry is freed or the request is discarded, or, if a packet,
a translation or a write-back event is still outstanding then, once the last of these is done.
Requests are made, discarded and made again while a load waits.

Requests are objects that are allocated and freed by hand, one arena for each instruction. `none`
stands for a dangling or null pointer that is followed, and for a failing assertion. Assertions of
the writeback that are about stale stores are left out. The packets of a request are those of
`DataRequest`, whose flags for a released request and a forged response stand in `MemRequest` and
`MemInst` here.

* `MemRequest`, `MemInst` — a request, and an instruction with its entry and its requests.
* `MemInst.step` — what happens to an instruction; `MemOp.Allowed` — when it can happen.
* `LSQWindow` — all instructions, the ROB and the mode; `enterRunahead` marks the instructions.
-/

namespace Gem5
namespace Runahead

namespace DataRequest

/-- A packet comes back from a cache. -/
def arrive (r : DataRequest) (i : Nat) (isRCachePacket : Bool) : DataRequest :=
  if isRCachePacket then { r with inRCache := r.inRCache.erase i }.emit (.rcacheResp i)
  else { r with inDCache := r.inDCache.erase i }.emit (.dcacheResp i)

/-- `recvTimingResp` of the two classes of requests. -/
def receive (r : DataRequest) (i : Nat) (isRCachePacket : Bool) : Option DataRequest :=
  if r.isSplit then some (r.recvSplit isRCachePacket) else r.recvSingle i isRCachePacket

/-- The last thing that happened is that the access was completed. -/
def justCompleted (r : DataRequest) : Bool := r.log.head? == some .completeDataAccess

end DataRequest

structure MemRequest where
  data : DataRequest
  /-- `_reqs` is not empty: some byte of the access is enabled. -/
  hasReqs : Bool
  numInTranslation : Nat := 0
  /-- The flags `Discarded`, `LSQEntryFreed`, `WritebackScheduled` and `WritebackDone`. -/
  discarded : Bool := false
  entryFreed : Bool := false
  writebackScheduled : Bool := false
  writebackDone : Bool := false

namespace MemRequest

def isAnyOutstandingRequest (q : MemRequest) : Bool :=
  0 < q.numInTranslation || 0 < q.data.numOutstandingPackets ||
    q.writebackScheduled && !q.writebackDone

def isReleased (q : MemRequest) : Bool := q.entryFreed || q.discarded

end MemRequest

inductive MemKind where
  | other
  | load
  | store
  | storeConditional
  | atomic
deriving DecidableEq

structure MemInst where
  threadNumber : Nat := 0
  kind : MemKind := .other
  runahead : Bool := false
  squashed : Bool := false
  committed : Bool := false
  executed : Bool := false
  hasForgedResponse : Bool := false
  /-- `hasRequest`. -/
  reqMade : Bool := false
  translationStarted : Bool := false
  translationCompleted : Bool := false
  savedRequest : Option Nat := none
  /-- The entry in the load or store queue, and the request it points to. -/
  entry : Option (Option Nat) := none
  /-- Of an entry of the store queue. -/
  storeCompleted : Bool := false
  requests : Arena MemRequest := []
  /-- The write-back events that are scheduled; `true` is one for the current tick. -/
  events : List Bool := []

namespace MemInst

def isLoad (m : MemInst) : Bool := m.kind = .load

def isStore (m : MemInst) : Bool := m.kind = .store || m.kind = .storeConditional

def isTranslationDelayed (m : MemInst) : Bool := m.translationStarted && !m.translationCompleted

section Requests

variable (m : MemInst) (r : Nat)

/-- Writes through the pointer `r`. -/
def modifyRequest (f : MemRequest → MemRequest) : Option MemInst := do
  let q ← m.requests.get? r
  return { m with requests := m.requests.put r (f q) }

/-- `delete this`, with the destructor of `LSQRequest`. -/
def delete : Option MemInst := do
  let _ ← m.requests.get? r
  return { m with requests := m.requests.free r, savedRequest := none }

inductive Release where
  | lsqEntryFreed
  | discarded

def release (reason : Release) : Option MemInst := do
  let q ← m.requests.get? r
  if q.isAnyOutstandingRequest then
    m.modifyRequest r fun q =>
      match reason with
      | .lsqEntryFreed => { q with entryFreed := true }
      | .discarded => { q with discarded := true }
  else m.delete r

def packetReplied : Option MemInst := do
  let q ← m.requests.get? r
  let data ← q.data.packetReplied
  let m ← m.modifyRequest r fun q => { q with data := data }
  if data.numOutstandingPackets = 0 ∧ q.isReleased = true then m.delete r else return m

def writebackDone : Option MemInst := do
  let q ← m.requests.get? r
  let m ← m.modifyRequest r fun q => { q with writebackDone := true }
  if q.isReleased then m.delete r else return m

/-- The last fragment has been translated for a squashed instruction. -/
def squashTranslation : Option MemInst := do
  let q ← m.requests.get? r
  if q.isReleased then m.delete r else return m

/-- `LSQEntry::clear`. -/
def clearEntry : Option MemInst :=
  match m.entry with
  | some (some r) => (m.release r .lsqEntryFreed).map fun m => { m with entry := none }
  | _ => some { m with entry := none }

end Requests

section Writeback

variable (m : MemInst)

/-- The constructor of `WritebackEvent`; `now` if it is scheduled for the current tick. -/
def scheduleWriteback (now : Bool) : Option MemInst := do
  let r ← m.savedRequest
  let q ← m.requests.get? r
  if q.writebackScheduled then none
  else
    let m ← m.modifyRequest r fun q => { q with writebackScheduled := true }
    return { m with events := m.events ++ [now] }

/-- `LSQUnit::writeback`, in the given mode of the thread. -/
def writeback (inRunahead : Bool) : Option MemInst :=
  if m.squashed then some m
  else if m.runahead && !inRunahead then some m
  else do
    -- the check for poison
    let r ← m.savedRequest
    let _ ← m.requests.get? r
    return { m with executed := true }

/-- `WritebackEvent::process`. -/
def processWriteback (inRunahead : Bool) : Option MemInst := do
  let m ← m.writeback inRunahead
  let r ← m.savedRequest
  let m ← m.writebackDone r
  return { m with events := m.events.tail }

/-- `front`: the entry is the first of the store queue. -/
def completeStore (front : Bool) : Option MemInst :=
  if m.entry = none then none
  else if front then { m with storeCompleted := true }.clearEntry
  else some { m with storeCompleted := true }

def completeDataAccess (inRunahead : Bool) (r : Nat) (front : Bool) : Option MemInst :=
  if m.kind = .load then m.writeback inRunahead
  else if m.kind = .store then m.completeStore front
  else do
    let m ← m.writeback inRunahead
    let m ← m.writebackDone r
    m.completeStore front

/-- `LSQUnit::recvTimingResp`. -/
def recvTimingResp (inRunahead : Bool) (r i : Nat) (isRCachePacket front : Bool) :
    Option MemInst := do
  let q ← m.requests.get? r
  if m.hasForgedResponse then return m
  else if m.isStore && m.runahead && !isRCachePacket then none
  else if q.isReleased then return m
  else if q.data.rCacheExpected && !m.runahead then none
  else
    let data ← q.data.receive i isRCachePacket
    let m ← m.modifyRequest r fun q => { q with data := data }
    if data.justCompleted then m.completeDataAccess inRunahead r front else return m

/-- `LSQ::recvTimingResp`: packet `i` of the request `r` comes back. -/
def reply (inRunahead : Bool) (r i : Nat) (isRCachePacket front : Bool) : Option MemInst := do
  let m ← m.modifyRequest r fun q => { q with data := q.data.arrive i isRCachePacket }
  let m ← m.recvTimingResp inRunahead r i isRCachePacket front
  m.packetReplied r

end Writeback

section Execute

variable (m : MemInst)

/-- `LSQ::pushRequest` up to the access: `fragments` of the request are sent as `numPackets`
packets, and `pending` of them are still in translation. -/
def pushRequest (active isSplit : Bool) (numPackets pending : Nat) : Option MemInst := do
  let isLoad := m.isLoad
  let r := m.requests.length
  let q : MemRequest :=
    { data := if isSplit then .builtSplit isLoad false numPackets else .built isLoad false
      hasReqs := active
      numInTranslation := if active then pending else 0 }
  let (m, r) ←
    if m.translationStarted then m.savedRequest.map fun r => (m, r)
    else
      -- the request installs itself in the entry of the queue
      let m := { m with requests := m.requests.alloc q, entry := some (some r), reqMade := true }
      if active then
        some ({ m with
          savedRequest := some r
          translationStarted := true
          translationCompleted := pending == 0 }, r)
      -- nothing is accessed, and the instruction is executed at once
      else some ({ m with executed := true }, r)
  m.modifyRequest r fun q =>
    if m.runahead then { q with data := { q.data with isRunahead := true } } else q

/-- `finish` of a translation. -/
def finish (r : Nat) : Option MemInst := do
  let q ← m.requests.get? r
  let m ← m.modifyRequest r fun q => { q with numInTranslation := q.numInTranslation - 1 }
  if q.numInTranslation ≤ 1 then
    if m.squashed then m.squashTranslation r else return { m with translationCompleted := true }
  else return m

/-- `rescheduleMemInst`, and the request is discarded. -/
def reschedule : Option MemInst := do
  let r ← m.savedRequest
  let m ← m.release r .discarded
  return { m with translationStarted := false, translationCompleted := false, entry := some none }

/-- The load is given the data of a store. -/
def forward : Option MemInst := do
  let r ← m.savedRequest
  let q ← m.requests.get? r
  let m ←
    if q.isAnyOutstandingRequest then
      if q.data.numOutstandingPackets = 0 then none else m.release r .discarded
    else some m
  m.scheduleWriteback true

/-- `sendPacketToCache` of the request `r`, with the assertions of `trySendPacket` and
`sendToRunaheadCache`. -/
def send (r : Nat) (env : Nat → DataRequest.SendResult) : Option MemInst := do
  let q ← m.requests.get? r
  if q.data.toDCache && q.data.isRunahead && !q.data.isLoad then none
  else
    let data ← q.data.sendPacketToCache env
    -- a packet of a runahead request that has left has been offered to the runahead cache
    if q.data.isRunahead && q.data.numOutstandingPackets < data.numOutstandingPackets &&
        !m.runahead then none
    else m.modifyRequest r fun q => { q with data := data }

/-- Memory access of a load. -/
def readCache (env : Nat → DataRequest.SendResult) : Option MemInst := do
  let r ← m.savedRequest
  m.send r env

/-- Memory access of the store at `storeWBIt`. -/
def writebackStore (env : Nat → DataRequest.SendResult) : Option MemInst := do
  let r ← m.entry.join
  m.send r env

/-- A store conditional that fails is completed instantly. -/
def failStoreConditional (front : Bool) : Option MemInst := do
  let r ← m.entry.join
  let m ← m.modifyRequest r fun q => { q with data := { q.data with sent := true, complete := true } }
  let m ← m.scheduleWriteback false
  m.completeStore front

/-- `CPU::handleRunaheadLLL` and `LSQUnit::forgeResponse`. -/
def forgeResponse : Option MemInst := do
  let m ← { m with executed := true }.scheduleWriteback true
  return { m with hasForgedResponse := true }

/-- `DynInst::setRunahead`. -/
def setRunahead : Option MemInst :=
  let m := { m with runahead := true }
  match m.reqMade, m.savedRequest with
  | true, some r => m.modifyRequest r fun q => { q with data := { q.data with isRunahead := true } }
  | _, _ => some m

end Execute
end MemInst

inductive MemOp where
  /-- `insertLoad` or `insertStore`. -/
  | insert
  | pushRequest (active isSplit : Bool) (numPackets pending : Nat)
  | finish (r : Nat)
  | readStrictlyOrdered
  | readLocal
  /-- A store covers the load, fully or in part. -/
  | readFull
  | readPartial
  | readCache (env : Nat → DataRequest.SendResult)
  | writebackStore (env : Nat → DataRequest.SendResult)
  | failStoreConditional (front : Bool)
  /-- A store without data, or one that is not for the cache. -/
  | completeStore (front : Bool)
  /-- A completed store has come to the front of the store queue. -/
  | popStore
  | dcacheResp (r i : Nat) (front : Bool)
  | rcacheResp (r i : Nat) (front : Bool)
  | forgeResponse
  | writebackEvent
  | setExecuted
  | setSquashed
  /-- `LSQUnit::squash`. -/
  | squashEntry
  | commit
  | commitLoad

namespace MemInst

def step (inRunahead : Bool) (m : MemInst) : MemOp → Option MemInst
  | .insert => some { m with entry := some none }
  | .pushRequest active isSplit numPackets pending =>
    m.pushRequest active isSplit numPackets pending
  | .finish r => m.finish r
  | .readStrictlyOrdered => m.reschedule
  | .readLocal => m.scheduleWriteback false
  | .readFull => m.forward
  | .readPartial => m.reschedule
  | .readCache env => m.readCache env
  | .writebackStore env => m.writebackStore env
  | .failStoreConditional front => m.failStoreConditional front
  | .completeStore front => m.completeStore front
  | .popStore => m.clearEntry
  | .dcacheResp r i front => m.reply inRunahead r i false front
  | .rcacheResp r i front => m.reply inRunahead r i true front
  | .forgeResponse => m.forgeResponse
  | .writebackEvent => m.processWriteback inRunahead
  | .setExecuted => some { m with executed := true }
  | .setSquashed => some { m with squashed := true }
  | .squashEntry => { m with squashed := true }.clearEntry
  | .commit => some { m with committed := true }
  | .commitLoad => m.clearEntry

/-- The instruction may be executed: it has its entry and waits for nothing else. -/
def Executes (inRunahead : Bool) (m : MemInst) : Prop :=
  m.entry ≠ none ∧ m.executed = false ∧ m.squashed = false ∧
    (m.runahead = true → inRunahead = true) ∧ m.storeCompleted = false ∧ m.events = []

/-- A load whose request is translated and has not been sent as a whole. -/
def Reads (inRunahead : Bool) (m : MemInst) : Prop :=
  m.Executes inRunahead ∧ m.kind = .load ∧ m.translationStarted = true ∧
    m.translationCompleted = true ∧
    ∀ r ∈ m.savedRequest, ∀ q ∈ m.requests.get? r, q.data.sent = false

/-- No packet of the saved request is on its way. -/
def NoneInFlight (m : MemInst) : Prop :=
  ∀ r ∈ m.savedRequest, ∀ q ∈ m.requests.get? r, q.data.numOutstandingPackets = 0

/-- A store that is written back: its request is translated and has not been sent as a whole. -/
def WritesBack (m : MemInst) : Prop :=
  m.kind ≠ .other ∧ m.kind ≠ .load ∧ m.squashed = false ∧ m.storeCompleted = false ∧
    m.events = [] ∧ m.translationCompleted = true ∧
    ∃ r q, m.entry = some (some r) ∧ m.requests.get? r = some q ∧ q.hasReqs = true ∧
      q.data.sent = false

end MemInst

/-- When an operation can happen. An event for the current tick is processed before anything else
comes back from a cache or an entry is freed. A request that is strictly ordered, or not for the
cache, or of a store conditional that fails, has not been sent. -/
def MemOp.Allowed (inRunahead : Bool) (m : MemInst) : MemOp → Prop
  | .insert => m.kind ≠ .other ∧ m.entry = none ∧ m.requests = []
  | .pushRequest _ isSplit numPackets pending =>
    m.Executes inRunahead ∧ m.kind ≠ .other ∧ (isSplit = true → 0 < numPackets) ∧
      (isSplit = false → pending ≤ 1)
  | .finish r => ∃ c, m.requests[r]? = some c ∧ 0 < c.val.numInTranslation
  | .readStrictlyOrdered | .readLocal => m.Reads inRunahead ∧ m.NoneInFlight
  | .readFull | .readPartial | .readCache _ => m.Reads inRunahead
  | .writebackStore _ => m.WritesBack
  | .failStoreConditional _ =>
    m.WritesBack ∧ m.kind = .storeConditional ∧ m.NoneInFlight
  | .completeStore _ =>
    m.kind ≠ .other ∧ m.kind ≠ .load ∧ m.committed = true ∧ m.squashed = false ∧
      m.entry ≠ none ∧ m.storeCompleted = false ∧ m.NoneInFlight ∧ m.events = []
  | .popStore => m.kind ≠ .load ∧ m.storeCompleted = true ∧ m.entry ≠ none
  | .dcacheResp r i _ =>
    true ∉ m.events ∧ ∃ c, m.requests[r]? = some c ∧ i ∈ c.val.data.inDCache
  | .rcacheResp r i _ =>
    true ∉ m.events ∧ ∃ c, m.requests[r]? = some c ∧ i ∈ c.val.data.inRCache
  | .forgeResponse =>
    m.kind = .load ∧ m.runahead = true ∧ inRunahead = true ∧ m.squashed = false ∧
      m.executed = false ∧ m.entry ≠ none ∧ m.reqMade = true ∧
      ∃ r q, m.savedRequest = some r ∧ m.requests.get? r = some q ∧ q.data.sent = true ∧
        q.data.complete = false
  | .writebackEvent => m.events ≠ []
  | .setExecuted => m.committed = false ∧ (m.squashed = true ∨ m.isTranslationDelayed = false)
  | .setSquashed => m.committed = false
  | .squashEntry => m.committed = false ∧ m.entry ≠ none ∧ true ∉ m.events
  | .commit => m.committed = false ∧ (m.executed = true ∨ m.squashed = true)
  | .commitLoad =>
    m.kind = .load ∧ m.committed = true ∧ m.squashed = false ∧ m.entry ≠ none ∧ true ∉ m.events

/-! ## All instructions -/

/-- The instructions in flight, by sequence number, with the ROB of each thread. -/
structure LSQWindow where
  inRunahead : Nat → Bool := fun _ => false
  instList : List Nat := []
  rob : Nat → List Nat := fun _ => []
  insts : Nat → MemInst := fun _ => {}
  globalSeqNum : Nat := 1

inductive WindowOp where
  | fetch (tid : Nat) (kind : MemKind)
  /-- The instruction is put into the ROB. -/
  | dispatch (i : Nat)
  | inst (i : Nat) (op : MemOp)
  | enterRunahead (tid : Nat)
  | exitRunahead (tid : Nat)
  /-- The instruction is taken off the CPU's list. -/
  | remove (i : Nat)

namespace LSQWindow

def fetch (s : LSQWindow) (tid : Nat) (kind : MemKind) : LSQWindow :=
  { s with
    instList := s.instList ++ [s.globalSeqNum]
    insts := Function.update s.insts s.globalSeqNum
      { threadNumber := tid, kind := kind, runahead := s.inRunahead tid }
    globalSeqNum := s.globalSeqNum + 1 }

def dispatch (s : LSQWindow) (i : Nat) : LSQWindow :=
  let tid := (s.insts i).threadNumber
  { s with rob := Function.update s.rob tid (s.rob tid ++ [i]) }

/-- What is done to the instruction `i`; commit retires it from the ROB as well. -/
def act (s : LSQWindow) (i : Nat) (op : MemOp) : Option LSQWindow := do
  let tid := (s.insts i).threadNumber
  let m ← (s.insts i).step (s.inRunahead tid) op
  return { s with
    insts := Function.update s.insts i m
    rob :=
      match op with
      | .commit => Function.update s.rob tid (s.rob tid).tail
      | _ => s.rob }

/-- The switch of the mode, and the loop over the instructions in `CPU::enterRunahead`. -/
def enterRunahead (s : LSQWindow) (tid : Nat) : Option LSQWindow := do
  let insts ← updateEach
    (fun _ m => if m.threadNumber ≠ tid ∨ m.committed = true then some m else m.setRunahead)
    s.instList s.insts
  return { s with insts := insts, inRunahead := Function.update s.inRunahead tid true }

def step (s : LSQWindow) : WindowOp → Option LSQWindow
  | .fetch tid kind => some (s.fetch tid kind)
  | .dispatch i => some (s.dispatch i)
  | .inst i op => s.act i op
  | .enterRunahead tid => s.enterRunahead tid
  | .exitRunahead tid => some { s with inRunahead := Function.update s.inRunahead tid false }
  | .remove i => some { s with instList := s.instList.erase i }

def AtHead (s : LSQWindow) (i : Nat) : Prop := (s.rob (s.insts i).threadNumber).head? = some i

/-- The load at the head of the ROB has been sent and waits for its data, and no instruction of an
earlier period is left that has not been squashed. -/
def Enters (s : LSQWindow) (tid : Nat) : Prop :=
  s.inRunahead tid = false ∧
    (∃ h ∈ (s.rob tid).head?, (s.insts h).threadNumber = tid ∧ (s.insts h).kind = .load ∧
      (s.insts h).squashed = false ∧ (s.insts h).runahead = false ∧
      ∃ r q, (s.insts h).savedRequest = some r ∧ (s.insts h).requests.get? r = some q ∧
        q.data.sent = true ∧ q.data.complete = false) ∧
    ∀ i ∈ s.instList, (s.insts i).threadNumber = tid → (s.insts i).committed = false →
      (s.insts i).runahead = true → (s.insts i).squashed = true

end LSQWindow

/-- Commit retires the head of the ROB. What is written back has been committed, or is a store
conditional or an atomic operation at the head. -/
def WindowOp.Allowed (s : LSQWindow) : WindowOp → Prop
  | .fetch _ _ => True
  | .dispatch i => i ∈ s.instList ∧ ∀ tid, i ∉ s.rob tid
  | .inst i op =>
    i < s.globalSeqNum ∧ op.Allowed (s.inRunahead (s.insts i).threadNumber) (s.insts i) ∧
      match op with
      | .commit => s.AtHead i
      | .writebackStore _ | .failStoreConditional _ =>
        (s.insts i).committed = true ∨ s.AtHead i ∧ (s.insts i).kind ≠ .store
      | _ => True
  | .enterRunahead tid => s.Enters tid
  | .exitRunahead _ => True
  | .remove i => (s.insts i).committed = true ∨ (s.insts i).squashed = true

namespace LSQWindow

def system : Transition.System LSQWindow WindowOp where
  init s := s = {}
  step s op s' := op.Allowed s ∧ s.step op = some s'

end LSQWindow
end Runahead
end Gem5
