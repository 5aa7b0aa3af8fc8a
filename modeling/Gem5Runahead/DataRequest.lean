import Gem5Runahead.Lib.EventLog
import Gem5Runahead.Lib.Transition

/-!
# DataRequest

A memory request of the load/store queue, from its first packet to its last response. A request
is one packet, or is split into fragments of one packet each. In runahead every packet of a load
goes to the D-cache and is looked up in the runahead cache as well; a packet of a store goes to
the runahead cache only. A packet that the runahead cache has handled is answered by it, too. A
fragment that the D-cache does not accept stays back until the request is sent again.

Packets are named by the index of their fragment. What the caches do is in the labels: which
packets the D-cache accepts, which loads hit in the runahead cache, the order of the responses.
`none` is a failing assertion.

* `trySendPacket`, `sendPacketToCache` — packets leave.
* `recvTimingResp` — a response arrives, and may complete the request.
* `Event` — what happens, as a ghost log in the state.
-/

namespace Gem5
namespace Runahead

/-- What the request's observer sees. -/
inductive RequestEvent where
  | dcacheResp (i : Nat)
  | rcacheResp (i : Nat)
  | completeDataAccess
deriving DecidableEq

structure DataRequest where
  isSplit : Bool
  isLoad : Bool
  isRunahead : Bool
  /-- The size of `_packets`. -/
  numPackets : Nat
  /-- Of a split request. -/
  unsentPackets : List Nat
  /-- The packets the runahead cache has handled. -/
  rCachePackets : List Nat := []
  numOutstandingPackets : Nat := 0
  numReceivedPackets : Nat := 0
  numReceivedRCachePackets : Nat := 0
  /-- The flags `Sent` and `Complete`. -/
  sent : Bool := false
  complete : Bool := false
  /-- The queue's entry is freed, or the request is discarded. -/
  released : Bool := false
  /-- The load was given a forged response. -/
  hasForgedResponse : Bool := false
  /-- The packets each cache still has to answer. -/
  inDCache : List Nat := []
  inRCache : List Nat := []
  log : List RequestEvent := []

namespace DataRequest

def rCacheExpected (r : DataRequest) : Bool := !r.rCachePackets.isEmpty

def emit (r : DataRequest) (e : RequestEvent) : DataRequest := { r with log := e :: r.log }

section Send

/-- What the caches do with a packet: whether the D-cache takes it, and whether a load hits in the
runahead cache. -/
structure SendResult where
  accepted : Bool
  hit : Bool

/-- Everything goes to the real cache except runahead stores. -/
def toDCache (r : DataRequest) : Bool := !r.isRunahead || r.isLoad

/-- `LSQUnit::trySendPacket`, with the number of packets sent. -/
def trySendPacket (r : DataRequest) (i : Nat) (env : SendResult) : DataRequest × Nat :=
  if r.toDCache && !env.accepted then ({ r with sent := false }, 0)
  else
    -- the runahead cache handles every store
    let rcSuccess := r.isRunahead && (!r.isLoad || env.hit)
    ({ r with
      sent := true
      inDCache := if r.toDCache then r.inDCache ++ [i] else r.inDCache
      rCachePackets := if rcSuccess then r.rCachePackets ++ [i] else r.rCachePackets
      inRCache := if rcSuccess then r.inRCache ++ [i] else r.inRCache },
      r.toDCache.toNat + rcSuccess.toNat)

/-- The loop of `SplitDataRequest::sendPacketToCache`. -/
def sendUnsent (env : Nat → SendResult) : List Nat → DataRequest → DataRequest
  | [], r => { r with unsentPackets := [] }
  | i :: rest, r =>
    let (r, packetsSent) := r.trySendPacket i (env i)
    if packetsSent = 0 then { r with unsentPackets := i :: rest }
    else sendUnsent env rest { r with
      numOutstandingPackets := r.numOutstandingPackets + packetsSent
      unsentPackets := rest }

def sendPacketToCache (r : DataRequest) (env : Nat → SendResult) : Option DataRequest :=
  if r.isSplit then some (sendUnsent env r.unsentPackets r)
  else if r.numOutstandingPackets ≠ 0 then none
  else
    let (r, packetsSent) := r.trySendPacket 0 (env 0)
    some { r with numOutstandingPackets := r.numOutstandingPackets + packetsSent }

end Send

section Receive

def completeDataAccess (r : DataRequest) : DataRequest :=
  { r with complete := true }.emit .completeDataAccess

/-- `SingleDataRequest::recvTimingResp`. -/
def recvSingle (r : DataRequest) (i : Nat) (isRCachePacket : Bool) : Option DataRequest :=
  if r.numOutstandingPackets ≠ 1 ∧ r.numOutstandingPackets ≠ 2 then none
  else if r.rCacheExpected then
    if isRCachePacket then
      if r.rCachePackets.head? = some i then some r.completeDataAccess else none
    else some r
  else some r.completeDataAccess

/-- `SplitDataRequest::recvTimingResp`. -/
def recvSplit (r : DataRequest) (isRCachePacket : Bool) : DataRequest :=
  if r.rCacheExpected && isRCachePacket then
    let r := { r with numReceivedRCachePackets := r.numReceivedRCachePackets + 1 }
    if r.numReceivedRCachePackets = r.rCachePackets.length then r.completeDataAccess else r
  else if !r.rCacheExpected then
    let r := { r with numReceivedPackets := r.numReceivedPackets + 1 }
    if r.numReceivedPackets = r.numPackets then r.completeDataAccess else r
  else r

/-- `LSQUnit::recvTimingResp`. -/
def recvTimingResp (r : DataRequest) (i : Nat) (isRCachePacket : Bool) : Option DataRequest :=
  if r.hasForgedResponse then some r
  else if !r.isLoad && r.isRunahead && !isRCachePacket then none
  else if r.released then some r
  else if r.isSplit then some (r.recvSplit isRCachePacket)
  else r.recvSingle i isRCachePacket

/-- `LSQRequest::packetReplied`. -/
def packetReplied (r : DataRequest) : Option DataRequest :=
  if r.numOutstandingPackets = 0 then none
  else some { r with numOutstandingPackets := r.numOutstandingPackets - 1 }

def dcacheResp (r : DataRequest) (i : Nat) : Option DataRequest :=
  if i ∈ r.inDCache then do
    let r ← ({ r with inDCache := r.inDCache.erase i }.emit (.dcacheResp i)).recvTimingResp i false
    r.packetReplied
  else none

def rcacheResp (r : DataRequest) (i : Nat) : Option DataRequest :=
  if i ∈ r.inRCache then do
    let r ← ({ r with inRCache := r.inRCache.erase i }.emit (.rcacheResp i)).recvTimingResp i true
    r.packetReplied
  else none

end Receive

section Step

inductive Label where
  /-- The request is sent, or sent again because a packet was not accepted. -/
  | sendPacketToCache (env : Nat → SendResult)
  | dcacheResp (i : Nat)
  | rcacheResp (i : Nat)
  /-- The queue's entry is freed, or the request discarded. -/
  | release
  /-- Commit completes the load with a forged response. -/
  | forgeResponse
  /-- The CPU enters runahead and marks the instruction, and so its request. -/
  | setRunahead

def step (r : DataRequest) : Label → Option DataRequest
  | .sendPacketToCache env =>
    if r.sent = false ∧ r.released = false then r.sendPacketToCache env else none
  | .dcacheResp i => r.dcacheResp i
  | .rcacheResp i => r.rcacheResp i
  | .release => some { r with released := true }
  | .forgeResponse =>
    if r.isLoad ∧ r.sent ∧ r.complete = false then some { r with hasForgedResponse := true }
    else none
  | .setRunahead => some { r with isRunahead := true }

/-- The packets are built. -/
def built (isLoad isRunahead : Bool) : DataRequest where
  isSplit := false
  isLoad := isLoad
  isRunahead := isRunahead
  numPackets := 1
  unsentPackets := []

def builtSplit (isLoad isRunahead : Bool) (numPackets : Nat) : DataRequest where
  isSplit := true
  isLoad := isLoad
  isRunahead := isRunahead
  numPackets := numPackets
  unsentPackets := List.range numPackets

/-- Any order of attempts to send and of responses. -/
def system : Transition.System DataRequest Label where
  init r := ∃ isLoad isRunahead, r = built isLoad isRunahead ∨
    ∃ n > 0, r = builtSplit isLoad isRunahead n
  step r l r' := r.step l = some r'

end Step

end DataRequest
end Runahead
end Gem5
