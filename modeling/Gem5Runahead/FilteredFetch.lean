import Gem5Runahead.Lib.RoundRobin
import Gem5Runahead.DependenceChain
import Gem5Runahead.InstList
import Mathlib.Data.List.Rotate

/-!
# FilteredFetch

What fetch sends to decode. Each thread has a fetch queue. At the end of its tick fetch goes round
the active threads from a random one and takes the instructions at the front of their queues, up to
`decodeWidth` of them. In runahead mode an instruction that is not in the runahead chain is removed
instead of being sent on.

The queues are filled by `buildInst` and emptied by a squash, which commit or decode announces. A
squash of decode marks the instructions of its thread, those in the fetch queue as well, and fetch
empties the queue when it checks its signals, before it sends anything.

* `sendLoop` — the loop of the source; `sendInsts` — what a tick sends.
* `FetchOp.Allowed` — in which order the stages do their work.
* `Filtered` — what a tick sends and discards; `Conserved` — where each fetched instruction is.
* `keeps_chain` — every tick of every run sends the instructions of the chain and no others.
-/

namespace Gem5
namespace Runahead

def maxWidth : Nat := 12

structure FetchConfig where
  decodeWidth : Nat
  fetchQueueSize : Nat
  /-- Checked by the constructor of decode. -/
  decodeWidth_le : decodeWidth ≤ maxWidth

def PCState.pair (pc : PCState) : PCPair := ⟨pc.instAddr, pc.microPC⟩

/-- Fetch and the part of the CPU it reads. -/
structure FetchStage where
  cpu : InstList
  runaheadStatus : Nat → Bool := fun _ => false
  runaheadChain : List PCPair := []
  activeThreads : List Nat := []
  fetchQueue : Nat → List Nat := fun _ => []
  /-- `stalls[tid].decode`. -/
  stalls : Nat → Bool := fun _ => false
  /-- `fetchStatus[tid]` is `Squashing`. -/
  squashing : Nat → Bool := fun _ => false
  /-- The number decode squashes a thread down to, until fetch has read it. -/
  decodeInfo : Nat → Option Nat := fun _ => none
  toDecode : List Nat := []
  /-- What was put in a thread's queue, and what was sent to decode, discarded or squashed of it. -/
  fetched : Nat → List Nat := fun _ => []
  sent : Nat → List Nat := fun _ => []
  discarded : Nat → List Nat := fun _ => []
  squashedOut : Nat → List Nat := fun _ => []

/-- What a thread reads of the signals of decode and commit, the squash of decode apart. -/
structure FetchSignals where
  decodeBlock : Bool := false
  decodeUnblock : Bool := false
  /-- A squash of commit, with the youngest instruction the thread has in the ROB. -/
  commitSquash : Option (Option Nat) := none

namespace FetchStage

section Code

variable (cfg : FetchConfig)

def inRunaheadChain (s : FetchStage) (i : Nat) : Bool :=
  if s.runaheadChain.length = 0 then true
  else s.runaheadChain.any fun it => it = (s.cpu.insts i).pcState.pair

/-- The branch of the loop that sends `i` or removes it. -/
def sendFront (s : FetchStage) (tid i : Nat) : Option FetchStage :=
  if s.runaheadStatus (s.cpu.insts i).threadNumber = false ∨ s.inRunaheadChain i = true then
    -- `insts` has room for `MaxWidth` instructions
    if s.toDecode.length < maxWidth then
      some { s with
        toDecode := s.toDecode ++ [i]
        sent := Function.update s.sent tid (s.sent tid ++ [i]) }
    else none
  else do
    let cpu ← s.cpu.removeInst i
    return { s with
      cpu := cpu
      discarded := Function.update s.discarded tid (s.discarded tid ++ [i]) }

def popFront (s : FetchStage) (tid : Nat) : FetchStage :=
  { s with fetchQueue := Function.update s.fetchQueue tid (s.fetchQueue tid).tail }

/-- The list is `activeThreads` from `tid_itr` on, and on from its beginning. -/
def sendLoop : Nat → List Nat → Nat → Nat → FetchStage → Option FetchStage
  | 0, _, _, _, _ => none
  | fuel + 1, threads, availableInsts, instsToDecode, s =>
    if availableInsts ≠ 0 ∧ instsToDecode < cfg.decodeWidth then
      match threads with
      | [] => none
      | tid :: rest =>
        match if !s.stalls tid then s.fetchQueue tid else [] with
        | [] => sendLoop fuel (rest ++ [tid]) availableInsts instsToDecode s
        | i :: _ => do
          let s ← s.sendFront tid i
          sendLoop fuel (rest ++ [tid]) (availableInsts - 1) (instsToDecode + 1) (s.popFront tid)
    else some s

def availableInsts (s : FetchStage) : Nat :=
  ((s.activeThreads.filter fun tid => !s.stalls tid).map fun tid => (s.fetchQueue tid).length).sum

/-- The wire to decode is empty in each new tick. -/
def newTick (s : FetchStage) : FetchStage := { s with toDecode := [] }

/-- `start` is the random thread to start from. -/
def sendInsts (fuel start : Nat) (s : FetchStage) : Option FetchStage :=
  sendLoop cfg fuel (s.activeThreads.rotate start) s.availableInsts 0 s.newTick

def doSquash (s : FetchStage) (tid : Nat) : FetchStage :=
  { s with
    squashing := Function.update s.squashing tid true
    fetchQueue := Function.update s.fetchQueue tid []
    squashedOut := Function.update s.squashedOut tid (s.squashedOut tid ++ s.fetchQueue tid) }

def squash (s : FetchStage) (tid : Nat) (robTail : Option Nat) : Option FetchStage :=
  (s.cpu.removeInstsNotInROB tid robTail).map fun cpu => { s.doSquash tid with cpu := cpu }

def squashFromDecode (s : FetchStage) (tid seqNum : Nat) : Option FetchStage :=
  (s.cpu.removeInstsUntil seqNum tid).map fun cpu => { s.doSquash tid with cpu := cpu }

def checkSignalsAndUpdate (s : FetchStage) (tid : Nat) (sig : FetchSignals) : Option FetchStage :=
  let stalled := s.stalls tid || sig.decodeBlock
  -- the assertions on `decodeUnblock`
  if sig.decodeUnblock && (!stalled || sig.decodeBlock) then none
  else
    let s' : FetchStage := { s with
      stalls := Function.update s.stalls tid (stalled && !sig.decodeUnblock)
      decodeInfo := Function.update s.decodeInfo tid none }
    match sig.commitSquash, s.decodeInfo tid, s.squashing tid with
    | some robTail, _, _ => s'.squash tid robTail
    | none, some seqNum, false => s'.squashFromDecode tid seqNum
    | _, _, _ => some { s' with squashing := Function.update s.squashing tid false }

def buildInst (s : FetchStage) (tid : Nat) (inst : DynInst) : Option FetchStage :=
  let i := s.cpu.globalSeqNum
  if (s.fetchQueue tid).length < cfg.fetchQueueSize then
    some { s with
      cpu := s.cpu.addInst i { inst with
        threadNumber := tid, squashed := false, removePending := false
        runahead := s.runaheadStatus tid }
      fetchQueue := Function.update s.fetchQueue tid (s.fetchQueue tid ++ [i])
      fetched := Function.update s.fetched tid (s.fetched tid ++ [i]) }
  else none

def clearStates (s : FetchStage) (tid : Nat) : FetchStage :=
  { s with
    stalls := Function.update s.stalls tid false
    squashing := Function.update s.squashing tid false
    fetchQueue := Function.update s.fetchQueue tid []
    squashedOut := Function.update s.squashedOut tid (s.squashedOut tid ++ s.fetchQueue tid) }

/-- `Decode::squash` of a thread down to the instruction `i`. -/
def decodeSquash (s : FetchStage) (tid i : Nat) : Option FetchStage :=
  (s.cpu.removeInstsUntil i tid).map fun cpu =>
    { s with cpu := cpu, decodeInfo := Function.update s.decodeInfo tid (some i) }

end Code

end FetchStage

inductive FetchOp where
  | checkSignalsAndUpdate (tid : Nat) (sig : FetchSignals)
  | buildInst (tid : Nat) (inst : DynInst)
  | sendInsts (start : Nat)
  | clearStates (tid : Nat)
  | decodeSquash (tid i : Nat)
  /-- Commit retires an instruction. -/
  | removeFrontInst (i : Nat)
  | endTick
  /-- A period begins or ends. -/
  | inRunahead (tid : Nat) (state : Bool)
  | generateChain (chain : List PCPair)
  | setActive (threads : List Nat)

namespace FetchStage

def step (cfg : FetchConfig) (s : FetchStage) : FetchOp → Option FetchStage
  | .checkSignalsAndUpdate tid sig => s.checkSignalsAndUpdate tid sig
  | .buildInst tid inst => s.buildInst cfg tid inst
  | .sendInsts start =>
    s.sendInsts cfg (s.availableInsts * s.activeThreads.length + 1) start
  | .clearStates tid => some (s.clearStates tid)
  | .decodeSquash tid i => s.decodeSquash tid i
  | .removeFrontInst i => some { s with cpu := s.cpu.removeFrontInst i }
  | .endTick => some { s with cpu := s.cpu.endTick }
  | .inRunahead tid state =>
    some { s with runaheadStatus := Function.update s.runaheadStatus tid state }
  | .generateChain chain => some { s with runaheadChain := chain }
  | .setActive threads => some { s with activeThreads := threads }

/-- Fetch has read the squashes of decode that concern it. -/
def SignalsRead (s : FetchStage) : Prop := ∀ tid ∈ s.activeThreads, s.decodeInfo tid = none

end FetchStage

open FetchStage

/-- Fetch checks the signals of every active thread before it sends anything, and fetches nothing
for a thread it squashes. What retires has been sent to decode. -/
def FetchOp.Allowed (s : FetchStage) : FetchOp → Prop
  | .sendInsts _ => s.SignalsRead
  | .buildInst tid _ => s.squashing tid = false
  | .removeFrontInst i => ∃ tid, i ∈ s.sent tid
  | .setActive threads => threads.Nodup
  | _ => True

namespace FetchStage

def system (cfg : FetchConfig) : Transition.System FetchStage FetchOp where
  init s := ∃ insts, s = { cpu := ⟨insts, [], [], false, 1⟩ }
  step s op s' := op.Allowed s ∧ s.step cfg op = some s'

/-! ## What is to be shown -/

/-- In runahead mode an instruction is kept if it is in the chain or there is no chain. -/
def Kept (s : FetchStage) (i : Nat) : Prop :=
  s.runaheadStatus (s.cpu.insts i).threadNumber = true →
    s.runaheadChain = [] ∨ (s.cpu.insts i).pcState.pair ∈ s.runaheadChain

instance (s : FetchStage) : DecidablePred s.Kept := fun _ => inferInstanceAs (Decidable (_ → _))

/-- The instructions `l` were taken from the queues of their threads, in this order: those that are
kept were sent, and each of the others was marked, which it had not been before. -/
structure Filtered (s : FetchStage) (l : List (Nat × Nat)) (s' : FetchStage) : Prop where
  queue : ∀ tid, s.fetchQueue tid = RoundRobin.ofQueue tid l ++ s'.fetchQueue tid
  thread : ∀ x ∈ l, (s.cpu.insts x.2).threadNumber = x.1
  toDecode : s'.toDecode = s.toDecode ++ (l.map Prod.snd).filter fun i => s.Kept i
  sent : ∀ tid, s'.sent tid =
    s.sent tid ++ (RoundRobin.ofQueue tid l).filter fun i => s.Kept i
  discarded : ∀ tid, s'.discarded tid =
    s.discarded tid ++ (RoundRobin.ofQueue tid l).filter fun i => ¬s.Kept i
  unmarked : ∀ x ∈ l, x.2 ∈ s.cpu.instList ∧ x.2 ∉ s.cpu.removeList ∧
    (s.cpu.insts x.2).squashed = false ∧ (s.cpu.insts x.2).removePending = false
  insts : ∀ i, s'.cpu.insts i =
    if i ∈ l.map Prod.snd ∧ ¬s.Kept i then (s.cpu.insts i).setSquashed.removeFromCPU
    else s.cpu.insts i
  removeList : s'.cpu.removeList =
    s.cpu.removeList ++ (l.map Prod.snd).filter fun i => ¬s.Kept i

/-- Each fetched instruction is in one place: it was sent, discarded or squashed, or it is still in
its queue. -/
structure Conserved (s : FetchStage) : Prop where
  nodup : ∀ tid, (s.fetched tid).Nodup
  perm : ∀ tid, (s.sent tid ++ s.discarded tid ++ s.squashedOut tid ++ s.fetchQueue tid).Perm
    (s.fetched tid)
  /-- What was sent, and then what is in the queue, is in fetch order. -/
  order : ∀ tid, (s.sent tid ++ s.fetchQueue tid).Sublist (s.fetched tid)
  marked : ∀ tid, ∀ i ∈ s.discarded tid,
    (s.cpu.insts i).squashed = true ∧ (s.cpu.insts i).removePending = true
  /-- What was discarded never reaches decode. -/
  notSent : ∀ tid tid', ∀ i ∈ s.discarded tid, i ∉ s.sent tid'

/-! ## The loop takes turns -/

section Loop

variable {cfg : FetchConfig} {s s' : FetchStage} {tid i : Nat} {l : List (Nat × Nat)}

theorem kept_iff (s : FetchStage) (i : Nat) :
    s.runaheadStatus (s.cpu.insts i).threadNumber = false ∨ s.inRunaheadChain i = true ↔
      s.Kept i := by
  have hchain : s.inRunaheadChain i = true ↔
      s.runaheadChain = [] ∨ (s.cpu.insts i).pcState.pair ∈ s.runaheadChain := by
    unfold inRunaheadChain
    by_cases hnil : s.runaheadChain = []
    · simp [hnil]
    · rw [if_neg (mt List.length_eq_zero_iff.mp hnil), List.any_eq_true]
      simp [hnil]
  rw [hchain, Kept]
  cases s.runaheadStatus (s.cpu.insts i).threadNumber <;> simp

/-- One instruction is sent or removed, and popped. -/
def sendOne (s : FetchStage) (x : Nat × Nat) : Option FetchStage :=
  (s.sendFront x.1 x.2).map fun s => s.popFront x.1

theorem sendFront_frame (h : s.sendFront tid i = some s') :
    s'.fetchQueue = s.fetchQueue ∧ s'.stalls = s.stalls := by
  unfold sendFront at h
  split at h
  · split at h
    · cases h
      exact ⟨rfl, rfl⟩
    · cases h
  · obtain ⟨cpu, -, h⟩ := Option.bind_eq_some_iff.mp h
    cases h
    exact ⟨rfl, rfl⟩

/-- The loop serves the queues of the threads that decode does not stall in turn. -/
theorem sendLoop_eq (fuel : Nat) (threads : List Nat) (n k : Nat) (s : FetchStage) :
    sendLoop cfg fuel threads n k s =
      (RoundRobin.serve (fun tid => !s.stalls tid) fuel threads n (cfg.decodeWidth - k)
        s.fetchQueue).bind fun r => r.1.foldlM sendOne s := by
  induction fuel generalizing threads n k s with
  | zero => rfl
  | succ fuel ih =>
    by_cases hend : n = 0 ∨ cfg.decodeWidth - k = 0
    · have hstop : ¬(n ≠ 0 ∧ k < cfg.decodeWidth) := by omega
      rw [RoundRobin.serve_end hend]
      unfold sendLoop
      rw [if_neg hstop]
      rfl
    have hgo : n ≠ 0 ∧ k < cfg.decodeWidth := by omega
    cases threads with
    | nil => simp only [sendLoop, RoundRobin.serve, if_pos hgo, if_neg hend, Option.bind_none]
    | cons tid rest =>
      simp only [sendLoop, RoundRobin.serve, if_pos hgo, if_neg hend]
      cases hfront : if (!s.stalls tid) = true then s.fetchQueue tid else [] with
      | nil => exact ih (rest ++ [tid]) n k s
      | cons i is =>
        have hqueue : s.fetchQueue tid = i :: is := by
          by_cases hstall : (!s.stalls tid) = true
          · rwa [if_pos hstall] at hfront
          · rw [if_neg hstall] at hfront
            cases hfront
        simp only [Option.bind_eq_bind, Option.bind_map, Function.comp_def, List.foldlM_cons,
          sendOne]
        cases hsend : s.sendFront tid i with
        | none => simp
        | some t =>
          obtain ⟨hq, hstalls⟩ := sendFront_frame hsend
          have hnext := ih (rest ++ [tid]) (n - 1) (k + 1) (t.popFront tid)
          have hpop : (t.popFront tid).fetchQueue = Function.update s.fetchQueue tid is := by
            simp only [popFront, hq, hqueue, List.tail_cons]
          have hready : (t.popFront tid).stalls = s.stalls := hstalls
          rw [hpop, hready, ← Nat.sub_sub] at hnext
          simpa using hnext

end Loop

/-! ## What a squash leaves alone -/

/-- Only instructions of thread `tid` were squashed and marked. -/
structure SquashesThread (tid : Nat) (s s' : InstList) : Prop where
  other : ∀ i, (s.insts i).threadNumber ≠ tid → s'.insts i = s.insts i
  threadNumber : ∀ i, (s'.insts i).threadNumber = (s.insts i).threadNumber
  squashed : ∀ i, (s.insts i).squashed = true → (s'.insts i).squashed = true

namespace SquashesThread

open InstList

variable {tid : Nat} {s s' s'' : InstList}

theorem refl (tid : Nat) (s : InstList) : SquashesThread tid s s :=
  ⟨fun _ _ => rfl, fun _ => rfl, fun _ => id⟩

theorem trans (h : SquashesThread tid s s') (h' : SquashesThread tid s' s'') :
    SquashesThread tid s s'' := by
  refine ⟨fun i hi => ?_, fun i => (h'.threadNumber i).trans (h.threadNumber i), fun i hi => ?_⟩
  · have hi' : (s'.insts i).threadNumber ≠ tid := by rwa [h.threadNumber]
    rw [h'.other i hi', h.other i hi]
  · exact h'.squashed i (h.squashed i hi)

theorem setRemoving (tid : Nat) (s : InstList) : SquashesThread tid s s.setRemoving :=
  ⟨fun _ _ => rfl, fun _ => rfl, fun _ => id⟩

theorem squashInstIt (s : InstList) (i tid : Nat) :
    SquashesThread tid s (s.squashInstIt i tid) := by
  by_cases hi : (s.insts i).threadNumber = tid
  · rw [InstList.squashInstIt, if_pos hi]
    refine ⟨fun j hj => ?_, fun j => ?_, fun j hj => ?_⟩
    · have hne : j ≠ i := fun h => hj (h ▸ hi)
      exact Insts.modify_of_ne hne fun inst => inst.setSquashed.removeFromCPU
    · simp only [Insts.modify_apply]
      split <;> rfl
    · simp only [Insts.modify_apply]
      split
      · rfl
      · exact hj
  · rw [InstList.squashInstIt, if_neg hi]
    exact refl tid s

theorem squashWhile {p : Nat → Bool} (l : List Nat) :
    ∀ {s : InstList}, InstList.squashWhile tid p l s = some s' → SquashesThread tid s s' := by
  induction l with
  | nil => exact fun h => nomatch h
  | cons i l ih =>
    intro s h
    rw [InstList.squashWhile] at h
    by_cases hi : p i = true
    · rw [if_pos hi] at h
      exact (squashInstIt s i tid).trans (ih h)
    · rw [if_neg hi] at h
      cases h
      exact refl tid _

theorem removeInstsNotInROB {robTail : Option Nat}
    (h : s.removeInstsNotInROB tid robTail = some s') : SquashesThread tid s s' := by
  unfold InstList.removeInstsNotInROB at h
  split at h
  · cases h
    exact refl tid s
  · obtain ⟨t, ht, h⟩ := Option.bind_eq_some_iff.mp h
    cases h
    exact ((setRemoving tid s).trans (squashWhile _ ht)).trans (squashInstIt t _ tid)
  · exact (setRemoving tid s).trans (squashWhile _ h)

theorem removeInstsUntil {seqNum : Nat} (h : s.removeInstsUntil seqNum tid = some s') :
    SquashesThread tid s s' :=
  (setRemoving tid s).trans (squashWhile _ h)

end SquashesThread

/-! ## The invariant of a run -/

/-- An instruction in a queue can be reached through its list iterator and is not marked, unless
decode has just squashed its thread. -/
structure Inv (s : FetchStage) : Prop where
  active : s.activeThreads.Nodup
  instList : s.cpu.instList.Nodup
  fresh : ∀ i ∈ s.cpu.instList, i < s.cpu.globalSeqNum
  removed : ∀ i ∈ s.cpu.removeList,
    i < s.cpu.globalSeqNum ∧ (s.cpu.insts i).removePending = true
  fetched : ∀ tid, ∀ i ∈ s.fetched tid,
    i < s.cpu.globalSeqNum ∧ (s.cpu.insts i).threadNumber = tid
  squashing : ∀ tid, s.squashing tid = true → s.fetchQueue tid = []
  listed : ∀ tid, s.decodeInfo tid = none → ∀ i ∈ s.fetchQueue tid,
    i ∈ s.cpu.instList ∧ (s.cpu.insts i).squashed = false ∧
      (s.cpu.insts i).removePending = false
  nodup : ∀ tid, (s.fetched tid).Nodup
  perm : ∀ tid, (s.sent tid ++ s.discarded tid ++ s.squashedOut tid ++ s.fetchQueue tid).Perm
    (s.fetched tid)
  order : ∀ tid, (s.sent tid ++ s.fetchQueue tid).Sublist (s.fetched tid)
  marked : ∀ tid, ∀ i ∈ s.discarded tid,
    (s.cpu.insts i).squashed = true ∧ (s.cpu.insts i).removePending = true

namespace Inv

variable {cfg : FetchConfig} {s s' : FetchStage} {tid i : Nat} {l : List Nat} {cpu : InstList}

theorem queue_fetched (h : Inv s) (hi : i ∈ s.fetchQueue tid) : i ∈ s.fetched tid :=
  (h.perm tid).subset (List.mem_append_right _ hi)

theorem sent_fetched (h : Inv s) (hi : i ∈ s.sent tid) : i ∈ s.fetched tid :=
  (h.order tid).subset (List.mem_append_left _ hi)

theorem discarded_fetched (h : Inv s) (hi : i ∈ s.discarded tid) : i ∈ s.fetched tid :=
  (h.perm tid).subset (by simp [hi])

theorem parts_nodup (h : Inv s) (tid : Nat) :
    (s.sent tid ++ s.discarded tid ++ s.squashedOut tid ++ s.fetchQueue tid).Nodup :=
  (h.perm tid).nodup_iff.mpr (h.nodup tid)

theorem queue_not_sent (h : Inv s) (hi : i ∈ s.fetchQueue tid) (tid' : Nat) :
    i ∉ s.sent tid' := by
  intro hsent
  have hthread := (h.fetched tid' i (h.sent_fetched hsent)).2
  rw [(h.fetched tid i (h.queue_fetched hi)).2] at hthread
  subst hthread
  have hdisj := List.nodup_append'.mp (h.parts_nodup tid) |>.2.2
  exact hdisj (by simp [hsent]) hi

theorem discarded_not_sent (h : Inv s) (hi : i ∈ s.discarded tid) (tid' : Nat) :
    i ∉ s.sent tid' := by
  intro hsent
  have hthread := (h.fetched tid' i (h.sent_fetched hsent)).2
  rw [(h.fetched tid i (h.discarded_fetched hi)).2] at hthread
  subst hthread
  have hparts := h.parts_nodup tid
  rw [List.append_assoc, List.append_assoc] at hparts
  have hdisj := List.nodup_append'.mp hparts |>.2.2
  exact hdisj hsent (by simp [hi])

theorem conserved (h : Inv s) : Conserved s :=
  ⟨h.nodup, h.perm, h.order, h.marked, fun _ tid' _ hi => h.discarded_not_sent hi tid'⟩

/-- Instructions are marked, none of them in a queue that is to stay as it is. -/
theorem mark (h : Inv s) (hm : InstList.Marked s.cpu l cpu) (hl : ∀ i ∈ l, i < s.cpu.globalSeqNum)
    (hsquashed : ∀ i, (s.cpu.insts i).squashed = true → (cpu.insts i).squashed = true)
    (hkeep : ∀ tid, s.decodeInfo tid = none → ∀ i ∈ s.fetchQueue tid,
      cpu.insts i = s.cpu.insts i) :
    Inv { s with cpu := cpu } := by
  have hpending : ∀ i, (s.cpu.insts i).removePending = true →
      (cpu.insts i).removePending = true := by
    intro i hi
    rw [hm.removePending, hi, Bool.true_or]
  refine { h with instList := ?_, fresh := ?_, removed := ?_, fetched := ?_, listed := ?_,
                  marked := ?_ }
  · exact hm.instList ▸ h.instList
  · intro i hi
    rw [hm.instList] at hi
    exact hm.globalSeqNum ▸ h.fresh i hi
  · intro i hi
    simp only [hm.removeList, List.mem_append] at hi
    rw [hm.globalSeqNum]
    rcases hi with hi | hi
    · exact ⟨(h.removed i hi).1, hpending i (h.removed i hi).2⟩
    · refine ⟨hl i hi, ?_⟩
      rw [hm.removePending, decide_eq_true hi, Bool.or_true]
  · intro tid i hi
    rw [hm.globalSeqNum, hm.threadNumber]
    exact h.fetched tid i hi
  · intro tid hinfo i hi
    rw [hm.instList, hkeep tid hinfo i hi]
    exact h.listed tid hinfo i hi
  · intro tid i hi
    obtain ⟨hsq, hrp⟩ := h.marked tid i hi
    exact ⟨hsquashed i hsq, hpending i hrp⟩

theorem newTick (h : Inv s) : Inv s.newTick := { h with }

/-- What a walk marks is in the list. -/
theorem marks_lt (h : Inv s) {op : InstList.Op} (hop : s.cpu.marks op ⊆ s.cpu.instList) :
    ∀ i ∈ s.cpu.marks op, i < s.cpu.globalSeqNum := fun i hi => h.fresh i (hop hi)

theorem marks_notInROB (s : InstList) (tid : Nat) (robTail : Option Nat) :
    s.marks (.removeInstsNotInROB tid robTail) ⊆ s.instList := by
  intro i hi
  cases robTail with
  | none => exact List.mem_reverse.mp (List.mem_filter.mp hi).1
  | some tail =>
    exact List.mem_reverse.mp (List.takeWhile_sublist _ |>.subset (List.mem_filter.mp hi).1)

theorem marks_until (s : InstList) (seqNum tid : Nat) :
    s.marks (.removeInstsUntil seqNum tid) ⊆ s.instList := fun _ hi =>
  List.mem_reverse.mp (List.takeWhile_sublist _ |>.subset (List.mem_filter.mp hi).1)

/-- A walk over thread `tid`, whose queue is empty or is to be emptied. -/
theorem squashThread (h : Inv s) (hm : InstList.Marked s.cpu l cpu)
    (hl : ∀ i ∈ l, i < s.cpu.globalSeqNum) (hs : SquashesThread tid s.cpu cpu)
    (htid : s.fetchQueue tid = [] ∨ s.decodeInfo tid ≠ none) : Inv { s with cpu := cpu } := by
  refine h.mark hm hl hs.squashed fun tid' hinfo i hi => hs.other i ?_
  rw [(h.fetched tid' i (h.queue_fetched hi)).2]
  rintro rfl
  rcases htid with hempty | hsome
  · rw [hempty] at hi
    cases hi
  · exact hsome hinfo

theorem emptied (h : Inv s) (tid : Nat) (stalls squashing : Nat → Bool)
    (decodeInfo : Nat → Option Nat)
    (hinfo : ∀ u, u ≠ tid → decodeInfo u = none → s.decodeInfo u = none)
    (hsquashing : ∀ u, u ≠ tid → squashing u = true → s.squashing u = true) :
    Inv { s.doSquash tid with
      stalls := stalls, squashing := squashing, decodeInfo := decodeInfo } := by
  have hqueue : ∀ u, u ≠ tid → (s.doSquash tid).fetchQueue u = s.fetchQueue u := fun u hu =>
    Function.update_of_ne hu _ _
  have hempty : (s.doSquash tid).fetchQueue tid = [] := Function.update_self ..
  have hsquashed : ∀ u, u ≠ tid → (s.doSquash tid).squashedOut u = s.squashedOut u :=
    fun u hu => Function.update_of_ne hu _ _
  have hout : (s.doSquash tid).squashedOut tid = s.squashedOut tid ++ s.fetchQueue tid :=
    Function.update_self ..
  refine { h with squashing := ?_, listed := ?_, perm := ?_, order := ?_ }
  · intro u hu
    by_cases hut : u = tid
    · rw [hut]
      exact hempty
    · exact (hqueue u hut).trans (h.squashing u (hsquashing u hut hu))
  · intro u hu i hi
    by_cases hut : u = tid
    · rw [hut] at hi
      simp only [hempty, List.not_mem_nil] at hi
    · simp only [hqueue u hut] at hi
      exact h.listed u (hinfo u hut hu) i hi
  · intro u
    by_cases hut : u = tid
    · subst hut
      simp only [hempty, hout, List.append_nil]
      rw [← List.append_assoc]
      exact h.perm u
    · simp only [hqueue u hut, hsquashed u hut]
      exact h.perm u
  · intro u
    by_cases hut : u = tid
    · subst hut
      simp only [hempty, List.append_nil]
      exact (List.sublist_append_left _ _).trans (h.order u)
    · simp only [hqueue u hut]
      exact h.order u

end Inv

/-! ## What a tick sends -/

section Send

variable {cfg : FetchConfig} {s s' s'' : FetchStage} {tid i : Nat} {is : List Nat}
  {l : List (Nat × Nat)} {x : Nat × Nat}

/-- What the test for the chain and the loop read is as before. -/
structure SameMode (s s' : FetchStage) : Prop where
  runaheadStatus : s'.runaheadStatus = s.runaheadStatus
  runaheadChain : s'.runaheadChain = s.runaheadChain
  decodeInfo : s'.decodeInfo = s.decodeInfo
  instList : s'.cpu.instList = s.cpu.instList
  threadNumber : ∀ i, (s'.cpu.insts i).threadNumber = (s.cpu.insts i).threadNumber
  pcState : ∀ i, (s'.cpu.insts i).pcState = (s.cpu.insts i).pcState

theorem SameMode.kept (h : SameMode s s') (i : Nat) : s'.Kept i ↔ s.Kept i := by
  simp only [Kept, h.runaheadStatus, h.runaheadChain, h.threadNumber, h.pcState]

theorem ofQueue_single (tid u i : Nat) :
    RoundRobin.ofQueue u [(tid, i)] = if u = tid then [i] else [] := by
  by_cases h : u = tid
  · rw [h, if_pos rfl]
    exact RoundRobin.ofQueue_cons_self
  · rw [if_neg h]
    exact RoundRobin.ofQueue_cons_of_ne (Ne.symm h)

theorem popped_queue (hq : s.fetchQueue tid = i :: is) (u : Nat) :
    s.fetchQueue u = RoundRobin.ofQueue u [(tid, i)] ++ (s.popFront tid).fetchQueue u := by
  rw [ofQueue_single]
  by_cases hu : u = tid
  · subst hu
    simp only [popFront, Function.update_self, hq, if_true, List.tail_cons, List.singleton_append]
  · simp only [popFront, Function.update_of_ne hu, if_neg hu, List.nil_append]

/-- The instruction at the front of a queue is in one place after it has been taken. -/
theorem Inv.taken_perm (h : Inv s) (hq : s.fetchQueue tid = i :: is) :
    (s.sent tid ++ s.discarded tid ++ s.squashedOut tid ++ i :: is).Perm (s.fetched tid) := by
  rw [← hq]
  exact h.perm tid

/-- The rest of the queues after the front of one has been taken. -/
theorem Inv.popped (h : Inv s) (hq : s.fetchQueue tid = i :: is) :
    (∀ u, s.squashing u = true → (s.popFront tid).fetchQueue u = []) ∧
      ∀ u, ∀ j ∈ (s.popFront tid).fetchQueue u, j ∈ s.fetchQueue u ∧ j ≠ i := by
  have hpop : (s.popFront tid).fetchQueue tid = is := by simp [popFront, hq]
  have hother : ∀ u, u ≠ tid → (s.popFront tid).fetchQueue u = s.fetchQueue u := fun u hu =>
    Function.update_of_ne hu _ _
  have hi : i ∈ s.fetchQueue tid := by
    rw [hq]
    exact List.mem_cons_self
  refine ⟨fun u hu => ?_, fun u j hj => ?_⟩
  · have hempty := h.squashing u hu
    by_cases hut : u = tid
    · rw [hut, hq] at hempty
      cases hempty
    · exact (hother u hut).trans hempty
  · by_cases hut : u = tid
    · subst hut
      rw [hpop] at hj
      have hnodup := (List.nodup_append'.mp (h.parts_nodup u)).2.1
      rw [hq] at hnodup ⊢
      refine ⟨List.mem_cons_of_mem i hj, ?_⟩
      rintro rfl
      exact (List.nodup_cons.mp hnodup).1 hj
    · rw [hother u hut] at hj
      refine ⟨hj, ?_⟩
      rintro rfl
      have hthread := (h.fetched u j (h.queue_fetched hj)).2
      rw [(h.fetched tid j (h.queue_fetched hi)).2] at hthread
      exact hut hthread.symm

theorem Inv.send (h : Inv s) (hq : s.fetchQueue tid = i :: is) :
    Inv (({ s with
      toDecode := s.toDecode ++ [i]
      sent := Function.update s.sent tid (s.sent tid ++ [i]) } : FetchStage).popFront tid) := by
  obtain ⟨hempty, hrest⟩ := h.popped hq
  refine { h with squashing := hempty, listed := ?_, perm := ?_, order := ?_ }
  · exact fun u hu j hj => h.listed u hu j (hrest u j hj).1
  · intro u
    by_cases hut : u = tid
    · subst hut
      refine List.Perm.trans ?_ (h.taken_perm hq)
      simp only [popFront, Function.update_self, hq, List.tail_cons, List.append_assoc,
        List.singleton_append]
      refine List.Perm.append_left _ ?_
      rw [← List.append_assoc, ← List.append_assoc]
      exact List.perm_middle.symm
    · simpa only [popFront, Function.update_of_ne hut] using h.perm u
  · intro u
    by_cases hut : u = tid
    · subst hut
      have horder := h.order u
      simp only [popFront, Function.update_self, hq, List.tail_cons, List.append_assoc,
        List.singleton_append] at horder ⊢
      exact horder
    · simpa only [popFront, Function.update_of_ne hut] using h.order u

/-- What `removeInst` makes of the CPU's list. -/
theorem removeInst_eq {s : InstList} (hi : i ∈ s.instList) :
    s.removeInst i = some { s with
      insts := s.insts.modify i fun inst => inst.setSquashed.removeFromCPU
      removeList := s.removeList ++ [i]
      removeInstsThisCycle := true } := by
  rw [InstList.removeInst, if_pos hi, InstList.squashInstIt, if_pos rfl]
  rfl

theorem Inv.discard (h : Inv s) (hq : s.fetchQueue tid = i :: is) {cpu : InstList}
    (hcpu : s.cpu.removeInst i = some cpu)
    (hinsts : cpu.insts = s.cpu.insts.modify i fun inst => inst.setSquashed.removeFromCPU) :
    Inv (({ s with
      cpu := cpu
      discarded := Function.update s.discarded tid (s.discarded tid ++ [i]) } :
        FetchStage).popFront tid) := by
  obtain ⟨hempty, hrest⟩ := h.popped hq
  have hi : i ∈ s.fetchQueue tid := by
    rw [hq]
    exact List.mem_cons_self
  have hm := (InstList.removeInst_marked hcpu).1
  have hself : cpu.insts i = (s.cpu.insts i).setSquashed.removeFromCPU := by
    rw [hinsts, Insts.modify_self]
  have hkeep : ∀ j, j ≠ i → cpu.insts j = s.cpu.insts j := by
    intro j hj
    rw [hinsts, Insts.modify_of_ne hj]
  have hpopped : Inv (({ s with
      toDecode := s.toDecode ++ [i]
      sent := Function.update s.sent tid (s.sent tid ++ [i]) } : FetchStage).popFront tid) :=
    h.send hq
  have hmarks := hpopped.mark hm
    (by
      intro j hj
      obtain rfl := List.mem_singleton.mp hj
      exact (h.fetched tid j (h.queue_fetched hi)).1)
    (by
      intro j hj
      by_cases hji : j = i
      · rw [hji, hself]
        rfl
      · rwa [hkeep j hji])
    (fun u _ j hj => hkeep j (hrest u j hj).2)
  refine { hmarks with perm := ?_, order := ?_, marked := ?_ }
  · intro u
    by_cases hut : u = tid
    · subst hut
      refine List.Perm.trans ?_ (h.taken_perm hq)
      simp only [popFront, Function.update_self, hq, List.tail_cons, List.append_assoc,
        List.singleton_append]
      refine List.Perm.append_left _ (List.Perm.append_left _ ?_)
      exact List.perm_middle.symm
    · simpa only [popFront, Function.update_of_ne hut] using h.perm u
  · intro u
    by_cases hut : u = tid
    · subst hut
      have horder := h.order u
      simp only [popFront, Function.update_self, hq, List.tail_cons] at horder ⊢
      exact (List.Sublist.append_left (List.sublist_cons_self i is) _).trans horder
    · simpa only [popFront, Function.update_of_ne hut] using h.order u
  · intro u j hj
    have hj' : j ∈ s.discarded u ∨ j = i := by
      by_cases hut : u = tid
      · subst hut
        simpa [popFront] using hj
      · simp only [popFront, Function.update_of_ne hut] at hj
        exact .inl hj
    rcases hj' with hold | rfl
    · exact hmarks.marked u j hold
    · change (cpu.insts j).squashed = true ∧ (cpu.insts j).removePending = true
      rw [hself]
      exact ⟨rfl, rfl⟩

theorem Filtered.nil (s : FetchStage) : Filtered s [] s where
  queue _ := rfl
  thread x hx := nomatch hx
  toDecode := (List.append_nil _).symm
  sent _ := (List.append_nil _).symm
  discarded _ := (List.append_nil _).symm
  unmarked x hx := nomatch hx
  insts i := by simp
  removeList := (List.append_nil _).symm

theorem ofQueue_cons (x : Nat × Nat) (l : List (Nat × Nat)) (u : Nat) :
    RoundRobin.ofQueue u (x :: l) = RoundRobin.ofQueue u [x] ++ RoundRobin.ofQueue u l := by
  rw [← List.singleton_append, RoundRobin.ofQueue, List.filter_append, List.map_append]
  rfl

theorem Filtered.cons (h : Filtered s [x] s') (hmode : SameMode s s') (h' : Filtered s' l s'') :
    Filtered s (x :: l) s'' := by
  have hkept : ∀ l : List Nat, (l.filter fun i => s'.Kept i) = l.filter fun i => s.Kept i :=
    fun l => List.filter_congr fun i _ => by simp only [hmode.kept]
  have hnot : ∀ l : List Nat, (l.filter fun i => ¬s'.Kept i) = l.filter fun i => ¬s.Kept i :=
    fun l => List.filter_congr fun i _ => by simp only [hmode.kept]
  have hx : (x :: l).map Prod.snd = [x].map Prod.snd ++ l.map Prod.snd := rfl
  -- what is unmarked in `s'` is as it was in `s`
  have hsame : ∀ y ∈ l, s'.cpu.insts y.2 = s.cpu.insts y.2 := by
    intro y hy
    have hsquashed := (h'.unmarked y hy).2.2.1
    rw [h.insts] at hsquashed ⊢
    split at hsquashed
    · cases hsquashed
    · rename_i hnone
      rw [if_neg hnone]
  refine ⟨fun u => ?_, fun y hy => ?_, ?_, fun u => ?_, fun u => ?_, fun y hy => ?_,
    fun i => ?_, ?_⟩
  · rw [h.queue, h'.queue, ofQueue_cons x l, List.append_assoc]
  · rcases List.mem_cons.mp hy with rfl | hy
    · exact h.thread y List.mem_cons_self
    · rw [← hmode.threadNumber]
      exact h'.thread y hy
  · rw [h'.toDecode, h.toDecode, hx, List.filter_append, hkept, List.append_assoc]
  · rw [h'.sent, h.sent, ofQueue_cons x l, List.filter_append, hkept, List.append_assoc]
  · rw [h'.discarded, h.discarded, ofQueue_cons x l, List.filter_append, hnot, List.append_assoc]
  · rcases List.mem_cons.mp hy with rfl | hy
    · exact h.unmarked y List.mem_cons_self
    · obtain ⟨hlist, hremove, hflags⟩ := h'.unmarked y hy
      rw [hsame y hy] at hflags
      rw [hmode.instList] at hlist
      refine ⟨hlist, fun hmem => hremove ?_, hflags⟩
      rw [h.removeList]
      exact List.mem_append_left _ hmem
  · have hmem : i ∈ (x :: l).map Prod.snd ↔ i ∈ [x].map Prod.snd ∨ i ∈ l.map Prod.snd := by
      rw [hx, List.mem_append]
    rw [h'.insts, h.insts]
    simp only [hmode.kept, hmem]
    by_cases hkeep : s.Kept i
    · simp only [hkeep, not_true, and_false, if_false]
    · simp only [hkeep, not_false_iff, and_true]
      by_cases hl : i ∈ l.map Prod.snd
      · rw [if_pos hl, if_pos (Or.inr hl)]
        split <;> rfl
      · rw [if_neg hl]
        simp only [hl, or_false]
  · rw [h'.removeList, h.removeList, hx, List.filter_append, hnot, List.append_assoc]

theorem sendOne_spec (h : Inv s) (hq : s.fetchQueue tid = i :: is)
    (hinfo : s.decodeInfo tid = none) (hroom : s.toDecode.length < maxWidth) :
    ∃ s', s.sendOne (tid, i) = some s' ∧ Filtered s [(tid, i)] s' ∧ SameMode s s' ∧ Inv s' := by
  have hi : i ∈ s.fetchQueue tid := by
    rw [hq]
    exact List.mem_cons_self
  obtain ⟨hlist, hsquashed, hpending⟩ := h.listed tid hinfo i hi
  have hthread := (h.fetched tid i (h.queue_fetched hi)).2
  have hremove : i ∉ s.cpu.removeList := by
    intro hmem
    rw [(h.removed i hmem).2] at hpending
    cases hpending
  have hqueue := popped_queue hq
  by_cases hkept : s.Kept i
  · refine ⟨({ s with
      toDecode := s.toDecode ++ [i]
      sent := Function.update s.sent tid (s.sent tid ++ [i]) } : FetchStage).popFront tid,
      ?_, ?_, ⟨rfl, rfl, rfl, rfl, fun _ => rfl, fun _ => rfl⟩, h.send hq⟩
    · rw [sendOne, sendFront, if_pos ((kept_iff s i).mpr hkept), if_pos hroom]
      rfl
    · refine ⟨hqueue, ?_, ?_, fun u => ?_, fun u => ?_, ?_, fun j => ?_, ?_⟩
      · simpa using hthread
      · simp [popFront, hkept]
      · rw [ofQueue_single]
        by_cases hu : u = tid
        · subst hu
          simp [popFront, hkept]
        · simp [popFront, hu]
      · rw [ofQueue_single]
        by_cases hu : u = tid <;> simp [popFront, hu, hkept]
      · simpa using ⟨hlist, hremove, hsquashed, hpending⟩
      · have hnone : ¬(j ∈ [(tid, i)].map Prod.snd ∧ ¬s.Kept j) := by
          rintro ⟨hj, hnot⟩
          obtain rfl : j = i := by simpa using hj
          exact hnot hkept
        rw [if_neg hnone]
        rfl
      · simp [popFront, hkept]
  · have hcpu := removeInst_eq hlist
    refine ⟨_, ?_, ?_, ?_, h.discard hq hcpu rfl⟩
    · rw [sendOne, sendFront, if_neg (mt (kept_iff s i).mp hkept), hcpu]
      rfl
    · refine ⟨hqueue, ?_, ?_, fun u => ?_, fun u => ?_, ?_, fun j => ?_, ?_⟩
      · simpa using hthread
      · simp [popFront, hkept]
      · rw [ofQueue_single]
        by_cases hu : u = tid <;> simp [popFront, hu, hkept]
      · rw [ofQueue_single]
        by_cases hu : u = tid
        · subst hu
          simp [popFront, hkept]
        · simp [popFront, hu]
      · simpa using ⟨hlist, hremove, hsquashed, hpending⟩
      · by_cases hji : j = i
        · subst hji
          simp [popFront, hkept]
        · simp [popFront, hji, Insts.modify_of_ne]
      · simp [popFront, hkept]
    · refine ⟨rfl, rfl, rfl, rfl, fun j => ?_, fun j => ?_⟩ <;>
        simp only [popFront, Insts.modify_apply] <;> split <;> rfl

/-- What the loop takes is sent or discarded, one by one. -/
theorem foldlM_sendOne {q' : Nat → List Nat} : ∀ {s : FetchStage}, Inv s →
    (∀ u, s.fetchQueue u = RoundRobin.ofQueue u l ++ q' u) →
    (∀ x ∈ l, s.decodeInfo x.1 = none) → s.toDecode.length + l.length ≤ maxWidth →
    ∃ s', l.foldlM sendOne s = some s' ∧ Filtered s l s' ∧ Inv s' := by
  induction l with
  | nil => exact fun {s} h _ _ _ => ⟨s, rfl, Filtered.nil s, h⟩
  | cons x l ih =>
    intro s h hqueue hinfo hroom
    obtain ⟨tid, i⟩ := x
    rw [List.length_cons] at hroom
    have hq : s.fetchQueue tid = i :: (RoundRobin.ofQueue tid l ++ q' tid) := by
      rw [hqueue, RoundRobin.ofQueue_cons_self, List.cons_append]
    obtain ⟨t, hone, hfiltered, hmode, ht⟩ :=
      sendOne_spec h hq (hinfo (tid, i) List.mem_cons_self) (by omega)
    have hrest : ∀ u, t.fetchQueue u = RoundRobin.ofQueue u l ++ q' u := by
      intro u
      have hu := hfiltered.queue u
      rw [hqueue, ofQueue_cons, List.append_assoc] at hu
      exact (List.append_cancel_left hu).symm
    have hlength : t.toDecode.length ≤ s.toDecode.length + 1 := by
      rw [hfiltered.toDecode, List.length_append]
      have := List.length_filter_le (fun i => decide (s.Kept i)) ([(tid, i)].map Prod.snd)
      simp only [List.map_cons, List.map_nil, List.length_cons, List.length_nil] at this ⊢
      omega
    obtain ⟨s', hfold, hfiltered', hs'⟩ := ih ht hrest
      (fun x hx => by
        rw [hmode.decodeInfo]
        exact hinfo x (List.mem_cons_of_mem _ hx))
      (by omega)
    refine ⟨s', ?_, hfiltered.cons hmode hfiltered', hs'⟩
    rw [List.foldlM_cons, hone]
    exact hfold

end Send

section Tick

variable {cfg : FetchConfig} {s s' : FetchStage} {tid i start : Nat}

/-- A tick of any state of a run ends and sends what it should. -/
theorem Inv.sendInsts (h : Inv s) (hread : s.SignalsRead) (start : Nat) :
    ∃ l s', (∀ fuel, s.availableInsts * s.activeThreads.length < fuel →
        s.sendInsts cfg fuel start = some s') ∧
      Filtered s.newTick l s' ∧ (∀ x ∈ l, x.1 ∈ s.activeThreads ∧ s.stalls x.1 = false) ∧
      l.length = min s.availableInsts cfg.decodeWidth ∧ (l.map Prod.snd).Nodup ∧ Inv s' := by
  have hperm : (s.activeThreads.rotate start).Perm s.activeThreads := List.rotate_perm _ _
  have hnodup := hperm.nodup_iff.mpr h.active
  have havail : s.availableInsts = RoundRobin.available (fun tid => !s.stalls tid) s.fetchQueue
      (s.activeThreads.rotate start) := (RoundRobin.available_perm hperm).symm
  have hlength : (s.activeThreads.rotate start).length = s.activeThreads.length :=
    List.length_rotate ..
  obtain ⟨⟨l, q'⟩, hserve⟩ := @RoundRobin.serve_total _ _ _ _ _ _
    (s.availableInsts * s.activeThreads.length + 1) _ cfg.decodeWidth hnodup havail
    (by rw [hlength]; exact Nat.lt_succ_self _)
  obtain ⟨hqueue, hready, hcount⟩ := RoundRobin.serve_spec hnodup havail hserve
  have hactive : ∀ x ∈ l, x.1 ∈ s.activeThreads ∧ s.stalls x.1 = false := fun x hx =>
    ⟨hperm.mem_iff.mp (hready x hx).1, by simpa using (hready x hx).2⟩
  have hroom : s.newTick.toDecode.length + l.length ≤ maxWidth := by
    have hwidth := cfg.decodeWidth_le
    have hempty : s.newTick.toDecode.length = 0 := rfl
    omega
  obtain ⟨s', hfold, hfiltered, hs'⟩ := foldlM_sendOne h.newTick hqueue
    (fun x hx => hread x.1 (hactive x hx).1) hroom
  have hnodup : (l.map Prod.snd).Nodup := by
    refine RoundRobin.map_snd_nodup (f := fun i => (s.cpu.insts i).threadNumber)
      hfiltered.thread fun u => ?_
    have hparts := (List.nodup_append'.mp (h.parts_nodup u)).2.1
    rw [hqueue] at hparts
    exact (List.nodup_append'.mp hparts).1
  refine ⟨l, s', fun fuel hfuel => ?_, hfiltered, hactive, hcount, hnodup, hs'⟩
  have hmono : RoundRobin.serve (fun tid => !s.newTick.stalls tid) fuel
      (s.activeThreads.rotate start) s.availableInsts cfg.decodeWidth s.newTick.fetchQueue =
        some (l, q') := RoundRobin.serve_mono hfuel hserve
  rw [FetchStage.sendInsts, sendLoop_eq, Nat.sub_zero, hmono]
  exact hfold

theorem Inv.init (insts : Insts) : Inv { cpu := ⟨insts, [], [], false, 1⟩ } where
  active := List.nodup_nil
  instList := List.nodup_nil
  fresh _ hi := nomatch hi
  removed _ hi := nomatch hi
  fetched _ _ hi := nomatch hi
  squashing _ _ := rfl
  listed _ _ _ hi := nomatch hi
  nodup _ := List.nodup_nil
  perm _ := List.Perm.refl _
  order _ := List.Sublist.refl _
  marked _ _ hi := nomatch hi

theorem Inv.squash {robTail : Option Nat} (h : Inv (s.doSquash tid))
    (hs : s.squash tid robTail = some s') : Inv s' := by
  obtain ⟨cpu, hcpu, rfl⟩ := Option.map_eq_some_iff.mp hs
  have hempty : (s.doSquash tid).fetchQueue tid = [] := Function.update_self ..
  exact h.squashThread (InstList.removeInstsNotInROB_marked h.instList hcpu).1
    (h.marks_lt (marks_notInROB _ tid robTail)) (.removeInstsNotInROB hcpu) (.inl hempty)

theorem Inv.squashFromDecode {seqNum : Nat} (h : Inv (s.doSquash tid))
    (hs : s.squashFromDecode tid seqNum = some s') : Inv s' := by
  obtain ⟨cpu, hcpu, rfl⟩ := Option.map_eq_some_iff.mp hs
  have hempty : (s.doSquash tid).fetchQueue tid = [] := Function.update_self ..
  exact h.squashThread (InstList.removeInstsUntil_marked hcpu).1
    (h.marks_lt (marks_until _ seqNum tid)) (.removeInstsUntil hcpu) (.inl hempty)

theorem Inv.checkSignalsAndUpdate {sig : FetchSignals} (h : Inv s)
    (hs : s.checkSignalsAndUpdate tid sig = some s') : Inv s' := by
  unfold FetchStage.checkSignalsAndUpdate at hs
  simp only at hs
  split at hs
  · cases hs
  -- a squash empties the queue, whatever decode has said
  have hsquashed := h.emptied tid
    (Function.update s.stalls tid ((s.stalls tid || sig.decodeBlock) && !sig.decodeUnblock))
    (Function.update s.squashing tid true) (Function.update s.decodeInfo tid none)
    (fun u hu hnone => by rwa [Function.update_of_ne hu] at hnone)
    (fun u hu hsome => by rwa [Function.update_of_ne hu] at hsome)
  split at hs
  · exact Inv.squash hsquashed hs
  · exact Inv.squashFromDecode hsquashed hs
  · rename_i hcommit hdecode
    cases hs
    refine { h with squashing := fun u hu => ?_, listed := fun u hu i hi => ?_ }
    · by_cases hut : u = tid
      · subst hut
        simp [Function.update_self] at hu
      · simp only [Function.update_of_ne hut] at hu
        exact h.squashing u hu
    · by_cases hut : u = tid
      · subst hut
        cases hinfo : s.decodeInfo u with
        | none => exact h.listed u hinfo i hi
        | some seqNum =>
          cases hsq : s.squashing u with
          | true =>
            rw [h.squashing u hsq] at hi
            cases hi
          | false =>
            cases hsig : sig.commitSquash with
            | none => exact absurd hsq (hdecode seqNum hsig hinfo)
            | some robTail => exact absurd hsig (hcommit robTail)
      · simp only [Function.update_of_ne hut] at hu
        exact h.listed u hu i hi

/-- A new instruction is younger than all others, so nothing that is kept is about it. -/
theorem Inv.buildInst {inst : DynInst} (h : Inv s) (hsq : s.squashing tid = false)
    (hs : s.buildInst cfg tid inst = some s') : Inv s' := by
  unfold FetchStage.buildInst at hs
  simp only at hs
  split at hs
  swap
  · cases hs
  cases hs
  have hold : ∀ (new : DynInst) (j : Nat), j < s.cpu.globalSeqNum →
      (s.cpu.addInst s.cpu.globalSeqNum new).insts j = s.cpu.insts j := fun new j hj =>
    Function.update_of_ne (Nat.ne_of_lt hj) _ _
  have hnew : ∀ new : DynInst,
      (s.cpu.addInst s.cpu.globalSeqNum new).insts s.cpu.globalSeqNum = new := fun new =>
    Function.update_self ..
  have hlt : ∀ j, j < s.cpu.globalSeqNum → j < s.cpu.globalSeqNum + 1 := fun j hj => by omega
  have hout : s.cpu.globalSeqNum ∉ s.fetched tid := fun hmem =>
    Nat.lt_irrefl _ (h.fetched tid _ hmem).1
  refine { h with
    instList := ?_, fresh := ?_, removed := ?_, fetched := ?_, squashing := ?_, listed := ?_,
    nodup := ?_, perm := ?_, order := ?_, marked := ?_ }
  · refine List.nodup_append'.mpr ⟨h.instList, List.nodup_singleton _, ?_⟩
    intro j hj hj'
    rw [List.mem_singleton.mp hj'] at hj
    exact Nat.lt_irrefl _ (h.fresh _ hj)
  · intro j hj
    rcases List.mem_append.mp hj with hj | hj
    · exact hlt j (h.fresh j hj)
    · rw [List.mem_singleton.mp hj]
      exact Nat.lt_succ_self _
  · intro j hj
    obtain ⟨hjlt, hpending⟩ := h.removed j hj
    simp only [hold _ j hjlt]
    exact ⟨hlt j hjlt, hpending⟩
  · intro u j hj
    have hcase : j ∈ s.fetched u ∨ u = tid ∧ j = s.cpu.globalSeqNum := by
      by_cases hut : u = tid
      · subst hut
        simpa using hj
      · simp only [Function.update_of_ne hut] at hj
        exact .inl hj
    rcases hcase with hj | ⟨rfl, rfl⟩
    · obtain ⟨hjlt, hthread⟩ := h.fetched u j hj
      simp only [hold _ j hjlt]
      exact ⟨hlt j hjlt, hthread⟩
    · simp only [hnew]
      exact ⟨Nat.lt_succ_self _, trivial⟩
  · intro u hu
    have hut : u ≠ tid := by
      rintro rfl
      rw [hsq] at hu
      cases hu
    simp only [Function.update_of_ne hut]
    exact h.squashing u hu
  · intro u hu j hj
    have hcase : j ∈ s.fetchQueue u ∨ j = s.cpu.globalSeqNum := by
      by_cases hut : u = tid
      · subst hut
        simpa using hj
      · simp only [Function.update_of_ne hut] at hj
        exact .inl hj
    rcases hcase with hj | rfl
    · obtain ⟨hlist, hflags⟩ := h.listed u hu j hj
      simp only [hold _ j (h.fresh j hlist)]
      exact ⟨List.mem_append_left _ hlist, hflags⟩
    · simp only [hnew]
      exact ⟨List.mem_append_right _ List.mem_cons_self, trivial, trivial⟩
  · intro u
    by_cases hut : u = tid
    · subst hut
      simp only [Function.update_self]
      refine List.nodup_append'.mpr ⟨h.nodup u, List.nodup_singleton _, ?_⟩
      intro j hj hj'
      rw [List.mem_singleton.mp hj'] at hj
      exact hout hj
    · simpa only [Function.update_of_ne hut] using h.nodup u
  · intro u
    by_cases hut : u = tid
    · subst hut
      simp only [Function.update_self, ← List.append_assoc]
      exact (h.perm u).append_right _
    · simpa only [Function.update_of_ne hut] using h.perm u
  · intro u
    by_cases hut : u = tid
    · subst hut
      simp only [Function.update_self, ← List.append_assoc]
      exact (h.order u).append (List.Sublist.refl _)
    · simpa only [Function.update_of_ne hut] using h.order u
  · intro u j hj
    simp only [hold _ j (h.fetched u j (h.discarded_fetched hj)).1]
    exact h.marked u j hj

theorem Inv.endTick (h : Inv s) : Inv { s with cpu := s.cpu.endTick } := by
  unfold InstList.endTick
  split
  · have hmem : ∀ {i}, i ∈ s.cpu.cleanUpRemovedInsts.instList →
        i ∈ s.cpu.instList := fun hi => (List.mem_filter.mp hi).1
    refine { h with instList := h.instList.filter _, fresh := fun i hi => h.fresh i (hmem hi),
                    listed := fun u hu i hi => ?_ }
    obtain ⟨hlist, hsquashed, hpending⟩ := h.listed u hu i hi
    exact ⟨List.mem_filter.mpr ⟨hlist, by rw [hpending]; rfl⟩, hsquashed, hpending⟩
  · exact h

theorem Inv.removeFrontInst (h : Inv s) (hi : i ∈ s.sent tid) :
    Inv { s with cpu := s.cpu.removeFrontInst i } := by
  refine h.mark (InstList.removeFrontInst_marked s.cpu i) ?_ ?_ ?_
  · intro j hj
    rw [List.mem_singleton.mp hj]
    exact (h.fetched tid i (h.sent_fetched hi)).1
  · intro j hj
    simp only [InstList.removeFrontInst, Insts.modify_apply]
    split <;> exact hj
  · intro u _ j hj
    have hne : j ≠ i := by
      rintro rfl
      exact h.queue_not_sent hj tid hi
    exact Insts.modify_of_ne hne DynInst.removeFromCPU

theorem Inv.decodeSquash (h : Inv s) (hs : s.decodeSquash tid i = some s') : Inv s' := by
  obtain ⟨cpu, hcpu, rfl⟩ := Option.map_eq_some_iff.mp hs
  have hinfo : Inv { s with decodeInfo := Function.update s.decodeInfo tid (some i) } := by
    refine { h with listed := fun u hu j hj => h.listed u ?_ j hj }
    by_cases hut : u = tid
    · subst hut
      simp [Function.update_self] at hu
    · simpa only [Function.update_of_ne hut] using hu
  have hsome : Function.update s.decodeInfo tid (some i) tid ≠ none := by simp
  exact hinfo.squashThread (InstList.removeInstsUntil_marked hcpu).1
    (h.marks_lt (marks_until _ i tid)) (.removeInstsUntil hcpu) (.inr hsome)

theorem Inv.step {op : FetchOp} (h : Inv s) (hallowed : op.Allowed s)
    (hs : s.step cfg op = some s') : Inv s' := by
  cases op with
  | checkSignalsAndUpdate tid sig => exact h.checkSignalsAndUpdate hs
  | buildInst tid inst => exact h.buildInst hallowed hs
  | sendInsts start =>
    obtain ⟨_, t, hall, -, -, -, -, ht⟩ := @Inv.sendInsts cfg _ h hallowed start
    have heq := (hall _ (Nat.lt_succ_self _)).symm.trans hs
    cases heq
    exact ht
  | clearStates tid =>
    cases hs
    exact h.emptied tid _ _ s.decodeInfo (fun _ _ => id)
      (fun u hu hsome => by rwa [Function.update_of_ne hu] at hsome)
  | decodeSquash tid i => exact h.decodeSquash hs
  | removeFrontInst i =>
    cases hs
    obtain ⟨tid, hi⟩ := hallowed
    exact h.removeFrontInst hi
  | endTick =>
    cases hs
    exact h.endTick
  | inRunahead tid state =>
    cases hs
    exact { h with }
  | generateChain chain =>
    cases hs
    exact { h with }
  | setActive threads =>
    cases hs
    exact { h with active := hallowed }

end Tick

section Main

variable {cfg : FetchConfig} {s : FetchStage} {ops : List FetchOp}

theorem reaches_inv (h : (system cfg).Reaches ops s) : Inv s := by
  refine h.invariant ?_ fun s op s' hs hstep => hs.step hstep.1 hstep.2
  rintro s ⟨insts, rfl⟩
  exact Inv.init insts

/-- In every state of every run the fetched instructions are each in one place, and a tick that
starts there ends; it takes as many instructions as it may, from threads decode does not stall, and
sends those of the chain. -/
theorem keeps_chain (h : (system cfg).Reaches ops s) (hread : s.SignalsRead) (start : Nat) :
    Conserved s ∧ ∃ l s', (∀ fuel, s.availableInsts * s.activeThreads.length < fuel →
        s.sendInsts cfg fuel start = some s') ∧
      Filtered s.newTick l s' ∧ (∀ x ∈ l, x.1 ∈ s.activeThreads ∧ s.stalls x.1 = false) ∧
      l.length = min s.availableInsts cfg.decodeWidth ∧ (l.map Prod.snd).Nodup ∧
      Conserved s' := by
  have hinv := reaches_inv h
  obtain ⟨l, s', hall, hfiltered, hactive, hlength, hnodup, hinv'⟩ := hinv.sendInsts hread start
  exact ⟨hinv.conserved, l, s', hall, hfiltered, hactive, hlength, hnodup, hinv'.conserved⟩

/-! Two instructions are fetched in a period whose chain holds the first. -/

def eightWide : FetchConfig := ⟨8, 32, by decide⟩

def fetchTwo : List FetchOp :=
  [.setActive [0], .inRunahead 0 true, .generateChain [⟨0x40, 0⟩],
    .buildInst 0 { pcState := { instAddr := 0x40 } },
    .buildInst 0 { pcState := { instAddr := 0x44 } }]

theorem fetchTwo_reaches : ∃ s, (system eightWide).Reaches fetchTwo s ∧ s.SignalsRead ∧
    s.availableInsts * s.activeThreads.length < 3 ∧
    (s.sendInsts eightWide 3 0).map (fun s => (s.toDecode, s.discarded 0)) = some ([1], [2]) := by
  have hstart : (system eightWide).Reaches [] { cpu := ⟨fun _ => {}, [], [], false, 1⟩ } :=
    .start ⟨_, rfl⟩
  have hactive : (system eightWide).Reaches (fetchTwo.take 1) _ :=
    hstart.snoc ⟨List.nodup_singleton 0, rfl⟩
  have hmode : (system eightWide).Reaches (fetchTwo.take 2) _ := hactive.snoc ⟨trivial, rfl⟩
  have hchain : (system eightWide).Reaches (fetchTwo.take 3) _ := hmode.snoc ⟨trivial, rfl⟩
  have hfirst : (system eightWide).Reaches (fetchTwo.take 4) _ := hchain.snoc ⟨rfl, rfl⟩
  have hsecond : (system eightWide).Reaches (fetchTwo.take 5) _ := hfirst.snoc ⟨rfl, rfl⟩
  exact ⟨_, hsecond, fun _ _ => rfl, by decide +kernel, by decide +kernel⟩

theorem keeps_chain_fetchTwo : ∃ s, (system eightWide).Reaches fetchTwo s ∧ Conserved s ∧
    ∃ l s', s.sendInsts eightWide 3 0 = some s' ∧ Filtered s.newTick l s' ∧
      s'.toDecode = [1] ∧ s'.discarded 0 = [2] := by
  obtain ⟨s, hreaches, hread, hfuel, hsend⟩ := fetchTwo_reaches
  obtain ⟨hconserved, l, s', hall, hfiltered, -⟩ := keeps_chain hreaches hread 0
  have hthree := hall 3 hfuel
  rw [hthree, Option.map_some, Option.some.injEq, Prod.mk.injEq] at hsend
  exact ⟨s, hreaches, hconserved, l, s', hthree, hfiltered, hsend⟩

end Main

end FetchStage
end Runahead
end Gem5
