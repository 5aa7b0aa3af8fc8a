import Gem5Runahead.InstListWalk

/-!
# SquashCalls

Who calls the squash walks over the instruction list. Fetch calls `removeInstsNotInROB` on a squash
from commit. `removeInstsUntil` has two callers: decode, with the number of the branch that it finds
predicted wrong, and fetch, with the number that decode has sent it in the tick before. The delays
between the stages are the default of one cycle, so a squash of commit reaches fetch and decode in
the same tick, and fetch looks at commit's squash first.

A tick runs fetch, then decode, then the stages behind it, of which only the way to the ROB and out
of it is kept. What the stages do within a tick may come in any order and any number of times.

* `fetchCall`, `decodeCall` — the calls; `step` — the stages of a tick.
* `Inv` — what decode and the ROB hold is in the list; `step_inv` — every step keeps it.
* `walks_mark` — what the walks mark, and that every call is one that stops in the list.
-/

namespace Gem5
namespace Runahead

/-- The instructions of a thread on their way, and the squash signals that concern it. -/
structure ThreadInsts where
  fetchQueue : List Nat := []
  /-- `insts` and `skidBuffer` of decode. -/
  decodeInsts : List Nat := []
  /-- What decode has sent to rename in this tick. -/
  toRename : List Nat := []
  /-- Between decode and the ROB. -/
  renamed : List Nat := []
  rob : List Nat := []
  /-- `fetchStatus` is `Squashing`. -/
  squashing : Bool := false
  /-- `decodeInfo` and `commitInfo` of the tick before: `doneSeqNum`, if decode squashes, and
  whether commit does. -/
  fromDecode : Option Nat := none
  fromCommit : Bool := false
  /-- The same of this tick. -/
  toFetch : Option Nat := none
  commitSquash : Bool := false

inductive TickPhase where
  | fetch | decode | commit
deriving DecidableEq

/-- All threads, with the CPU's list. -/
structure InFlight where
  cpu : InstList
  phase : TickPhase := .fetch
  threads : Nat → ThreadInsts := fun _ => {}

inductive InFlightOp where
  | checkSignalsAndUpdate (tid : Nat)
  | buildInst (tid : Nat) (inst : DynInst)
  | sendToDecode (tid : Nat)
  /-- The instruction is not in the runahead chain. -/
  | discardInst (tid : Nat)
  | decodeTick
  /-- Decode reads a squash of commit. -/
  | decodeSquash (tid : Nat)
  | decodeInst (tid : Nat) (mispredicted : Bool)
  | commitTick
  | insertInst (tid : Nat)
  /-- An instruction on its way to the ROB is squashed. -/
  | dropInst (tid : Nat)
  | retireHead (tid : Nat)
  | commitSquash (tid : Nat)
  | endTick

namespace InFlight

section Code

/-- The call that fetch makes when it checks the signals of a thread. -/
def fetchCall (t : ThreadInsts) (tid : Nat) : Option InstList.Op :=
  if t.fromCommit then some (.removeInstsNotInROB tid t.rob.getLast?)
  else match t.fromDecode, t.squashing with
  | some seqNum, false => some (.removeInstsUntil seqNum tid)
  | _, _ => none

/-- The call that decode makes for the next instruction, if that is not squashed. -/
def decodeCall (insts : Insts) (t : ThreadInsts) (tid : Nat) : Option InstList.Op :=
  match t.decodeInsts with
  | [] => none
  | i :: _ => if (insts i).squashed then none else some (.removeInstsUntil i tid)

def setThread (s : InFlight) (tid : Nat) (t : ThreadInsts) : InFlight :=
  { s with threads := Function.update s.threads tid t }

def checkSignalsAndUpdate (s : InFlight) (tid : Nat) : Option InFlight :=
  let t := s.threads tid
  match fetchCall t tid with
  | some call => (s.cpu.step call).map fun cpu =>
    { s with cpu }.setThread tid { t with squashing := true, fetchQueue := [] }
  | none => some (s.setThread tid { t with squashing := false })

def buildInst (s : InFlight) (tid : Nat) (inst : DynInst) : InFlight :=
  let t := s.threads tid
  let i := s.cpu.globalSeqNum
  { s with
    cpu := s.cpu.addInst i { inst with
      threadNumber := tid, squashed := false, removePending := false } }.setThread tid
    { t with fetchQueue := t.fetchQueue ++ [i] }

def sendToDecode (s : InFlight) (tid : Nat) : Option InFlight :=
  let t := s.threads tid
  match t.fetchQueue with
  | [] => none
  | i :: rest => some (s.setThread tid
    { t with fetchQueue := rest, decodeInsts := t.decodeInsts ++ [i] })

def discardInst (s : InFlight) (tid : Nat) : Option InFlight :=
  let t := s.threads tid
  match t.fetchQueue with
  | [] => none
  | i :: rest => (s.cpu.removeInst i).map fun cpu =>
    { s with cpu }.setThread tid { t with fetchQueue := rest }

/-- A branch that was predicted wrong is sent on to rename, and what is behind it is squashed. -/
def decodeInst (s : InFlight) (tid : Nat) (mispredicted : Bool) : Option InFlight :=
  let t := s.threads tid
  match t.decodeInsts, decodeCall s.cpu.insts t tid with
  | [], _ => none
  | _ :: rest, none => some (s.setThread tid { t with decodeInsts := rest })
  | i :: rest, some call =>
    if mispredicted then (s.cpu.step call).map fun cpu =>
      { s with cpu }.setThread tid
        { t with decodeInsts := [], toRename := t.toRename ++ [i], toFetch := some i }
    else some (s.setThread tid { t with decodeInsts := rest, toRename := t.toRename ++ [i] })

def insertInst (s : InFlight) (tid : Nat) : Option InFlight :=
  let t := s.threads tid
  match t.renamed with
  | [] => none
  | i :: rest =>
    if (s.cpu.insts i).squashed then none
    else some (s.setThread tid { t with renamed := rest, rob := t.rob ++ [i] })

def retireHead (s : InFlight) (tid : Nat) : Option InFlight :=
  let t := s.threads tid
  match t.rob with
  | [] => none
  | head :: rest =>
    some ({ s with cpu := s.cpu.removeFrontInst head }.setThread tid { t with rob := rest })

/-- The time buffers advance, and the list is cleaned up. -/
def endTick (s : InFlight) : InFlight where
  cpu := s.cpu.endTick
  phase := .fetch
  threads := fun tid =>
    let t := s.threads tid
    { t with
      renamed := t.renamed ++ t.toRename, toRename := []
      fromDecode := t.toFetch, toFetch := none
      fromCommit := t.commitSquash, commitSquash := false }

def step (s : InFlight) : InFlightOp → Option InFlight
  | .checkSignalsAndUpdate tid => s.checkSignalsAndUpdate tid
  | .buildInst tid inst => some (s.buildInst tid inst)
  | .sendToDecode tid => s.sendToDecode tid
  | .discardInst tid => s.discardInst tid
  | .decodeTick => some { s with phase := .decode }
  | .decodeSquash tid => some (s.setThread tid { s.threads tid with decodeInsts := [] })
  | .decodeInst tid mispredicted => s.decodeInst tid mispredicted
  | .commitTick => some { s with phase := .commit }
  | .insertInst tid => s.insertInst tid
  | .dropInst tid =>
    some (s.setThread tid { s.threads tid with renamed := (s.threads tid).renamed.tail })
  | .retireHead tid => s.retireHead tid
  | .commitSquash tid => some (s.setThread tid { s.threads tid with commitSquash := true })
  | .endTick => some s.endTick

/-- The call of a squash walk that an operation makes. -/
def call (s : InFlight) : InFlightOp → Option InstList.Op
  | .checkSignalsAndUpdate tid => fetchCall (s.threads tid) tid
  | .decodeInst tid true => decodeCall s.cpu.insts (s.threads tid) tid
  | _ => none

end Code

end InFlight

/-- Each stage does its work in its phase, and decode sends nothing on when commit squashes. -/
def InFlightOp.Allowed (s : InFlight) : InFlightOp → Prop
  | .checkSignalsAndUpdate _ | .buildInst _ _ | .sendToDecode _ | .discardInst _ | .decodeTick =>
    s.phase = .fetch
  | .decodeSquash tid => s.phase = .decode ∧ (s.threads tid).fromCommit = true
  | .decodeInst tid _ => s.phase = .decode ∧ (s.threads tid).fromCommit = false
  | .commitTick => s.phase = .decode
  | _ => s.phase = .commit

namespace InFlight

def system : Transition.System InFlight InFlightOp where
  init s := ∃ insts, s = { cpu := ⟨insts, [], [], false, 1⟩ }
  step s op s' := op.Allowed s ∧ s.step op = some s'

section Invariant

variable {cpu cpu' : InstList} {t : ThreadInsts} {tid tid' : Nat} {phase : TickPhase} {l : List Nat}
  {i : Nat}

/-- The instruction is in the list and will not be erased at the end of the tick. -/
def Listed (cpu : InstList) (i : Nat) : Prop :=
  i ∈ cpu.instList ∧ (cpu.insts i).removePending = false

/-- From the oldest instruction of a thread to the youngest. -/
def line (t : ThreadInsts) : List Nat :=
  t.rob ++ t.renamed ++ t.toRename ++ t.decodeInsts ++ t.fetchQueue

structure ThreadInv (cpu : InstList) (phase : TickPhase) (tid : Nat) (t : ThreadInsts) : Prop where
  sorted : (line t).Pairwise (· < ·)
  lt : ∀ i ∈ line t, i < cpu.globalSeqNum
  thread : ∀ i ∈ line t, (cpu.insts i).threadNumber = tid
  rob : ∀ i ∈ t.rob, Listed cpu i
  live : ∀ i ∈ line t, (cpu.insts i).squashed = false → Listed cpu i
  /-- The branch that decode has squashed for is on its way to rename. -/
  sent : ∀ i ∈ t.toFetch, phase ≠ .fetch ∧ i ∈ t.toRename ∧ Listed cpu i
  /-- Fetch reads its number before the end of the next tick. -/
  received : ∀ i ∈ t.fromDecode, phase = .fetch → i ∈ cpu.instList ∧ ∀ j ∈ t.rob, j < i

structure Inv (s : InFlight) : Prop where
  sorted : s.cpu.instList.Pairwise (· < ·)
  lt : ∀ i ∈ s.cpu.instList, i < s.cpu.globalSeqNum
  threads : ∀ tid, ThreadInv s.cpu s.phase tid (s.threads tid)

theorem Listed.squashes (h : Listed cpu i) (hs : InstList.Squashes cpu l cpu') (hi : i ∉ l) :
    Listed cpu' i := by
  refine ⟨hs.instList ▸ h.1, ?_⟩
  rw [hs.insts, if_neg hi]
  exact h.2

/-- A squash of instructions that are neither in the ROB nor the branch that decode has squashed
for. -/
theorem ThreadInv.squashes (h : ThreadInv cpu phase tid t) (hs : InstList.Squashes cpu l cpu')
    (hrob : ∀ i ∈ t.rob, i ∉ l) (hsent : ∀ i ∈ t.toFetch, i ∉ l) :
    ThreadInv cpu' phase tid t where
  sorted := h.sorted
  lt := hs.globalSeqNum ▸ h.lt
  thread i hi := (hs.threadNumber i).trans (h.thread i hi)
  rob i hi := (h.rob i hi).squashes hs (hrob i hi)
  live i hi hlive := by
    by_cases hl : i ∈ l
    · rw [hs.insts, if_pos hl] at hlive
      cases hlive
    · rw [hs.insts, if_neg hl] at hlive
      exact (h.live i hi hlive).squashes hs hl
  sent i hi := by
    obtain ⟨hphase, hmem, hlisted⟩ := h.sent i hi
    exact ⟨hphase, hmem, hlisted.squashes hs (hsent i hi)⟩
  received i hi hphase := hs.instList ▸ h.received i hi hphase

/-- A squash in another thread. -/
theorem ThreadInv.squashes_other (h : ThreadInv cpu phase tid t)
    (hs : InstList.Squashes cpu (cpu.ofThread tid' l) cpu') (hne : tid ≠ tid') :
    ThreadInv cpu' phase tid t := by
  have hother : ∀ i ∈ line t, i ∉ cpu.ofThread tid' l := fun i hi hmem =>
    hne ((h.thread i hi).symm.trans (InstList.mem_ofThread.mp hmem).2)
  refine h.squashes hs (fun i hi => hother i ?_) fun i hi => hother i ?_
  · simp [line, hi]
  · simp [line, (h.sent i hi).2.1]

/-- The list grows, and nothing happens to the instructions of the thread. -/
theorem ThreadInv.frame (h : ThreadInv cpu phase tid t)
    (hinsts : ∀ i ∈ line t, cpu'.insts i = cpu.insts i) (hlist : cpu.instList ⊆ cpu'.instList)
    (hnext : cpu.globalSeqNum ≤ cpu'.globalSeqNum) : ThreadInv cpu' phase tid t := by
  have hlisted : ∀ i ∈ line t, Listed cpu i → Listed cpu' i := fun i hi hl =>
    ⟨hlist hl.1, by rw [hinsts i hi]; exact hl.2⟩
  constructor
  case sorted => exact h.sorted
  case lt => exact fun i hi => Nat.lt_of_lt_of_le (h.lt i hi) hnext
  case thread => exact fun i hi => by rw [hinsts i hi]; exact h.thread i hi
  case rob => exact fun i hi => hlisted i (by simp [line, hi]) (h.rob i hi)
  case live =>
    intro i hi hlive
    rw [hinsts i hi] at hlive
    exact hlisted i hi (h.live i hi hlive)
  case sent =>
    intro i hi
    obtain ⟨hphase, hmem, hl⟩ := h.sent i hi
    exact ⟨hphase, hmem, hlisted i (by simp [line, hmem]) hl⟩
  case received =>
    intro i hi hphase
    obtain ⟨hmem, hlt⟩ := h.received i hi hphase
    exact ⟨hlist hmem, hlt⟩

/-- Instructions of the thread move on or are dropped; the wires are as they were. -/
theorem ThreadInv.move {t' : ThreadInsts} (h : ThreadInv cpu phase tid t)
    (hline : (line t').Sublist (line t)) (hrob : ∀ i ∈ t'.rob, i ∈ t.rob ∨ Listed cpu i)
    (hren : t.toRename ⊆ t'.toRename) (hsent : t'.toFetch = t.toFetch)
    (hreceived : ∀ i ∈ t'.fromDecode, phase = .fetch →
      t'.fromDecode = t.fromDecode ∧ t'.rob = t.rob) :
    ThreadInv cpu phase tid t' where
  sorted := h.sorted.sublist hline
  lt i hi := h.lt i (hline.subset hi)
  thread i hi := h.thread i (hline.subset hi)
  rob i hi := (hrob i hi).elim (h.rob i) id
  live i hi := h.live i (hline.subset hi)
  sent i hi := by
    obtain ⟨hphase, hmem, hl⟩ := h.sent i (hsent ▸ hi)
    exact ⟨hphase, hren hmem, hl⟩
  received i hi hphase := by
    obtain ⟨hsame, hrob⟩ := hreceived i hi hphase
    rw [hrob]
    exact h.received i (hsame ▸ hi) hphase

end Invariant

section Calls

variable {s s' : InFlight} {t : ThreadInsts} {tid i : Nat} {call : InstList.Op} {l : List Nat}

/-- The walk stays inside the list and marks the right instructions of the thread. -/
def CallRight (cpu : InstList) : InstList.Op → Prop
  | .removeInstsNotInROB tid robTail => ∃ cpu', cpu.removeInstsNotInROB tid robTail = some cpu' ∧
      InstList.MarksThread cpu tid (fun i => robTail.all (· < i)) cpu'
  | .removeInstsUntil seqNum tid => seqNum ∈ cpu.instList ∧
      ∃ cpu', cpu.removeInstsUntil seqNum tid = some cpu' ∧
        InstList.MarksThread cpu tid (seqNum < ·) cpu'
  | _ => False

theorem fetchCall_right (h : Inv s) (hphase : s.phase = .fetch)
    (hcall : fetchCall (s.threads tid) tid = some call) :
    CallRight s.cpu call ∧ ∃ p cpu', s.cpu.step call = some cpu' ∧
      InstList.MarksThread s.cpu tid p cpu' ∧ ∀ i ∈ (s.threads tid).rob, p i = false := by
  have ht := h.threads tid
  have hsorted : (s.threads tid).rob.Pairwise (· < ·) := ht.sorted.sublist (by simp [line])
  unfold fetchCall at hcall
  split at hcall
  · cases hcall
    have htail : ∀ tail ∈ (s.threads tid).rob.getLast?, tail ∈ s.cpu.instList := fun tail htail =>
      (ht.rob tail (List.mem_of_getLast? htail)).1
    obtain ⟨cpu', hcpu, hmarks⟩ :=
      InstList.removeInstsNotInROB_marks tid h.sorted htail
    refine ⟨⟨cpu', hcpu, hmarks⟩, _, cpu', hcpu, hmarks, fun i hi => ?_⟩
    cases hlast : (s.threads tid).rob.getLast? with
    | none => exact absurd (List.getLast?_eq_none_iff.mp hlast) (List.ne_nil_of_mem hi)
    | some tail =>
      obtain ⟨l, hl⟩ := List.getLast?_eq_some_iff.mp hlast
      rw [hl] at hi hsorted
      rw [Option.all_some, decide_eq_false_iff_not, not_lt]
      rcases List.mem_append.mp hi with hi | hi
      · exact Nat.le_of_lt ((List.pairwise_append.mp hsorted).2.2 i hi tail (by simp))
      · exact Nat.le_of_eq (List.mem_singleton.mp hi)
  · split at hcall
    · rename_i seqNum hdecode _
      cases hcall
      obtain ⟨hmem, hlt⟩ := ht.received seqNum hdecode hphase
      obtain ⟨cpu', hcpu, hmarks⟩ :=
        InstList.removeInstsUntil_marks tid h.sorted hmem (Nat.le_refl _)
      refine ⟨⟨hmem, cpu', hcpu, hmarks⟩, _, cpu', hcpu, hmarks, fun i hi => ?_⟩
      have := hlt i hi
      simp only [decide_eq_false_iff_not]
      omega
    · cases hcall

theorem decodeCall_right (h : Inv s)
    (hcall : decodeCall s.cpu.insts (s.threads tid) tid = some call) :
    CallRight s.cpu call ∧ ∃ i rest cpu', (s.threads tid).decodeInsts = i :: rest ∧
      Listed s.cpu i ∧ s.cpu.step call = some cpu' ∧
        InstList.MarksThread s.cpu tid (i < ·) cpu' := by
  unfold decodeCall at hcall
  split at hcall
  · cases hcall
  · rename_i i rest hinsts
    split at hcall
    · cases hcall
    · rename_i hlive
      cases hcall
      have hlisted : Listed s.cpu i :=
        (h.threads tid).live i (by simp [line, hinsts]) (by simpa using hlive)
      obtain ⟨cpu', hcpu, hmarks⟩ :=
        InstList.removeInstsUntil_marks tid h.sorted hlisted.1 (Nat.le_refl _)
      exact ⟨⟨hlisted.1, cpu', hcpu, hmarks⟩, i, rest, cpu', hinsts, hlisted, hcpu, hmarks⟩

/-- Every call that is made in a state with the invariant is right. -/
theorem call_right {op : InFlightOp} (h : Inv s) (hallowed : op.Allowed s)
    (hcall : s.call op = some call) : CallRight s.cpu call := by
  cases op with
  | checkSignalsAndUpdate tid => exact (fetchCall_right h hallowed hcall).1
  | decodeInst tid mispredicted =>
    cases mispredicted with
    | true => exact (decodeCall_right h hcall).1
    | false => cases hcall
  | _ => cases hcall

end Calls

section Steps

variable {s s' : InFlight} {cpu' : InstList} {t : ThreadInsts} {tid i : Nat} {phase : TickPhase}
  {p : Nat → Bool} {rest : List Nat}

theorem Inv.setThread (h : Inv s) (ht : ThreadInv s.cpu s.phase tid t) :
    Inv (s.setThread tid t) := by
  refine ⟨h.sorted, h.lt, fun tid' => ?_⟩
  by_cases heq : tid' = tid
  · subst heq
    simpa [InFlight.setThread] using ht
  · simpa [InFlight.setThread, Function.update_of_ne heq] using h.threads tid'

/-- A thread is squashed, and what the stages hold of it changes. -/
theorem Inv.squashes {l : List Nat} (h : Inv s)
    (hs : InstList.Squashes s.cpu (s.cpu.ofThread tid l) cpu')
    (ht : ThreadInv cpu' s.phase tid t) : Inv ({ s with cpu := cpu' }.setThread tid t) := by
  refine ⟨?_, ?_, fun tid' => ?_⟩
  · show cpu'.instList.Pairwise (· < ·)
    rw [hs.instList]
    exact h.sorted
  · show ∀ i ∈ cpu'.instList, i < cpu'.globalSeqNum
    rw [hs.instList, hs.globalSeqNum]
    exact h.lt
  · by_cases heq : tid' = tid
    · subst heq
      simpa [InFlight.setThread] using ht
    · simpa [InFlight.setThread, Function.update_of_ne heq] using
        (h.threads tid').squashes_other hs heq

theorem ThreadInv.setPhase {cpu : InstList} {phase' : TickPhase} (h : ThreadInv cpu phase tid t)
    (hphase : phase' ≠ .fetch) : ThreadInv cpu phase' tid t :=
  { h with
    sent := fun i hi => ⟨hphase, (h.sent i hi).2⟩
    received := fun _ _ hfetch => absurd hfetch hphase }

/-- The thread's instructions before the one at the front of decode's queue. -/
theorem ThreadInv.before_decode {cpu : InstList} (h : ThreadInv cpu phase tid t)
    (hinsts : t.decodeInsts = i :: rest) : ∀ j ∈ t.rob ++ t.renamed ++ t.toRename, j < i := by
  intro j hj
  have hsorted : (t.rob ++ t.renamed ++ t.toRename ++ t.decodeInsts).Pairwise (· < ·) :=
    h.sorted.sublist (List.sublist_append_left _ _)
  exact (List.pairwise_append.mp hsorted).2.2 j hj i (by simp [hinsts])

/-- A new instruction is put in the fetch queue. -/
theorem ThreadInv.append {cpu : InstList} (h : ThreadInv cpu phase tid t)
    (hafter : ∀ j ∈ line t, j < i) (hlt : i < cpu.globalSeqNum)
    (hthread : (cpu.insts i).threadNumber = tid) (hlisted : Listed cpu i) :
    ThreadInv cpu phase tid { t with fetchQueue := t.fetchQueue ++ [i] } := by
  have hline : line { t with fetchQueue := t.fetchQueue ++ [i] } = line t ++ [i] := by simp [line]
  have hcases : ∀ j ∈ line { t with fetchQueue := t.fetchQueue ++ [i] }, j ∈ line t ∨ j = i := by
    simp [hline]
  constructor
  case sorted =>
    rw [hline]
    exact List.pairwise_append.mpr ⟨h.sorted, List.pairwise_singleton _ _, by simpa using hafter⟩
  case lt => exact fun j hj => (hcases j hj).elim (h.lt j) fun heq => heq ▸ hlt
  case thread => exact fun j hj => (hcases j hj).elim (h.thread j) fun heq => heq ▸ hthread
  case rob => exact h.rob
  case live =>
    exact fun j hj hlive => (hcases j hj).elim (h.live j · hlive) fun heq => heq ▸ hlisted
  case sent => exact h.sent
  case received => exact h.received

theorem Inv.checkSignalsAndUpdate (h : Inv s) (hphase : s.phase = .fetch)
    (hst : s.checkSignalsAndUpdate tid = some s') : Inv s' := by
  unfold InFlight.checkSignalsAndUpdate at hst
  have ht := h.threads tid
  dsimp only at hst
  split at hst
  · rename_i call hcall
    obtain ⟨-, p, cpu', hcpu, hmarks, hrob⟩ := fetchCall_right h hphase hcall
    rw [hcpu, Option.map_some] at hst
    cases hst
    refine h.squashes hmarks.squashes ((ht.squashes hmarks.squashes (fun i hi hmem => ?_)
      fun i hi => absurd hphase (ht.sent i hi).1).move ?_ (fun i => .inl) (fun i => id) rfl
        fun _ _ _ => ⟨rfl, rfl⟩)
    · have hp := (List.mem_filter.mp (InstList.mem_ofThread.mp hmem).1).2
      rw [hrob i hi] at hp
      cases hp
    · simp [line]
  · cases hst
    exact h.setThread (ht.move (.refl _) (fun i => .inl) (fun i => id) rfl fun _ _ _ => ⟨rfl, rfl⟩)

theorem Inv.buildInst (h : Inv s) (inst : DynInst) : Inv (s.buildInst tid inst) := by
  have hnext : s.cpu.globalSeqNum ≤ s.cpu.globalSeqNum + 1 := Nat.le_succ _
  have hframe : ∀ inst' : DynInst, ∀ tid', ThreadInv (s.cpu.addInst s.cpu.globalSeqNum inst')
      s.phase tid' (s.threads tid') := fun inst' tid' =>
    (h.threads tid').frame (fun i hi =>
      Function.update_of_ne (Nat.ne_of_lt ((h.threads tid').lt i hi)) _ _)
      (List.subset_append_left _ _) hnext
  refine ⟨?_, ?_, fun tid' => ?_⟩
  · refine List.pairwise_append.mpr ⟨h.sorted, List.pairwise_singleton _ _, fun i hi j hj => ?_⟩
    rw [List.mem_singleton.mp hj]
    exact h.lt i hi
  · intro i hi
    rcases List.mem_append.mp hi with hi | hi
    · exact Nat.lt_succ_of_lt (h.lt i hi)
    · rw [List.mem_singleton.mp hi]
      exact Nat.lt_succ_self _
  · by_cases heq : tid' = tid
    · subst heq
      have hnew := (hframe { inst with
        threadNumber := tid', squashed := false, removePending := false } tid').append
          (i := s.cpu.globalSeqNum) (h.threads tid').lt (Nat.lt_succ_self _)
          (by simp [InstList.addInst]) ⟨by simp [InstList.addInst], by simp [InstList.addInst]⟩
      simpa [InFlight.buildInst, InFlight.setThread] using hnew
    · simpa [InFlight.buildInst, InFlight.setThread, Function.update_of_ne heq] using hframe _ tid'

theorem Inv.sendToDecode (h : Inv s) (hst : s.sendToDecode tid = some s') : Inv s' := by
  simp only [InFlight.sendToDecode] at hst
  split at hst
  · cases hst
  · rename_i i rest hqueue
    cases hst
    exact h.setThread ((h.threads tid).move (by simp [line, hqueue]) (fun i => .inl) (fun i => id)
      rfl fun _ _ _ => ⟨rfl, rfl⟩)

theorem Inv.discardInst (h : Inv s) (hphase : s.phase = .fetch)
    (hst : s.discardInst tid = some s') : Inv s' := by
  have ht := h.threads tid
  simp only [InFlight.discardInst] at hst
  split at hst
  · cases hst
  · rename_i i rest hqueue
    obtain ⟨cpu', hcpu, hst⟩ := Option.map_eq_some_iff.mp hst
    cases hst
    have hthread : (s.cpu.insts i).threadNumber = tid := ht.thread i (by simp [line, hqueue])
    have hsquashes : InstList.Squashes s.cpu (s.cpu.ofThread tid [i]) cpu' := by
      simp only [InstList.removeInst] at hcpu
      split at hcpu
      · cases hcpu
        rw [hthread]
        simpa using (InstList.squashInstIt_squashes s.cpu i tid).trans (.setRemoving _)
      · cases hcpu
    refine h.squashes hsquashes ((ht.squashes hsquashes (fun j hj hmem => ?_)
      fun i hi => absurd hphase (ht.sent i hi).1).move ?_ (fun i => .inl) (fun i => id) rfl
        fun _ _ _ => ⟨rfl, rfl⟩)
    · obtain rfl := List.mem_singleton.mp (InstList.mem_ofThread.mp hmem).1
      have hlt := (List.pairwise_append.mp ht.sorted).2.2 j (by simp [hj]) j (by simp [hqueue])
      exact Nat.lt_irrefl j hlt
    · simp [line, hqueue]

theorem Inv.decodeInst {mispredicted : Bool} (h : Inv s) (hphase : s.phase = .decode)
    (hst : s.decodeInst tid mispredicted = some s') : Inv s' := by
  have ht := h.threads tid
  simp only [InFlight.decodeInst] at hst
  split at hst
  · cases hst
  · rename_i i rest hinsts _
    cases hst
    exact h.setThread (ht.move (by simp [line, hinsts]) (fun i => .inl) (fun i => id) rfl
      fun _ _ _ => ⟨rfl, rfl⟩)
  · rename_i i rest call hinsts hcall
    obtain ⟨-, i', rest', cpu', hinsts', hlisted, hcpu, hmarks⟩ := decodeCall_right h hcall
    obtain ⟨rfl, rfl⟩ := List.cons.inj (hinsts'.symm.trans hinsts)
    split at hst
    · rw [hcpu, Option.map_some] at hst
      cases hst
      have hbefore := ht.before_decode hinsts
      have hspared : ∀ j, j ≤ i' → j ∉ s.cpu.ofThread tid (s.cpu.instList.filter (i' < ·)) :=
        fun j hle hmem => by
          have hlt := (List.mem_filter.mp (InstList.mem_ofThread.mp hmem).1).2
          simp only [decide_eq_true_eq] at hlt
          omega
      have hold := ht.squashes hmarks.squashes
        (fun j hj => hspared j (Nat.le_of_lt (hbefore j (by simp [hj]))))
        fun j hj => hspared j (Nat.le_of_lt (hbefore j (by simp [(ht.sent j hj).2.1])))
      have hline : (line { s.threads tid with
          decodeInsts := []
          toRename := (s.threads tid).toRename ++ [i']
          toFetch := some i' }).Sublist (line (s.threads tid)) := by simp [line, hinsts]
      refine h.squashes hmarks.squashes ⟨hold.sorted.sublist hline,
        fun j hj => hold.lt j (hline.subset hj), fun j hj => hold.thread j (hline.subset hj),
        hold.rob, fun j hj => hold.live j (hline.subset hj), fun j hj => ?_, hold.received⟩
      obtain rfl := Option.some.inj hj
      exact ⟨by simp [hphase], by simp,
        hlisted.squashes hmarks.squashes (hspared _ (Nat.le_refl _))⟩
    · cases hst
      exact h.setThread (ht.move (by simp [line, hinsts]) (fun i => .inl)
        (List.subset_append_left _ _) rfl fun _ _ _ => ⟨rfl, rfl⟩)

theorem Inv.insertInst (h : Inv s) (hphase : s.phase = .commit)
    (hst : s.insertInst tid = some s') : Inv s' := by
  have ht := h.threads tid
  simp only [InFlight.insertInst] at hst
  split at hst
  · cases hst
  · rename_i i rest hrenamed
    split at hst
    · cases hst
    · rename_i hlive
      cases hst
      have hlisted := ht.live i (by simp [line, hrenamed]) (by simpa using hlive)
      refine h.setThread (ht.move (by simp [line, hrenamed]) (fun j hj => ?_) (fun i => id) rfl
        fun _ _ hfetch => by rw [hphase] at hfetch; cases hfetch)
      rcases List.mem_append.mp hj with hj | hj
      · exact .inl hj
      · exact .inr (List.mem_singleton.mp hj ▸ hlisted)

theorem Inv.retireHead (h : Inv s) (hphase : s.phase = .commit)
    (hst : s.retireHead tid = some s') : Inv s' := by
  have ht := h.threads tid
  simp only [InFlight.retireHead] at hst
  split at hst
  · cases hst
  · rename_i head rest hrob
    cases hst
    have hmem : head ∈ line (s.threads tid) := by simp [line, hrob]
    have hframe : ∀ {tid' : Nat} {t : ThreadInsts}, ThreadInv s.cpu s.phase tid' t →
        (∀ i ∈ line t, i ≠ head) → ThreadInv (s.cpu.removeFrontInst head) s.phase tid' t :=
      fun h' hne => h'.frame (fun i hi => Insts.modify_of_ne (hne i hi) _) (fun _ => id)
        (Nat.le_refl _)
    refine ⟨h.sorted, h.lt, fun tid' => ?_⟩
    by_cases heq : tid' = tid
    · subst heq
      have hline : line (s.threads tid') = head :: line { s.threads tid' with rob := rest } := by
        simp [line, hrob]
      have hsorted := ht.sorted
      rw [hline] at hsorted
      have hnew : ThreadInv s.cpu s.phase tid' { s.threads tid' with rob := rest } :=
        ht.move (hline ▸ List.sublist_cons_self _ _) (fun i hi => .inl (by simp [hrob, hi]))
          (fun _ => id) rfl fun _ _ hfetch => by rw [hphase] at hfetch; cases hfetch
      simpa [InFlight.setThread] using hframe hnew fun i hi =>
        Nat.ne_of_gt ((List.pairwise_cons.mp hsorted).1 i hi)
    · simpa [InFlight.setThread, Function.update_of_ne heq] using
        hframe (h.threads tid') fun i hi hi' => heq
          (((h.threads tid').thread i hi).symm.trans (hi' ▸ ht.thread head hmem))

theorem endTick_listed {cpu : InstList} (h : Listed cpu i) : Listed cpu.endTick i := by
  unfold InstList.endTick InstList.cleanUpRemovedInsts
  split
  · exact ⟨List.mem_filter.mpr ⟨h.1, by simp [h.2]⟩, h.2⟩
  · exact h

/-- What is not marked outlives the tick, and so does the branch that fetch is to hear of. -/
theorem Inv.endTick (h : Inv s) : Inv s.endTick := by
  have hinsts : s.cpu.endTick.insts = s.cpu.insts := by
    unfold InstList.endTick
    split <;> rfl
  have hnext : s.cpu.endTick.globalSeqNum = s.cpu.globalSeqNum := by
    unfold InstList.endTick
    split <;> rfl
  have hlist : s.cpu.endTick.instList.Sublist s.cpu.instList := by
    unfold InstList.endTick
    split
    · exact List.filter_sublist
    · exact .refl _
  refine ⟨h.sorted.sublist hlist, fun i hi => ?_, fun tid => ?_⟩
  · show i < s.cpu.endTick.globalSeqNum
    rw [hnext]
    exact h.lt i (hlist.subset hi)
  have ht := h.threads tid
  have hline : line (s.endTick.threads tid) = line (s.threads tid) := by
    simp [line, InFlight.endTick]
  constructor
  case sorted => rw [hline]; exact ht.sorted
  case lt => rw [hline]; exact fun i hi => hnext ▸ ht.lt i hi
  case thread => rw [hline]; exact fun i hi => by rw [← ht.thread i hi, ← hinsts]; rfl
  case rob => exact fun i hi => endTick_listed (ht.rob i hi)
  case live =>
    rw [hline]
    intro i hi hlive
    exact endTick_listed (ht.live i hi (by rw [← hinsts]; exact hlive))
  case sent =>
    intro i hi
    cases hi
  case received =>
    intro i hi _
    obtain ⟨-, hmem, hlisted⟩ := ht.sent i hi
    refine ⟨(endTick_listed hlisted).1, fun j hj => ?_⟩
    have hsorted : ((s.threads tid).rob ++ (s.threads tid).toRename).Pairwise (· < ·) :=
      ht.sorted.sublist (by simp [line, List.append_assoc])
    exact (List.pairwise_append.mp hsorted).2.2 j hj i hmem

theorem step_inv {op : InFlightOp} (h : Inv s) (hallowed : op.Allowed s)
    (hst : s.step op = some s') : Inv s' := by
  cases op with
  | checkSignalsAndUpdate tid => exact h.checkSignalsAndUpdate hallowed hst
  | buildInst tid inst => exact Option.some.inj hst ▸ h.buildInst inst
  | sendToDecode tid => exact h.sendToDecode hst
  | discardInst tid => exact h.discardInst hallowed hst
  | decodeTick | commitTick =>
    cases hst
    exact ⟨h.sorted, h.lt, fun tid => (h.threads tid).setPhase (by simp)⟩
  | decodeSquash tid =>
    cases hst
    exact h.setThread ((h.threads tid).move (by simp [line]) (fun i => .inl) (fun _ => id) rfl
      fun _ _ _ => ⟨rfl, rfl⟩)
  | decodeInst tid mispredicted => exact h.decodeInst hallowed.1 hst
  | insertInst tid => exact h.insertInst hallowed hst
  | dropInst tid =>
    cases hst
    exact h.setThread ((h.threads tid).move (by simp [line, List.tail_sublist]) (fun i => .inl)
      (fun _ => id) rfl fun _ _ _ => ⟨rfl, rfl⟩)
  | retireHead tid => exact h.retireHead hallowed hst
  | commitSquash tid =>
    cases hst
    exact h.setThread ((h.threads tid).move (.refl _) (fun i => .inl) (fun _ => id) rfl
      fun _ _ _ => ⟨rfl, rfl⟩)
  | endTick => exact Option.some.inj hst ▸ h.endTick

theorem init_inv (insts : Insts) : Inv { cpu := ⟨insts, [], [], false, 1⟩ } := by
  refine ⟨.nil, fun i hi => absurd hi List.not_mem_nil, fun tid => ?_⟩
  constructor <;> simp [line]

theorem reaches_inv {ops : List InFlightOp} (h : system.Reaches ops s) : Inv s :=
  h.invariant (fun _ ⟨insts, hs⟩ => hs ▸ init_inv insts) fun _ _ _ hi hst => step_inv hi hst.1 hst.2

end Steps

/-- **The squash walks over the instruction list.** For every list in program order, with
instructions of any threads, and every ROB tail in it, both walks stay inside the list and mark the
right instructions exactly if the list's oldest instruction, whatever its thread, is one that
`removeInstsUntil` stops at. Every call that a stage makes is right, and the number that decode and
fetch pass is that of an instruction in the list. -/
theorem walks_mark :
    (∀ (cpu : InstList) (tid : Nat) (robTail : Option Nat) (seqNum : Nat),
      cpu.instList.Pairwise (· < ·) → (∀ tail ∈ robTail, tail ∈ cpu.instList) →
        (cpu.WalksMark tid robTail seqNum ↔ ∃ front ∈ cpu.instList.head?, front ≤ seqNum)) ∧
      ∀ (ops : List InFlightOp) (s : InFlight), system.Reaches ops s → ∀ op : InFlightOp,
        op.Allowed s → ∀ call, s.call op = some call → CallRight s.cpu call :=
  ⟨fun _ tid _ seqNum hsorted htail => InstList.walksMark_iff hsorted tid htail seqNum,
    fun _ _ hs _ hallowed _ hcall => call_right (reaches_inv hs) hallowed hcall⟩

/-- Three instructions of thread 0. -/
def threeInsts : InstList := ⟨fun _ => {}, [1, 2, 3], [], false, 4⟩

/-- A branch has reached decode, with an instruction behind it that is still to be sent there. -/
def branchInDecode : InFlight :=
  let s : InFlight := { cpu := ⟨fun _ => {}, [], [], false, 1⟩ }
  let s := (s.buildInst 0 {}).buildInst 0 {}
  { s.setThread 0 { s.threads 0 with fetchQueue := [2], decodeInsts := [1] } with phase := .decode }

theorem walks_mark_branch :
    (threeInsts.WalksMark 0 (some 1) 2 ↔ ∃ front ∈ threeInsts.instList.head?, front ≤ 2) ∧
      CallRight branchInDecode.cpu (.removeInstsUntil 1 0) := by
  refine ⟨walks_mark.1 threeInsts 0 (some 1) 2 (by decide) (by decide), ?_⟩
  have hrun : system.Reaches [.buildInst 0 {}, .buildInst 0 {}, .sendToDecode 0, .decodeTick]
      branchInDecode :=
    ⟨_, ⟨fun _ => {}, rfl⟩, .snoc (l := [_, _, _]) (.snoc (l := [_, _]) (.snoc (l := [_])
      (.single ⟨rfl, rfl⟩) ⟨rfl, rfl⟩) ⟨rfl, rfl⟩) ⟨rfl, rfl⟩⟩
  exact walks_mark.2 _ _ hrun (.decodeInst 0 true) ⟨rfl, rfl⟩ _ rfl

/-- Everything is younger than 0: the walk goes on from the oldest instruction. -/
theorem until_walks_past_begin : threeInsts.removeInstsUntil 0 0 = none ∧
    ¬ threeInsts.WalksMark 0 (some 1) 0 := by
  have hnone : threeInsts.removeInstsUntil 0 0 = none := by decide
  refine ⟨hnone, ?_⟩
  rintro ⟨-, s', hs', -⟩
  rw [hnone] at hs'
  cases hs'

end InFlight

end Runahead
end Gem5
