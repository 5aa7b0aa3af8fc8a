import Gem5Runahead.Pipeline
import Mathlib.Logic.Relation

/-!
# InstWindow

The window of instructions in flight, as an abstract machine: the ROB, the instructions on their
way to it, and what decides whether one of them may still take effect. An instruction is dead if
it is squashed or sure to be squashed before it can be inserted into the ROB or retire. The
invariant is that every other one was marked in the mode the thread is in: in normal mode none
of them is a runahead instruction, and in runahead each was marked in this period.

* `Window.Step` — the moves of the machine.
* `Order`, `Control`, `Modes` — the invariant, `Core` together.
* `Step.core` — every move keeps it.
-/

namespace Gem5
namespace Runahead

/-- What happens to an instruction on its way through the pipeline. -/
structure DynInst.Steady (a b : DynInst) : Prop where
  same : b = { a with
    squashed := b.squashed, completed := b.completed, issued := b.issued,
    canCommit := b.canCommit, executed := b.executed, poisoned := b.poisoned, fault := b.fault }
  squashed : a.squashed = true → b.squashed = true
  executed : a.executed = true → b.executed = true
  poisoned : a.poisoned = true → b.poisoned = true

namespace DynInst.Steady

variable {a b c : DynInst}

theorem refl (a : DynInst) : Steady a a := ⟨rfl, id, id, id⟩

theorem trans (h : Steady a b) (h' : Steady b c) : Steady a c := by
  refine ⟨?_, h'.squashed ∘ h.squashed, h'.executed ∘ h.executed, h'.poisoned ∘ h.poisoned⟩
  rw [h'.same, h.same]

theorem runahead (h : Steady a b) : b.runahead = a.runahead := by rw [h.same]
theorem threadNumber (h : Steady a b) : b.threadNumber = a.threadNumber := by rw [h.same]
theorem removePending (h : Steady a b) : b.removePending = a.removePending := by rw [h.same]
theorem committed (h : Steady a b) : b.committed = a.committed := by rw [h.same]
theorem pcState (h : Steady a b) : b.pcState = a.pcState := by rw [h.same]
theorem nextPC (h : Steady a b) : b.nextPC = a.nextPC := by rw [h.same]
theorem isLoad (h : Steady a b) : b.isLoad = a.isLoad := by rw [h.same]

theorem not_squashed (h : Steady a b) (hb : b.squashed = false) : a.squashed = false := by
  cases ha : a.squashed with
  | false => rfl
  | true =>
    rw [h.squashed ha] at hb
    cases hb

end DynInst.Steady

structure Window where
  phase : Phase
  status : CommitStatus
  rob : ROB
  /-- The instructions on their way to the ROB. -/
  front : List Nat
  list : InstList
  markedIn : Nat → Nat
  inRunahead : Bool
  period : Nat
  cause : Nat
  /-- Commit's `runaheadCause`. -/
  commitCause : Option Nat
  exitRunahead : Bool
  exitable : Bool
  youngest : Nat
  lastCommited : Nat
  /-- Commit has sent a squash in this tick. -/
  squashSent : Bool
  /-- A squash of commit is on fetch's wire. -/
  squashSeen : Bool

namespace Window

variable {width : Nat} {v v' : Window}

def insts (v : Window) : Insts := v.list.insts

def setInsts (v : Window) (insts : Insts) : Window :=
  { v with list := { v.list with insts } }

/-- From the oldest to the youngest. -/
def line (v : Window) : List Nat := v.rob.instList ++ v.front

def mark (v : Window) (i : Nat) : Option Nat :=
  if (v.insts i).runahead then some (v.markedIn i) else none

def modeMark (v : Window) : Option Nat := if v.inRunahead then some v.period else none

/-- The instruction will not be inserted into the ROB, and will not retire but as a squashed
one. -/
def Dead (v : Window) (i : Nat) : Prop :=
  (v.insts i).squashed = true ∨
  (i ∈ v.rob.instList ∧ v.rob.doneSquashing = false ∧ v.rob.squashedSeqNum < i) ∨
  (i ∈ v.front ∧ (v.squashSent = true ∨ v.squashSeen = true))

/-- The ROB starts to squash what is younger than `n`. -/
def startSquash (width : Nat) (v : Window) (n youngest : Nat) : Option Window := do
  let (rob, insts) ← v.rob.squash width n v.insts
  return { v.setInsts insts with
    rob := rob, status := .robSquashing, youngest := youngest, squashSent := true }

/-- Where `squashAll` squashes to. -/
def squashedInst (v : Window) : Nat :=
  match v.rob.instList with
  | [] => v.lastCommited
  | head :: _ => head - 1

/-- Every instruction in flight becomes a runahead one, of the new period. -/
def markRunahead (v : Window) : Window :=
  let marks i := i ∈ v.list.instList ∧ (v.insts i).committed = false
  { v.setInsts fun i => if marks i then (v.insts i).setRunahead else v.insts i with
    markedIn := fun i =>
      if marks i ∧ (v.insts i).runahead = false then v.period + 1 else v.markedIn i }

/-- The thread leaves runahead; its instructions are still in flight. -/
def leaveRunahead (v : Window) : Window :=
  { v with inRunahead := false, exitRunahead := false, exitable := false }

/-- The head leaves the ROB. -/
def retire (v : Window) (head : Nat) : Window :=
  { v with
    rob := v.rob.retireHead
    list := { v.list with insts := v.insts.modify head DynInst.setCommitted }.removeFrontInst head }

/-- The phases before commit's squashes. -/
def early : Phase → Bool
  | .idle | .fetch | .iewSignals | .iew | .commit | .squash => true
  | _ => false

inductive Step (width : Nat) : Window → Window → Prop
  -- everywhere
  | insts {v : Window} {insts : Insts} (h : ∀ i, (v.insts i).Steady (insts i)) :
      Step width v (v.setInsts insts)
  | front {v : Window} {front : List Nat} (h : front.Sublist v.front) :
      Step width v { v with front }
  | signal {v : Window} (h : v.inRunahead = true) :
      Step width v { v with exitable := true, commitCause := some v.cause }
  | exit {v : Window} (h : v.inRunahead = true ∨ v.exitable = true) :
      Step width v { v with exitRunahead := true }
  -- fetch
  | fetchSquash {v : Window} {list : InstList} (hphase : v.phase = .idle)
      (h : v.list.removeInstsNotInROB 0 v.rob.instList.getLast? = some list) :
      Step width v { v with list, phase := .fetch, squashSeen := false }
  | decodeSquash {v : Window} {n : Nat} {list : InstList} (hn : n ∈ v.front)
      (h : v.list.removeInstsUntil n 0 = some list) : Step width v { v with list }
  | tick {v : Window} (hphase : v.phase = .idle) (h : v.squashSeen = false) :
      Step width v { v with phase := .fetch }
  | fetchInst {v : Window} {inst : DynInst} (hphase : v.phase = .fetch)
      (hthread : inst.threadNumber = 0) (hrunahead : inst.runahead = v.inRunahead)
      (hsquashed : inst.squashed = false) (hpending : inst.removePending = false)
      (hcommitted : inst.committed = false) :
      Step width v { v with
        list := v.list.addInst v.list.globalSeqNum inst
        front := v.front ++ [v.list.globalSeqNum]
        markedIn := Function.update v.markedIn v.list.globalSeqNum v.period }
  | discard {v : Window} {i : Nat} {list : InstList} (hi : i ∈ v.front)
      (h : v.list.removeInst i = some list) : Step width v { v with list }
  | phase {v : Window} {p : Phase} (hphase : early v.phase = true) (hidle : v.phase ≠ .idle)
      (hp : early p = true) (hp' : p ≠ .idle) : Step width v { v with phase := p }
  -- commit, before it looks for squashes
  | walk {v : Window} {rob : ROB} {insts : Insts} (hdone : v.rob.doneSquashing = false)
      (h : v.rob.doSquash width v.insts = some (rob, insts)) :
      Step width v { v.setInsts insts with rob }
  | walked {v : Window} (hphase : v.phase = .commit) (h : v.rob.doneSquashing = true) :
      Step width v { v with status := .running }
  -- commit's squashes
  | squashAll {v v' : Window} (hphase : v.phase = .squash)
      (h : v.startSquash width v.squashedInst v.lastCommited = some v') :
      Step width v { v' with phase := .iewSquash }
  | runaheadExit {v v' : Window} {lll : Nat} (hphase : v.phase = .squash)
      (hexit : v.exitRunahead = true) (hlll : v.commitCause = some lll)
      (h : v.leaveRunahead.startSquash width (lll - 1) (lll - 1) = some v') :
      Step width v { v' with phase := .iewSquash }
  | noSquash {v : Window} {status : CommitStatus} (hphase : v.phase = .squash)
      (h : status = v.status ∨ v.status = .squashAfterPending ∧ status = .running) :
      Step width v { v with status, phase := .iewSquash }
  | accept {v v' : Window} {n : Nat} (hphase : v.phase = .iewSquash) (hn : n ≤ v.youngest)
      (h : v.startSquash width n n = some v') : Step width v v'
  | squashing {v : Window} (hphase : v.phase = .iewSquash) (h : v.status = .robSquashing) :
      Step width v { v with phase := .finish }
  | insert {v : Window} {l front : List Nat} {youngest : Nat} (hphase : v.phase = .iewSquash)
      (hstatus : v.status ≠ .robSquashing) (hl : (l ++ front).Sublist v.front)
      (hlive : ∀ i ∈ l, (v.insts i).squashed = false) :
      Step width v { v with
        rob := { v.rob with instList := v.rob.instList ++ l }
        front, youngest, phase := .commitInsts 0 }
  -- commit's loop
  | commitStatus {v : Window} {n : Nat} {status : CommitStatus} {p : Phase}
      (hphase : v.phase = .commitInsts n) (hstatus : status = v.status ∨ status ≠ .robSquashing)
      (hp : (∃ n, p = .commitInsts n) ∨ p = .finish) :
      Step width v { v with status, phase := p }
  | retire {v : Window} {n head : Nat} {tail : List Nat} {lastCommited : Nat}
      (hphase : v.phase = .commitInsts n) (h : v.rob.instList = head :: tail)
      (hlast : lastCommited = v.lastCommited ∨ lastCommited = head) :
      Step width v { v.retire head with lastCommited }
  | fetchFault {v : Window} {n head : Nat} {tail : List Nat} (hphase : v.phase = .commitInsts n)
      (h : v.rob.instList = head :: tail) (hrunahead : (v.insts head).runahead = true)
      (hlive : (v.insts head).squashed = false) :
      Step width v { v with commitCause := some v.cause, exitRunahead := true }
  | enter {v : Window} {n head : Nat} {tail : List Nat} (hphase : v.phase = .commitInsts n)
      (h : v.rob.instList = head :: tail) (hmode : v.inRunahead = false) :
      Step width v { v.markRunahead with
        inRunahead := true, cause := head, period := v.period + 1 }
  -- the end of the tick
  | finish {v : Window} (hphase : v.phase = .finish) :
      Step width v { v with
        phase := .idle, list := v.list.endTick, squashSeen := v.squashSent, squashSent := false }

section Invariant

/-- The instruction is in the CPU's list, and not on its way out. -/
def Listed (v : Window) (i : Nat) : Prop :=
  i ∈ v.list.instList ∧ (v.insts i).removePending = false ∧ (v.insts i).committed = false

/-- Instructions are in the order of their sequence numbers. -/
structure Order (v : Window) : Prop where
  sorted : v.line.Pairwise (· < ·)
  pos : ∀ i ∈ v.line, 0 < i
  cause_le : ∀ i ∈ v.line, v.cause ≤ i
  lastCommited_lt : ∀ i ∈ v.line, v.lastCommited < i
  lt : ∀ i ∈ v.line, i < v.list.globalSeqNum
  listSorted : v.list.instList.Pairwise (· < ·)
  listLt : ∀ i ∈ v.list.instList, i < v.list.globalSeqNum
  next_pos : 0 < v.list.globalSeqNum
  cause_lt : v.cause < v.list.globalSeqNum
  last_lt : v.lastCommited < v.list.globalSeqNum
  threadNumber : ∀ i, (v.insts i).threadNumber = 0
  rob : ∀ i ∈ v.rob.instList, v.Listed i
  front : ∀ i ∈ v.front, (v.insts i).squashed = false → v.Listed i

/-- How far a squash can be at each point of a tick. -/
structure Control (v : Window) : Prop where
  walking : v.rob.doneSquashing = false → v.rob.Walking v.insts
  nonempty : v.rob.doneSquashing = false → v.rob.instList ≠ []
  status : v.rob.doneSquashing = false → v.status = .robSquashing
  youngest : v.rob.doneSquashing = false → v.youngest ≤ v.rob.squashedSeqNum
  seen : v.squashSeen = true → v.phase = .idle
  early : v.squashSent = true → Window.early v.phase = false
  sent : v.squashSent = true → v.status = .robSquashing
  committing : ∀ n, v.phase = .commitInsts n → v.status ≠ .robSquashing

structure Modes (v : Window) : Prop where
  /-- What can still take effect was marked in the mode the thread is in. -/
  live : ∀ i ∈ v.line, ¬ v.Dead i → v.mark i = v.modeMark
  /-- In runahead, what was not marked in this period has been squashed. -/
  old : v.inRunahead = true → ∀ i ∈ v.line, v.mark i ≠ some v.period →
    (v.insts i).squashed = true
  commitCause : ∀ c, v.commitCause = some c → c ≤ v.cause
  exit : v.exitRunahead = true → v.inRunahead = true
  exitable : v.exitable = true → v.inRunahead = true

structure Core (v : Window) : Prop where
  order : v.Order
  control : v.Control
  modes : v.Modes

end Invariant

section Moves

/-- Fewer instructions in the line. -/
theorem Order.mono (h : v.Order) (hline : v'.line.Sublist v.line) (hcause : v'.cause = v.cause)
    (hlast : v'.lastCommited = v.lastCommited) (hlist : v'.list.instList = v.list.instList)
    (hnext : v'.list.globalSeqNum = v.list.globalSeqNum)
    (hthread : ∀ i, (v'.insts i).threadNumber = (v.insts i).threadNumber)
    (hrob : ∀ i ∈ v'.rob.instList, v'.Listed i)
    (hfront : ∀ i ∈ v'.front, (v'.insts i).squashed = false → v'.Listed i) : v'.Order where
  sorted := h.sorted.sublist hline
  pos i hi := h.pos i (hline.subset hi)
  cause_le i hi := hcause ▸ h.cause_le i (hline.subset hi)
  lastCommited_lt i hi := hlast ▸ h.lastCommited_lt i (hline.subset hi)
  lt i hi := hnext ▸ h.lt i (hline.subset hi)
  listSorted := hlist ▸ h.listSorted
  listLt i hi := hnext ▸ h.listLt i (hlist ▸ hi)
  next_pos := hnext ▸ h.next_pos
  cause_lt := by rw [hcause, hnext]; exact h.cause_lt
  last_lt := by rw [hlast, hnext]; exact h.last_lt
  threadNumber i := (hthread i).trans (h.threadNumber i)
  rob := hrob
  front := hfront

/-- The mode is the same, and no instruction comes back to life. -/
theorem Modes.mono (h : v.Modes) (hmode : v'.inRunahead = v.inRunahead)
    (hperiod : v'.period = v.period) (hcause : v'.cause = v.cause)
    (hcommitCause : v'.commitCause = v.commitCause) (hexit : v'.exitRunahead = v.exitRunahead)
    (hexitable : v'.exitable = v.exitable)
    (hline : ∀ i ∈ v'.line, i ∈ v.line ∧ v'.mark i = v.mark i ∧ (v.Dead i → v'.Dead i) ∧
      ((v.insts i).squashed = true → (v'.insts i).squashed = true)) : v'.Modes where
  live i hi hlive := by
    obtain ⟨hi, hmark, hdead, -⟩ := hline i hi
    rw [hmark, h.live i hi (mt hdead hlive), modeMark, modeMark, hmode, hperiod]
  old hr i hi hne := by
    obtain ⟨hi, hmark, -, hsquashed⟩ := hline i hi
    rw [hmode] at hr
    rw [hmark, hperiod] at hne
    exact hsquashed (h.old hr i hi hne)
  commitCause c hc := by
    rw [hcommitCause] at hc
    exact hcause ▸ h.commitCause c hc
  exit he := hmode ▸ h.exit (hexit ▸ he)
  exitable he := hmode ▸ h.exitable (hexitable ▸ he)

theorem Listed.steady {insts : Insts} {i : Nat} (h : v.Listed i)
    (hs : (v.insts i).Steady (insts i)) : (v.setInsts insts).Listed i :=
  ⟨h.1, hs.removePending.trans h.2.1, hs.committed.trans h.2.2⟩

theorem mark_steady {insts : Insts} {i : Nat} (hs : (v.insts i).Steady (insts i)) :
    (v.setInsts insts).mark i = v.mark i := by
  have hr : ((v.setInsts insts).insts i).runahead = (v.insts i).runahead := hs.runahead
  rw [mark, mark, hr]
  rfl

theorem Walking.steady {rob : ROB} {insts insts' : Insts} (h : rob.Walking insts)
    (hs : ∀ i, (insts i).Steady (insts' i)) : rob.Walking insts' where
  sorted := h.sorted
  mem := h.mem
  passed i hi hlt := (h.passed i hi hlt).imp_left (hs i).squashed

theorem Order.insts {insts : Insts} (h : v.Order) (hs : ∀ i, (v.insts i).Steady (insts i)) :
    (v.setInsts insts).Order :=
  h.mono (List.Sublist.refl _) rfl rfl rfl rfl (fun i => (hs i).threadNumber)
    (fun i hi => (h.rob i hi).steady (hs i))
    fun i hi hq => (h.front i hi ((hs i).not_squashed hq)).steady (hs i)

theorem Core.insts {insts : Insts} (h : v.Core) (hs : ∀ i, (v.insts i).Steady (insts i)) :
    (v.setInsts insts).Core where
  order := h.order.insts hs
  control := {
    h.control with
    walking := fun hd => Walking.steady (h.control.walking hd) hs }
  modes := h.modes.mono rfl rfl rfl rfl rfl rfl fun i hi =>
    ⟨hi, mark_steady (hs i), Or.imp_left (hs i).squashed, (hs i).squashed⟩

theorem Core.front {front : List Nat} (h : v.Core) (hf : front.Sublist v.front) :
    { v with front }.Core where
  order := h.order.mono (hf.append_left v.rob.instList) rfl rfl rfl rfl (fun _ => rfl)
    h.order.rob (fun i hi => h.order.front i (hf.subset hi))
  control := { h.control with }
  modes := h.modes.mono rfl rfl rfl rfl rfl rfl fun i hi => by
    have hline : i ∈ v.line := (hf.append_left v.rob.instList).subset hi
    refine ⟨hline, rfl, ?_, id⟩
    rintro (hq | hrob | ⟨hfront, hsquash⟩)
    · exact .inl hq
    · exact .inr (.inl hrob)
    · refine .inr (.inr ⟨?_, hsquash⟩)
      -- an instruction of the line that was on its way to the ROB is not in it
      rcases List.mem_append.mp hi with hi | hi
      · have hlt := (List.pairwise_append.mp h.order.sorted).2.2 i hi i hfront
        omega
      · exact hi

theorem not_dead_of_done {i : Nat} (hdone : v.rob.doneSquashing = true)
    (hsent : v.squashSent = false) (hseen : v.squashSeen = false)
    (hlive : (v.insts i).squashed = false) : ¬ v.Dead i := by
  rintro (hq | ⟨-, hd, -⟩ | ⟨-, hsquash⟩)
  · rw [hlive] at hq
    cases hq
  · rw [hdone] at hd
    cases hd
  · rw [hsent, hseen] at hsquash
    simp at hsquash

theorem Control.done (h : v.Control) (hstatus : v.status ≠ .robSquashing) :
    v.rob.doneSquashing = true := by
  by_contra hd
  exact hstatus (h.status (by simpa using hd))

theorem Control.not_sent (h : v.Control) (hstatus : v.status ≠ .robSquashing) :
    v.squashSent = false := by
  by_contra hs
  exact hstatus (h.sent (by simpa using hs))

theorem Control.not_seen (h : v.Control) (hphase : v.phase ≠ .idle) : v.squashSeen = false := by
  by_contra hs
  exact hphase (h.seen (by simpa using hs))

/-- While commit retires instructions no squash is on its way. -/
theorem Core.committing {n i : Nat} (h : v.Core) (hphase : v.phase = .commitInsts n)
    (hi : i ∈ v.line) (hlive : (v.insts i).squashed = false) : v.mark i = v.modeMark := by
  have hstatus := h.control.committing n hphase
  refine h.modes.live i hi (not_dead_of_done (h.control.done hstatus)
    (h.control.not_sent hstatus) (h.control.not_seen ?_) hlive)
  rw [hphase]
  exact Phase.noConfusion

theorem Core.signal (h : v.Core) (hr : v.inRunahead = true) :
    { v with exitable := true, commitCause := some v.cause }.Core where
  order := { h.order with }
  control := { h.control with }
  modes := {
    h.modes with
    commitCause := fun _ hc => Nat.le_of_eq (Option.some.inj hc).symm
    exitable := fun _ => hr }

theorem Core.exit (h : v.Core) (hr : v.inRunahead = true ∨ v.exitable = true) :
    { v with exitRunahead := true }.Core where
  order := { h.order with }
  control := { h.control with }
  modes := {
    h.modes with
    exit := fun _ => hr.elim id h.modes.exitable }

theorem Core.fetchFault {n head : Nat} {tail : List Nat} (h : v.Core)
    (hphase : v.phase = .commitInsts n) (hhead : v.rob.instList = head :: tail)
    (hrunahead : (v.insts head).runahead = true) (hlive : (v.insts head).squashed = false) :
    { v with commitCause := some v.cause, exitRunahead := true }.Core where
  order := { h.order with }
  control := { h.control with }
  modes := {
    h.modes with
    commitCause := fun _ hc => Nat.le_of_eq (Option.some.inj hc).symm
    exit := fun _ => by
      have hmem : head ∈ v.line := by simp [line, hhead]
      have hmark := h.committing hphase hmem hlive
      by_contra hr
      simp [mark, modeMark, hrunahead, hr] at hmark }

theorem Core.tick (h : v.Core) (hphase : v.phase = .idle) (hseen : v.squashSeen = false) :
    { v with phase := .fetch }.Core where
  order := { h.order with }
  control := {
    h.control with
    seen := fun hs => by
      rw [hseen] at hs
      cases hs
    early := fun hs => by
      have := h.control.early hs
      rw [hphase] at this
      cases this
    committing := fun _ hp => by cases hp }
  modes := { h.modes with }

theorem Core.phase {p : Phase} (h : v.Core) (hphase : early v.phase = true) (hidle : v.phase ≠ .idle)
    (hp : early p = true) : { v with phase := p }.Core where
  order := { h.order with }
  control := {
    h.control with
    seen := fun hs => absurd (h.control.seen hs) hidle
    early := fun hs => by
      have := h.control.early hs
      rw [hphase] at this
      cases this
    committing := fun n hn => by
      subst hn
      cases hp }
  modes := { h.modes with }

theorem Core.walked (h : v.Core) (hphase : v.phase = .commit) (hdone : v.rob.doneSquashing = true) :
    { v with status := .running }.Core where
  order := { h.order with }
  control := {
    h.control with
    status := fun hd => by
      rw [hdone] at hd
      cases hd
    sent := fun hs => by
      have := h.control.early hs
      rw [hphase] at this
      cases this
    committing := fun _ _ => by simp }
  modes := { h.modes with }

theorem Core.noSquash {status : CommitStatus} (h : v.Core) (hphase : v.phase = .squash)
    (hs : status = v.status ∨ v.status = .squashAfterPending ∧ status = .running) :
    { v with status, phase := .iewSquash }.Core := by
  have hkeep : v.status = .robSquashing → status = .robSquashing := by
    intro hq
    rcases hs with rfl | ⟨hs, -⟩
    · exact hq
    · rw [hq] at hs
      cases hs
  have hsent : v.squashSent = false := by
    by_contra hsent
    have := h.control.early (by simpa using hsent)
    rw [hphase] at this
    cases this
  exact {
    order := { h.order with }
    control := {
      h.control with
      status := fun hd => hkeep (h.control.status hd)
      seen := fun hseen => by
        have := h.control.seen hseen
        rw [hphase] at this
        cases this
      early := fun hs => by
        rw [hsent] at hs
        cases hs
      sent := fun hs => by
        rw [hsent] at hs
        cases hs
      committing := fun _ hp => by cases hp }
    modes := { h.modes with } }

theorem Core.squashing (h : v.Core) (hphase : v.phase = .iewSquash) :
    { v with phase := .finish }.Core where
  order := { h.order with }
  control := {
    h.control with
    seen := fun hs => by
      have := h.control.seen hs
      rw [hphase] at this
      cases this
    early := fun _ => rfl
    committing := fun _ hp => by cases hp }
  modes := { h.modes with }

theorem Core.commitStatus {n : Nat} {status : CommitStatus} {p : Phase} (h : v.Core)
    (hphase : v.phase = .commitInsts n) (hs : status = v.status ∨ status ≠ .robSquashing) :
    { v with status, phase := p }.Core := by
  have hstatus := h.control.committing n hphase
  have hne : status ≠ .robSquashing := by
    rcases hs with rfl | hs
    · exact hstatus
    · exact hs
  exact {
    order := { h.order with }
    control := {
      h.control with
      status := fun hd => by
        rw [h.control.done hstatus] at hd
        cases hd
      seen := fun hseen => by
        have := h.control.seen hseen
        rw [hphase] at this
        cases this
      early := fun hs => by
        rw [h.control.not_sent hstatus] at hs
        cases hs
      sent := fun hs => by
        rw [h.control.not_sent hstatus] at hs
        cases hs
      committing := fun _ _ => hne }
    modes := { h.modes with } }

theorem Core.insert {l front : List Nat} {youngest : Nat} (h : v.Core)
    (hphase : v.phase = .iewSquash) (hstatus : v.status ≠ .robSquashing)
    (hl : (l ++ front).Sublist v.front) (hlive : ∀ i ∈ l, (v.insts i).squashed = false) :
    { v with
      rob := { v.rob with instList := v.rob.instList ++ l }
      front, youngest, phase := .commitInsts 0 }.Core := by
  have hdone := h.control.done hstatus
  have hsent := h.control.not_sent hstatus
  have hidle : v.phase ≠ .idle := by simp [hphase]
  have hseen := h.control.not_seen hidle
  have hline : ((v.rob.instList ++ l) ++ front).Sublist v.line := by
    rw [List.append_assoc]
    exact hl.append_left v.rob.instList
  refine ⟨h.order.mono hline rfl rfl rfl rfl (fun _ => rfl) (fun i hi => ?_)
    fun i hi => h.order.front i (hl.subset (List.mem_append_right l hi)), ?_, ?_⟩
  · rcases List.mem_append.mp hi with hi | hi
    · exact h.order.rob i hi
    · exact h.order.front i (hl.subset (List.mem_append_left front hi)) (hlive i hi)
  · exact {
      h.control with
      walking := fun hd => by simp [hdone] at hd
      nonempty := fun hd => by simp [hdone] at hd
      status := fun hd => by simp [hdone] at hd
      youngest := fun hd => by simp [hdone] at hd
      seen := fun hs => by simp [hseen] at hs
      early := fun _ => rfl
      committing := fun _ _ => hstatus }
  · refine h.modes.mono rfl rfl rfl rfl rfl rfl fun i hi => ⟨hline.subset hi, rfl, ?_, id⟩
    intro hdead
    by_contra hlive
    refine not_dead_of_done hdone hsent hseen ?_ hdead
    by_contra hq
    have hq' : (v.insts i).squashed = true := by simpa using hq
    exact hlive (.inl hq')

theorem Core.retire {n head lastCommited : Nat} {tail : List Nat} (h : v.Core)
    (hphase : v.phase = .commitInsts n) (hhead : v.rob.instList = head :: tail)
    (hlast : lastCommited = v.lastCommited ∨ lastCommited = head) :
    { v.retire head with lastCommited }.Core := by
  have hdone := h.control.done (h.control.committing n hphase)
  have hline : v.line = head :: (tail ++ v.front) := by simp [line, hhead]
  have hlt : ∀ i ∈ tail ++ v.front, head < i := by
    have hsorted := h.order.sorted
    rw [hline] at hsorted
    exact (List.pairwise_cons.mp hsorted).1
  have htail : (v.retire head).rob.instList = tail := by simp [Window.retire, ROB.retireHead, hhead]
  have hline' : { v.retire head with lastCommited }.line = tail ++ v.front := by
    rw [line, htail]
    rfl
  have hsub : (tail ++ v.front).Sublist v.line := hline ▸ List.sublist_cons_self _ _
  have hinsts : ∀ i ∈ tail ++ v.front, (v.retire head).insts i = v.insts i := by
    intro i hi
    have hne : i ≠ head := by
      have := hlt i hi
      omega
    simp only [Window.retire, Window.insts, InstList.removeFrontInst, Insts.modify_of_ne hne,
      InstList.setRemoving]
  have hlisted : ∀ i ∈ tail ++ v.front, v.Listed i → (v.retire head).Listed i := by
    intro i hi hl
    refine ⟨hl.1, ?_⟩
    rw [hinsts i hi]
    exact hl.2
  refine ⟨?_, ?_, ?_⟩
  · exact {
      sorted := by
        rw [hline']
        exact h.order.sorted.sublist hsub
      pos := fun i hi => h.order.pos i (hsub.subset (hline' ▸ hi))
      cause_le := fun i hi => h.order.cause_le i (hsub.subset (hline' ▸ hi))
      lastCommited_lt := fun i hi => by
        rw [hline'] at hi
        rcases hlast with rfl | rfl
        · exact h.order.lastCommited_lt i (hsub.subset hi)
        · exact hlt i hi
      lt := fun i hi => h.order.lt i (hsub.subset (hline' ▸ hi))
      listSorted := h.order.listSorted
      listLt := h.order.listLt
      next_pos := h.order.next_pos
      cause_lt := h.order.cause_lt
      last_lt := by
        rcases hlast with rfl | rfl
        · exact h.order.last_lt
        · exact h.order.lt _ (by simp [hline])
      threadNumber := fun i => by
        have hthread := h.order.threadNumber i
        simp only [Window.retire, Window.insts, InstList.removeFrontInst, Insts.modify_apply,
          InstList.setRemoving]
        split <;> exact hthread
      rob := fun i hi => by
        have hi : i ∈ tail := htail ▸ hi
        exact hlisted i (List.mem_append_left _ hi) (h.order.rob i (by simp [hhead, hi]))
      front := fun i hi hq => by
        have hmem : i ∈ tail ++ v.front := List.mem_append_right tail hi
        refine hlisted i hmem (h.order.front i hi ?_)
        exact hinsts i hmem ▸ hq }
  · exact {
      h.control with
      walking := fun hd => by simp [Window.retire, ROB.retireHead, hdone] at hd
      nonempty := fun hd => by simp [Window.retire, ROB.retireHead, hdone] at hd
      status := fun hd => by simp [Window.retire, ROB.retireHead, hdone] at hd
      youngest := fun hd => by simp [Window.retire, ROB.retireHead, hdone] at hd }
  · refine h.modes.mono rfl rfl rfl rfl rfl rfl fun i hi => ?_
    rw [hline'] at hi
    have heq : { v.retire head with lastCommited }.insts i = v.insts i := hinsts i hi
    refine ⟨hsub.subset hi, ?_, ?_, fun hq => ?_⟩
    · rw [mark, mark, heq]
      rfl
    · rintro (hq | ⟨-, hd, -⟩ | hfront)
      · exact .inl (heq ▸ hq)
      · simp [hdone] at hd
      · exact .inr (.inr hfront)
    · rw [heq]
      exact hq

theorem Core.fetchInst {inst : DynInst} (h : v.Core)
    (hthread : inst.threadNumber = 0) (hrunahead : inst.runahead = v.inRunahead)
    (hpending : inst.removePending = false) (hcommitted : inst.committed = false) :
    { v with
      list := v.list.addInst v.list.globalSeqNum inst
      front := v.front ++ [v.list.globalSeqNum]
      markedIn := Function.update v.markedIn v.list.globalSeqNum v.period }.Core := by
  set i := v.list.globalSeqNum with hi
  set v' : Window := { v with
    list := v.list.addInst i inst
    front := v.front ++ [i]
    markedIn := Function.update v.markedIn i v.period } with hv'
  have hline : v'.line = v.line ++ [i] := (List.append_assoc ..).symm
  have hmem : ∀ j ∈ v'.line, j ∈ v.line ∨ j = i := by
    intro j hj
    rw [hline] at hj
    simpa using hj
  have hinsts : ∀ j ∈ v.line, v'.insts j = v.insts j := by
    intro j hj
    have hne : j ≠ i := Nat.ne_of_lt (h.order.lt j hj)
    exact Function.update_of_ne hne ..
  have hlisted : ∀ j ∈ v.line, v.Listed j → v'.Listed j := by
    intro j hj hl
    refine ⟨List.mem_append_left _ hl.1, ?_⟩
    rw [hinsts j hj]
    exact hl.2
  have hself : v'.insts i = inst := Function.update_self ..
  refine ⟨?_, ?_, ?_⟩
  · exact {
      sorted := by
        rw [hline, List.pairwise_append]
        exact ⟨h.order.sorted, List.pairwise_singleton .., by simpa using h.order.lt⟩
      pos := fun j hj => by
        rcases hmem j hj with hj | rfl
        · exact h.order.pos j hj
        · exact h.order.next_pos
      cause_le := fun j hj => by
        rcases hmem j hj with hj | rfl
        · exact h.order.cause_le j hj
        · exact Nat.le_of_lt h.order.cause_lt
      lastCommited_lt := fun j hj => by
        rcases hmem j hj with hj | rfl
        · exact h.order.lastCommited_lt j hj
        · exact h.order.last_lt
      lt := fun j hj => by
        rcases hmem j hj with hj | rfl
        · exact Nat.lt_succ_of_lt (h.order.lt j hj)
        · exact Nat.lt_succ_self _
      listSorted := by
        refine List.pairwise_append.mpr ⟨h.order.listSorted, List.pairwise_singleton .., ?_⟩
        simpa using h.order.listLt
      listLt := fun j hj => by
        rcases List.mem_append.mp hj with hj | hj
        · exact Nat.lt_succ_of_lt (h.order.listLt j hj)
        · rw [List.mem_singleton.mp hj]
          exact Nat.lt_succ_self _
      next_pos := Nat.succ_pos _
      cause_lt := Nat.lt_succ_of_lt h.order.cause_lt
      last_lt := Nat.lt_succ_of_lt h.order.last_lt
      threadNumber := fun j => by
        by_cases hj : j = i
        · rw [hj, hself]
          exact hthread
        · have heq : v'.insts j = v.insts j := Function.update_of_ne hj ..
          rw [heq]
          exact h.order.threadNumber j
      rob := fun j hj => hlisted j (List.mem_append_left _ hj) (h.order.rob j hj)
      front := fun j hj hq => by
        rcases List.mem_append.mp hj with hj | hj
        · have hj' : j ∈ v.line := List.mem_append_right _ hj
          exact hlisted j hj' (h.order.front j hj (hinsts j hj' ▸ hq))
        · rw [List.mem_singleton.mp hj]
          refine ⟨List.mem_append_right _ List.mem_cons_self, ?_⟩
          rw [hself]
          exact ⟨hpending, hcommitted⟩ }
  · exact {
      h.control with
      walking := fun hd => by
        have hw := h.control.walking hd
        refine ⟨hw.sorted, hw.mem, fun j hj hlt => ?_⟩
        rw [hinsts j (List.mem_append_left _ hj)]
        exact hw.passed j hj hlt }
  · have hmark : ∀ j ∈ v.line, v'.mark j = v.mark j := by
      intro j hj
      have hne : j ≠ i := Nat.ne_of_lt (h.order.lt j hj)
      rw [mark, mark, hinsts j hj]
      simp [hv', Function.update_of_ne hne]
    have hmark' : v'.mark i = v.modeMark := by
      rw [mark, modeMark, hself, hrunahead]
      simp [hv']
    exact {
      h.modes with
      live := fun j hj hlive => by
        rcases hmem j hj with hj | rfl
        · rw [hmark j hj]
          refine h.modes.live j hj (mt ?_ hlive)
          rintro (hq | hrob | ⟨hfront, hsquash⟩)
          · exact .inl ((hinsts j hj).symm ▸ hq)
          · exact .inr (.inl hrob)
          · exact .inr (.inr ⟨List.mem_append_left _ hfront, hsquash⟩)
        · exact hmark'
      old := fun hr j hj hne => by
        rcases hmem j hj with hj | rfl
        · rw [hinsts j hj]
          exact h.modes.old hr j hj (hmark j hj ▸ hne)
        · rw [hmark', modeMark, if_pos hr] at hne
          exact absurd rfl hne }

/-- Fetch squashes some of what is on its way to the ROB. -/
theorem Core.fetchSquashes {l : List Nat} {list : InstList} (h : v.Core)
    (hs : v.list.Squashes l list) (hl : ∀ i ∈ l, i ∉ v.rob.instList) :
    { v with list }.Core := by
  have hsteady : ∀ i, (v.insts i).squashed = true → (list.insts i).squashed = true :=
    fun _ => hs.squashed
  have hnot : ∀ i, (list.insts i).squashed = false → list.insts i = v.insts i := by
    intro i hq
    rw [hs.insts] at hq ⊢
    split at hq
    · cases hq
    · rename_i hi
      rw [if_neg hi]
      rfl
  have hrob : ∀ i ∈ v.rob.instList, list.insts i = v.insts i := by
    intro i hi
    rw [hs.insts, if_neg fun hmem => hl i hmem hi]
    rfl
  have hlisted : ∀ i, list.insts i = v.insts i → v.Listed i → { v with list }.Listed i := by
    rintro i heq ⟨hmem, hflags⟩
    refine ⟨hs.instList ▸ hmem, ?_⟩
    change (list.insts i).removePending = false ∧ (list.insts i).committed = false
    rw [heq]
    exact hflags
  refine ⟨h.order.mono (List.Sublist.refl _) rfl rfl hs.instList hs.globalSeqNum hs.threadNumber
    (fun i hi => hlisted i (hrob i hi) (h.order.rob i hi))
    fun i hi hq => hlisted i (hnot i hq) (h.order.front i hi (hnot i hq ▸ hq)), ?_, ?_⟩
  · exact {
      h.control with
      walking := fun hd => by
        have hw := h.control.walking hd
        exact ⟨hw.sorted, hw.mem, fun i hi hlt => (hw.passed i hi hlt).imp_left (hsteady i)⟩ }
  · refine h.modes.mono rfl rfl rfl rfl rfl rfl fun i hi => ⟨hi, ?_, ?_, hsteady i⟩
    · have hr : (list.insts i).runahead = (v.insts i).runahead := by
        rw [hs.insts]
        split <;> rfl
      change (if (list.insts i).runahead then _ else _) = _
      rw [hr]
      rfl
    · exact Or.imp_left (hsteady i)

theorem Order.lt_front (h : v.Order) {i n : Nat} (hi : i ∈ v.rob.instList) (hn : n ∈ v.front) :
    i < n :=
  (List.pairwise_append.mp h.sorted).2.2 i hi n hn

theorem Core.decodeSquash {n : Nat} {list : InstList} (h : v.Core) (hn : n ∈ v.front)
    (hlist : v.list.removeInstsUntil n 0 = some list) : { v with list }.Core := by
  have hs := InstList.removeInstsUntil_squashes h.order.threadNumber h.order.listSorted hlist
  refine h.fetchSquashes hs fun i hi hrob => ?_
  have hlt := h.order.lt_front hrob hn
  have hgt : n < i := by simpa using (List.mem_filter.mp hi).2
  omega

theorem Core.discard {i : Nat} {list : InstList} (h : v.Core) (hi : i ∈ v.front)
    (hlist : v.list.removeInst i = some list) : { v with list }.Core := by
  have hs := InstList.removeInst_squashes h.order.threadNumber hlist
  refine h.fetchSquashes hs fun j hj hrob => ?_
  have hlt := h.order.lt_front hrob hi
  rw [List.mem_singleton.mp hj] at hlt
  omega

theorem Order.tail_max (h : v.Order) {tail : Nat} (ht : tail ∈ v.rob.instList.getLast?) {i : Nat}
    (hi : i ∈ v.rob.instList) : i ≤ tail := by
  obtain ⟨l, hl⟩ := List.getLast?_eq_some_iff.mp ht
  have hsorted := (List.pairwise_append.mp h.sorted).1
  rw [hl] at hi hsorted
  rcases List.mem_append.mp hi with hi | hi
  · exact Nat.le_of_lt ((List.pairwise_append.mp hsorted).2.2 i hi tail List.mem_cons_self)
  · exact Nat.le_of_eq (List.mem_singleton.mp hi)

/-- Fetch sees commit's squash: what is on its way to the ROB is squashed. -/
theorem Core.fetchSquash {list : InstList} (h : v.Core) (hphase : v.phase = .idle)
    (hlist : v.list.removeInstsNotInROB 0 v.rob.instList.getLast? = some list) :
    { v with list, phase := .fetch, squashSeen := false }.Core := by
  have hs := InstList.removeInstsNotInROB_squashes h.order.threadNumber h.order.listSorted
    (fun tail ht => (h.order.rob tail (List.mem_of_getLast? ht)).1) hlist
  have hnot : ∀ i ∈ v.list.instList.filter fun i => v.rob.instList.getLast?.all (· < i),
      i ∉ v.rob.instList := by
    intro i hi hrob
    have hall := (List.mem_filter.mp hi).2
    cases ht : v.rob.instList.getLast? with
    | none =>
      rw [List.getLast?_eq_none_iff] at ht
      rw [ht] at hrob
      cases hrob
    | some tail =>
      rw [ht, Option.all_some, decide_eq_true_eq] at hall
      have hle := h.order.tail_max ht hrob
      omega
  have hcore := h.fetchSquashes hs hnot
  -- now nothing on its way is left
  have hfront : ∀ i ∈ v.front, (list.insts i).squashed = true := by
    intro i hi
    cases hq : (v.insts i).squashed with
    | true => exact hs.squashed hq
    | false =>
      rw [hs.insts, if_pos]
      · rfl
      · refine List.mem_filter.mpr ⟨(h.order.front i hi hq).1, ?_⟩
        cases ht : v.rob.instList.getLast? with
        | none => rfl
        | some tail => simpa using h.order.lt_front (List.mem_of_getLast? ht) hi
  exact {
    order := { hcore.order with }
    control := {
      hcore.control with
      seen := fun hs => by cases hs
      early := fun hs => by
        have := h.control.early hs
        rw [hphase] at this
        cases this
      committing := fun _ hp => by cases hp }
    modes := {
      hcore.modes with
      live := fun i hi hlive => by
        refine hcore.modes.live i hi (mt ?_ hlive)
        rintro (hq | hrob | ⟨hi, -⟩)
        · exact .inl hq
        · exact .inr (.inl hrob)
        · exact .inl (hfront i hi) } }

theorem SquashMarks.steady {rob : ROB} {n : Nat} {insts insts' : Insts}
    (h : rob.SquashMarks n insts insts') (i : Nat) : (insts i).Steady (insts' i) := by
  rcases h i with heq | ⟨-, -, heq⟩
  · rw [heq]
    exact .refl _
  · rw [heq]
    exact ⟨rfl, fun _ => rfl, id, id⟩

theorem Order.rob_sorted (h : v.Order) : v.rob.instList.Pairwise (· < ·) :=
  (List.pairwise_append.mp h.sorted).1

/-- The ROB goes on squashing. -/
theorem Core.walk {rob : ROB} {insts : Insts} (h : v.Core) (hdone : v.rob.doneSquashing = false)
    (hrob : v.rob.doSquash width v.insts = some (rob, insts)) :
    { v.setInsts insts with rob }.Core := by
  obtain ⟨hlist, hsq, hmarks, hfinished, hwalk⟩ :=
    ROB.doSquash_spec hdone (h.control.walking hdone) hrob
  have hs := SquashMarks.steady hmarks
  have hcore := h.insts hs
  have hline : { v.setInsts insts with rob }.line = v.line := by
    simp only [line, hlist, setInsts]
  refine ⟨hcore.order.mono (hline ▸ List.Sublist.refl _) rfl rfl rfl rfl (fun _ => rfl)
    (fun i hi => hcore.order.rob i (hlist ▸ hi)) hcore.order.front, ?_, ?_⟩
  · exact {
      hcore.control with
      walking := hwalk
      nonempty := fun _ => hlist ▸ h.control.nonempty hdone
      status := fun _ => h.control.status hdone
      youngest := fun _ => hsq ▸ h.control.youngest hdone }
  · refine h.modes.mono rfl rfl rfl rfl rfl rfl fun i hi => ?_
    refine ⟨hline ▸ hi, mark_steady (hs i), ?_, (hs i).squashed⟩
    rintro (hq | ⟨hi, -, hlt⟩ | hfront)
    · exact .inl ((hs i).squashed hq)
    · by_cases hd : rob.doneSquashing = true
      · exact .inl (hfinished hd i hi hlt)
      · exact .inr (.inl ⟨hlist ▸ hi, by simpa using hd, hsq ▸ hlt⟩)
    · exact .inr (.inr hfront)

/-- A squash of commit, as far as the ROB is concerned. -/
theorem startSquash_cases {n youngest : Nat} (hsorted : v.rob.instList.Pairwise (· < ·))
    (h : v.startSquash width n youngest = some v') :
    ∃ rob insts, v' = { v.setInsts insts with
        rob := rob, status := .robSquashing, youngest := youngest, squashSent := true } ∧
      (∀ i, (v.insts i).Steady (insts i)) ∧ rob.instList = v.rob.instList ∧
      (v.rob.instList = [] → rob = v.rob) ∧
      (v.rob.instList ≠ [] → rob.squashedSeqNum = n ∧
        (rob.doneSquashing = false → rob.Walking insts) ∧
        ∀ i ∈ v.rob.instList, n < i → rob.Doomed insts i) := by
  simp only [startSquash, Option.bind_eq_bind] at h
  obtain ⟨⟨rob, insts⟩, hrob, h⟩ := Option.bind_eq_some_iff.mp h
  cases h
  by_cases hne : v.rob.instList = []
  · rw [ROB.squash, if_pos hne] at hrob
    cases hrob
    exact ⟨v.rob, v.insts, rfl, fun _ => .refl _, rfl, fun _ => rfl, fun hn => absurd hne hn⟩
  · obtain ⟨hlist, hsq, hmarks, hwalk, hdoomed⟩ := ROB.squash_spec hsorted hne hrob
    refine ⟨rob, insts, rfl, SquashMarks.steady hmarks, hlist, fun hn => absurd hn hne, fun _ =>
      ⟨hsq, hwalk, fun i hi hlt => (hdoomed i hi).mpr (.inr hlt)⟩⟩

/-- After a squash down to `n`, what is alive is in the ROB and not younger than `n`. -/
theorem startSquash_inv {n youngest : Nat} (ho : v.Order) (hc : v.Control)
    (hphase : v.phase = .squash ∨ v.phase = .iewSquash) (hn : v.rob.instList ≠ [] → youngest ≤ n)
    (h : v.startSquash width n youngest = some v') :
    { v' with phase := .iewSquash }.Order ∧ { v' with phase := .iewSquash }.Control ∧
      (∀ i, (v.insts i).Steady (v'.insts i)) ∧
      (∃ rob insts, v' = { v.setInsts insts with
        rob := rob, status := .robSquashing, youngest := youngest, squashSent := true }) ∧
      v'.rob.instList = v.rob.instList ∧
      ∀ i ∈ v'.line, ¬ v'.Dead i → i ∈ v.rob.instList ∧ i ≤ n := by
  obtain ⟨rob, insts, rfl, hs, hlist, hempty, hrob⟩ := startSquash_cases ho.rob_sorted h
  have horder := ho.insts hs
  have hne : rob.doneSquashing = false → v.rob.instList ≠ [] := by
    intro hd hn
    rw [hempty hn] at hd
    exact hc.nonempty hd hn
  have hline : ∀ i ∈ rob.instList ++ v.front, i ∈ v.line := by
    intro i hi
    rwa [hlist] at hi
  refine ⟨?_, ?_, hs, ⟨rob, insts, rfl⟩, hlist, fun i hi hlive => ?_⟩
  · refine horder.mono ?_ rfl rfl rfl rfl (fun _ => rfl) (fun i hi => horder.rob i (hlist ▸ hi))
      horder.front
    change (rob.instList ++ v.front).Sublist (v.rob.instList ++ v.front)
    rw [hlist]
  · exact {
      walking := fun hd => (hrob (hne hd)).2.1 hd
      nonempty := fun hd => hlist ▸ hne hd
      status := fun _ => rfl
      youngest := fun hd => by
        have hsq := (hrob (hne hd)).1
        exact hsq ▸ hn (hne hd)
      seen := fun hs => by
        have hidle := hc.seen hs
        rcases hphase with hp | hp <;> rw [hp] at hidle <;> cases hidle
      early := fun _ => rfl
      sent := fun _ => rfl
      committing := fun _ hp => by cases hp }
  · have hi := hline i hi
    rcases List.mem_append.mp hi with hi | hi
    · refine ⟨hi, ?_⟩
      by_contra hlt
      refine hlive ?_
      rcases (hrob (List.ne_nil_of_mem hi)).2.2 i hi (by omega) with hq | ⟨hd, hsq⟩
      · exact .inl hq
      · exact .inr (.inl ⟨hlist ▸ hi, hd, hsq⟩)
    · exact absurd (.inr (.inr ⟨hi, .inl rfl⟩)) hlive

/-- A squash that keeps the mode keeps what the modes say if it does not let anything live that
was dead before. -/
theorem Modes.startSquash {n youngest : Nat} (h : v.Core)
    (hphase : v.phase = .squash ∨ v.phase = .iewSquash) (hn : v.rob.instList ≠ [] → youngest ≤ n)
    (hlive : ∀ i ∈ v.rob.instList, i ≤ n →
      ¬ (v.rob.doneSquashing = false ∧ v.rob.squashedSeqNum < i))
    (hsquash : v.startSquash width n youngest = some v') :
    { v' with phase := .iewSquash }.Core := by
  obtain ⟨horder, hcontrol, hs, ⟨rob, insts, rfl⟩, hlist, halive⟩ :=
    startSquash_inv h.order h.control hphase hn hsquash
  refine ⟨horder, hcontrol, ?_⟩
  have hline : ∀ i ∈ rob.instList ++ v.front, i ∈ v.line := by
    intro i hi
    change rob.instList = v.rob.instList at hlist
    rwa [hlist] at hi
  exact {
    live := fun i hi hdead => by
      obtain ⟨hrob, hle⟩ := halive i hi hdead
      have hmark := h.modes.live i (hline i hi) ?_
      · exact (mark_steady (hs i)).trans hmark
      · rintro (hq | ⟨-, hsquashing⟩ | ⟨hfront, -⟩)
        · exact hdead (.inl ((hs i).squashed hq))
        · exact hlive i hrob hle hsquashing
        · have := h.order.lt_front hrob hfront
          omega
    old := fun hr i hi hne => by
      refine (hs i).squashed (h.modes.old hr i (hline i hi) fun hp => hne ?_)
      exact (mark_steady (hs i)).trans hp
    commitCause := h.modes.commitCause
    exit := h.modes.exit
    exitable := h.modes.exitable }

theorem Core.squashAll (h : v.Core) (hphase : v.phase = .squash)
    (hsquash : v.startSquash width v.squashedInst v.lastCommited = some v') :
    { v' with phase := .iewSquash }.Core := by
  have hhead : ∀ i ∈ v.rob.instList, v.lastCommited ≤ v.squashedInst ∧ v.squashedInst < i := by
    intro i hi
    unfold squashedInst
    cases hl : v.rob.instList with
    | nil =>
      rw [hl] at hi
      cases hi
    | cons head tail =>
      have hmem : head ∈ v.line := by simp [line, hl]
      have hlast := h.order.lastCommited_lt head hmem
      have hpos := h.order.pos head hmem
      have hle : head ≤ i := by
        have hsorted := h.order.rob_sorted
        rw [hl] at hi hsorted
        rcases List.mem_cons.mp hi with rfl | hi
        · exact Nat.le_refl _
        · exact Nat.le_of_lt ((List.pairwise_cons.mp hsorted).1 i hi)
      constructor <;> simp only <;> omega
  refine Modes.startSquash h (.inl hphase) (fun hne => ?_) (fun i hi hle => ?_) hsquash
  · obtain ⟨i, hi⟩ := List.exists_mem_of_ne_nil _ hne
    exact (hhead i hi).1
  · have := (hhead i hi).2
    omega

theorem Core.accept {n : Nat} (h : v.Core) (hphase : v.phase = .iewSquash) (hn : n ≤ v.youngest)
    (hsquash : v.startSquash width n n = some v') : v'.Core := by
  have hcore := Modes.startSquash h (.inr hphase) (fun _ => Nat.le_refl n)
    (fun i _ hle ⟨hd, hlt⟩ => by
      have := h.control.youngest hd
      omega) hsquash
  obtain ⟨-, -, -, ⟨rob, insts, rfl⟩, -, -⟩ :=
    startSquash_inv h.order h.control (.inr hphase) (fun _ => Nat.le_refl n) hsquash
  simp only [setInsts] at hcore ⊢
  rw [hphase]
  exact hcore

/-- The exit squash kills all that is in flight: nothing in the window is older than the load
that commit takes for the cause. -/
theorem Core.runaheadExit {lll : Nat} (h : v.Core) (hphase : v.phase = .squash)
    (hlll : v.commitCause = some lll)
    (hsquash : v.leaveRunahead.startSquash width (lll - 1) (lll - 1) = some v') :
    { v' with phase := .iewSquash }.Core ∧ ∀ i ∈ v'.line, v'.Dead i := by
  have horder : v.leaveRunahead.Order := { h.order with }
  have hcontrol : v.leaveRunahead.Control := { h.control with }
  obtain ⟨horder, hcontrol, -, ⟨rob, insts, heq⟩, hlist, halive⟩ :=
    startSquash_inv horder hcontrol (.inl hphase) (fun _ => Nat.le_refl _) hsquash
  have hdead : ∀ i ∈ v'.line, v'.Dead i := by
    intro i hi
    by_contra hlive
    obtain ⟨hrob, hle⟩ := halive i hi hlive
    have hmem : i ∈ v.line := List.mem_append_left _ hrob
    have hpos := h.order.pos i hmem
    have hcause := h.order.cause_le i hmem
    have hcommit := h.modes.commitCause lll hlll
    omega
  refine ⟨⟨horder, hcontrol, ?_⟩, hdead⟩
  subst heq
  exact {
    live := fun i hi hlive => absurd (hdead i hi) hlive
    old := fun hr => by cases hr
    commitCause := h.modes.commitCause
    exit := fun he => by cases he
    exitable := fun he => by cases he }

theorem Core.enter {n head : Nat} {tail : List Nat} (h : v.Core) (hphase : v.phase = .commitInsts n)
    (hhead : v.rob.instList = head :: tail) (hmode : v.inRunahead = false) :
    { v.markRunahead with inRunahead := true, cause := head, period := v.period + 1 }.Core := by
  have hmem : head ∈ v.line := by simp [line, hhead]
  have hstatus := h.control.committing n hphase
  have hdone := h.control.done hstatus
  set v' : Window := { v.markRunahead with
    inRunahead := true, cause := head, period := v.period + 1 } with hv'
  -- marking changes the `runahead` flag only
  have hflags : ∀ i, ∃ b, v'.insts i = { v.insts i with runahead := b } := by
    intro i
    by_cases hi : i ∈ v.list.instList ∧ (v.insts i).committed = false
    · exact ⟨true, if_pos hi⟩
    · exact ⟨(v.insts i).runahead, if_neg hi⟩
  have hsquashed : ∀ i, (v'.insts i).squashed = (v.insts i).squashed := by
    intro i
    obtain ⟨b, hb⟩ := hflags i
    rw [hb]
  have hlisted : ∀ i, v.Listed i → v'.Listed i := by
    rintro i ⟨hl, hf⟩
    obtain ⟨b, hb⟩ := hflags i
    refine ⟨hl, ?_⟩
    rw [hb]
    exact hf
  have hle : ∀ i ∈ v.line, head ≤ i := by
    have hsorted := h.order.sorted
    intro i hi
    have hline : v.line = head :: (tail ++ v.front) := by simp [line, hhead]
    rw [hline] at hi hsorted
    rcases List.mem_cons.mp hi with rfl | hi
    · exact Nat.le_refl _
    · exact Nat.le_of_lt ((List.pairwise_cons.mp hsorted).1 i hi)
  -- what is not squashed gets the mark of the new period
  have hmark : ∀ i ∈ v.line, (v.insts i).squashed = false → v'.mark i = some (v.period + 1) := by
    intro i hi hq
    have hl : v.Listed i := by
      rcases List.mem_append.mp hi with hi | hi
      · exact h.order.rob i hi
      · exact h.order.front i hi hq
    have hold := h.committing hphase hi hq
    have hrunahead : (v.insts i).runahead = false := by
      by_contra hr
      simp [mark, modeMark, hmode, hr] at hold
    have hmarks : i ∈ v.list.instList ∧ (v.insts i).committed = false := ⟨hl.1, hl.2.2⟩
    have hinst : v'.insts i = (v.insts i).setRunahead := if_pos hmarks
    have hperiod : v'.markedIn i = v.period + 1 := if_pos ⟨hmarks, hrunahead⟩
    rw [mark, hinst, hperiod]
    rfl
  refine ⟨?_, ?_, ?_⟩
  · exact {
      h.order with
      cause_le := hle
      cause_lt := h.order.lt head hmem
      threadNumber := fun i => by
        obtain ⟨b, hb⟩ := hflags i
        rw [hb]
        exact h.order.threadNumber i
      rob := fun i hi => hlisted i (h.order.rob i hi)
      front := fun i hi hq => hlisted i (h.order.front i hi ((hsquashed i).symm.trans hq)) }
  · exact {
      h.control with
      walking := fun hd => by
        change v.rob.doneSquashing = false at hd
        rw [hdone] at hd
        cases hd }
  · exact {
      live := fun i hi hlive => by
        have hq : (v.insts i).squashed = false := by
          by_contra hq
          refine hlive (.inl ?_)
          rw [hsquashed]
          simpa using hq
        rw [hmark i hi hq]
        rfl
      old := fun _ i hi hne => by
        by_contra hq
        rw [hsquashed, Bool.not_eq_true] at hq
        exact hne (hmark i hi hq)
      commitCause := fun c hc =>
        Nat.le_trans (h.modes.commitCause c hc) (h.order.cause_le head hmem)
      exit := fun _ => rfl
      exitable := fun _ => rfl }

theorem endTick_insts (l : InstList) : l.endTick.insts = l.insts := by
  unfold InstList.endTick
  split <;> rfl

theorem endTick_globalSeqNum (l : InstList) : l.endTick.globalSeqNum = l.globalSeqNum := by
  unfold InstList.endTick
  split <;> rfl

theorem endTick_sublist (l : InstList) : l.endTick.instList.Sublist l.instList := by
  unfold InstList.endTick
  split
  · exact List.filter_sublist
  · exact .refl _

theorem mem_endTick {l : InstList} {i : Nat} (hi : i ∈ l.instList)
    (hp : (l.insts i).removePending = false) : i ∈ l.endTick.instList := by
  unfold InstList.endTick
  split
  · refine List.mem_filter.mpr ⟨hi, ?_⟩
    rw [hp]
    rfl
  · exact hi

theorem Core.finish (h : v.Core) (hphase : v.phase = .finish) :
    { v with
      phase := .idle, list := v.list.endTick, squashSeen := v.squashSent,
      squashSent := false }.Core := by
  set v' : Window := { v with
    phase := .idle, list := v.list.endTick, squashSeen := v.squashSent, squashSent := false }
    with hv'
  have hinsts : ∀ i, v'.insts i = v.insts i := fun i => congrFun (endTick_insts v.list) i
  have hnext : v'.list.globalSeqNum = v.list.globalSeqNum := endTick_globalSeqNum v.list
  have hsub : v'.list.instList.Sublist v.list.instList := endTick_sublist v.list
  have hlisted : ∀ i, v.Listed i → v'.Listed i := by
    rintro i ⟨hmem, hpending, hcommitted⟩
    refine ⟨mem_endTick hmem hpending, ?_⟩
    rw [hinsts]
    exact ⟨hpending, hcommitted⟩
  refine ⟨?_, ?_, ?_⟩
  · exact {
      h.order with
      lt := fun i hi => hnext ▸ h.order.lt i hi
      listSorted := h.order.listSorted.sublist hsub
      listLt := fun i hi => hnext ▸ h.order.listLt i (hsub.subset hi)
      next_pos := hnext ▸ h.order.next_pos
      cause_lt := hnext ▸ h.order.cause_lt
      last_lt := hnext ▸ h.order.last_lt
      threadNumber := fun i => by
        rw [hinsts]
        exact h.order.threadNumber i
      rob := fun i hi => hlisted i (h.order.rob i hi)
      front := fun i hi hq => hlisted i (h.order.front i hi (hinsts i ▸ hq)) }
  · exact {
      h.control with
      walking := fun hd => by
        have hw := h.control.walking hd
        refine ⟨hw.sorted, hw.mem, fun i hi hlt => ?_⟩
        rw [hinsts]
        exact hw.passed i hi hlt
      seen := fun _ => rfl
      early := fun hs => by cases hs
      sent := fun hs => by cases hs
      committing := fun _ hp => by cases hp }
  · have hidle : v.phase ≠ .idle := by simp [hphase]
    have hseen := h.control.not_seen hidle
    refine h.modes.mono rfl rfl rfl rfl rfl rfl fun i hi => ⟨hi, ?_, ?_, fun hq => ?_⟩
    · rw [mark, mark, hinsts]
    · rintro (hq | hrob | ⟨hfront, hsquash⟩)
      · exact .inl ((hinsts i).symm ▸ hq)
      · exact .inr (.inl hrob)
      · rw [hseen] at hsquash
        exact .inr (.inr ⟨hfront, .inr (by simpa using hsquash)⟩)
    · rw [hinsts]
      exact hq

/-- **The window keeps its invariant.** -/
theorem Step.core (hstep : Step width v v') (h : v.Core) : v'.Core := by
  cases hstep with
  | insts hs => exact h.insts hs
  | front hf => exact h.front hf
  | signal hr => exact h.signal hr
  | exit hr => exact h.exit hr
  | fetchSquash hphase hlist => exact h.fetchSquash hphase hlist
  | decodeSquash hn hlist => exact h.decodeSquash hn hlist
  | tick hphase hseen => exact h.tick hphase hseen
  | fetchInst _ hthread hrunahead _ hpending hcommitted =>
    exact h.fetchInst hthread hrunahead hpending hcommitted
  | discard hi hlist => exact h.discard hi hlist
  | phase hphase hidle hp _ => exact h.phase hphase hidle hp
  | walk hdone hrob => exact h.walk hdone hrob
  | walked hphase hdone => exact h.walked hphase hdone
  | squashAll hphase hsquash => exact h.squashAll hphase hsquash
  | runaheadExit hphase _ hlll hsquash => exact (h.runaheadExit hphase hlll hsquash).1
  | noSquash hphase hs => exact h.noSquash hphase hs
  | accept hphase hn hsquash => exact h.accept hphase hn hsquash
  | squashing hphase _ => exact h.squashing hphase
  | insert hphase hstatus hl hlive => exact h.insert hphase hstatus hl hlive
  | commitStatus hphase hs _ => exact h.commitStatus hphase hs
  | retire hphase hhead hlast => exact h.retire hphase hhead hlast
  | fetchFault hphase hhead hrunahead hlive => exact h.fetchFault hphase hhead hrunahead hlive
  | enter hphase hhead hmode => exact h.enter hphase hhead hmode
  | finish hphase => exact h.finish hphase

theorem steps_core (hsteps : Relation.ReflTransGen (Step width) v v') (h : v.Core) : v'.Core := by
  induction hsteps with
  | refl => exact h
  | tail _ hstep ih => exact hstep.core ih

end Moves

end Window

end Runahead
end Gem5
