import Gem5Runahead.FetchFrame
import Gem5Runahead.IEWQueues
import Gem5Runahead.ROBSquash

/-!
# EarlySquashInv

The early squash of IEW. With a squash commit sends two sequence numbers, where the squash starts
and the tail of the ROB; IEW keeps them until the next one comes, and drops what lies between. The
ROB marks the same instructions, but takes several cycles.

* `Inv` — where the instructions in IEW can be while a squash is announced, read and carried out.
* `Inv.fetchSignals`, `Inv.renameInsts`, `Inv.iewSignals`, `Inv.insideIEW` — the stages before
  commit keep it.
-/

namespace Gem5
namespace Runahead
namespace Backend

open Pipeline (Redirect)

section Signals

/-- IEW has not read its wire from commit in this tick. -/
def unread : Phase → Bool
  | .idle | .fetch | .iewSignals => true
  | _ => false

/-- Rename has not had its turn in this tick. -/
def beforeRename : Phase → Bool
  | .idle | .fetch => true
  | _ => false

/-- Commit has not started its part of the tick. -/
def beforeCommit : Phase → Bool
  | .idle | .fetch | .iewSignals | .iew | .commit => true
  | _ => false

/-- Commit has read what rename sent on. -/
def afterGetInsts : Phase → Bool
  | .commitInsts _ | .finish => true
  | _ => false

/-- The ROB goes on with a squash that the other stages know of. -/
def Walking (p : Pipeline) : Prop :=
  p.commit.status = .robSquashing ∧ p.commit.toIEW.squash = false ∧
    p.fetch.fromCommit.squash = false

/-- Commit takes no instructions from rename until fetch has squashed those on their way. -/
def Closed (p : Pipeline) : Prop :=
  p.commit.status = .trapPending ∨ p.commit.toIEW.squash = true ∨ p.fetch.fromCommit.squash = true

/-- Rename sends nothing on while the ROB squashes: it has nothing at first, and then IEW blocks
it. -/
structure Stall (p : Pipeline) : Prop where
  told : beforeCommit p.phase = true → p.commit.status = .robSquashing →
    p.iew.fromCommit.robSquashing = true
  tells : beforeCommit p.phase = false → p.commit.status = .robSquashing →
    p.commit.toIEW.robSquashing = true
  same : p.phase = .idle → p.iew.fromCommit.squash = p.fetch.fromCommit.squash
  read : unread p.phase = false → p.iew.fromCommit.squash = false
  idle : p.phase = .idle → p.front.toROB = [] ∧ p.front.toDecode = []
  fetching : unread p.phase = true → p.phase ≠ .idle → p.iew.fromCommit.squash = true →
    p.fetch.status ≠ .running ∧ p.front.queued = [] ∧ p.front.toDecode = []
  sent : Walking p → ∀ i ∈ p.front.fromRename ++ p.front.toROB, (p.insts i).squashed = true
  blocked : Walking p → beforeRename p.phase = true →
    p.front.iewBlock = true ∨ p.front.queued = []
  blocked' : Walking p → unread p.phase = false →
    p.front.iewBlock = true ∨ p.front.queued = [] ∧ p.front.toDecode = []

/-- The squashes that IEW knows of or will know of: the window it has, and those on the wires. -/
def announced (p : Pipeline) : List (Nat × Nat) :=
  (p.iew.squashedSeqNum, p.iew.squashTailSeqNum) ::
    (if p.iew.fromCommit.squash then
      [(p.iew.fromCommit.doneSeqNum, p.iew.fromCommit.squashTail)] else []) ++
    (if p.commit.toIEW.squash then
      [(p.commit.toIEW.doneSeqNum, p.commit.toIEW.squashTail)] else [])

/-- Where the latest of them starts. -/
def latest (p : Pipeline) : Nat :=
  if p.commit.toIEW.squash then p.commit.toIEW.doneSeqNum
  else if p.iew.fromCommit.squash then p.iew.fromCommit.doneSeqNum
  else p.iew.squashedSeqNum

structure Wires (p : Pipeline) : Prop where
  /-- A window that is not empty ends with an instruction that was there. -/
  bound : ∀ w ∈ announced p, w.2 < p.list.globalSeqNum ∨ w.2 ≤ w.1
  number : p.rob.doneSquashing = false → p.rob.squashedSeqNum = latest p

end Signals

section Invariant

/-- Still to come to commit. -/
def coming (p : Pipeline) : List Nat :=
  if afterGetInsts p.phase then p.front.toROB ++ p.front.queued ++ p.front.toDecode
  else p.front.insts

structure Queues (s : Backend) : Prop where
  nodup : s.held.Nodup
  lt : ∀ i ∈ s.held, i < s.pipe.list.globalSeqNum
  older : ∀ i ∈ s.held, ∀ j ∈ coming s.pipe, i < j
  fresh : ∀ i ∈ s.undispatched ++ coming s.pipe, (s.inst i).executed = false

/-- Commit has not put the instruction into the ROB, and will not do so. -/
def Outside (p : Pipeline) (i : Nat) : Prop :=
  (p.insts i).squashed = true ∨ (p.insts i).executed = true ∨
    p.window.Listed i ∧ (∀ y ∈ p.rob.instList, y < i) ∧ Closed p

/-- The squash of the ROB has marked the instruction or is still to mark it. -/
def Covered (p : Pipeline) (i : Nat) : Prop :=
  (p.insts i).squashed = true ∨ (p.insts i).executed = true ∧ i ∉ p.rob.instList ∨
    i ∈ p.rob.instList ∧ p.rob.doneSquashing = false ∧ p.rob.squashedSeqNum < i

structure Inv (s : Backend) : Prop where
  core : s.pipe.window.Core
  stall : Stall s.pipe
  wires : Wires s.pipe
  queues : Queues s
  outside : ∀ i ∈ s.inIEW, i ∉ s.pipe.rob.instList → Outside s.pipe i
  agree : ∀ w ∈ announced s.pipe, ∀ i ∈ s.inIEW ++ s.pipe.rob.instList ++ coming s.pipe,
    w.1 < i → i ≤ w.2 → Covered s.pipe i

end Invariant

section Local

variable {s s' : Backend} {i : Nat} {p p' : Pipeline}

theorem Touches.outside (h : Touches i p p') {j : Nat} (hj : Outside p j) : Outside p' j := by
  have hs := h.all j
  have hlisted : p.window.Listed j → p'.window.Listed j := by
    intro hl
    have hstay := @Window.Listed.steady _ p'.insts _ hl hs
    obtain ⟨_, _, _, _, rfl⟩ := h.frame
    exact hstay
  rcases hj with hq | he | ⟨hl, hyounger, hclosed⟩
  · exact .inl (hs.squashed hq)
  · exact .inr (.inl (hs.executed he))
  · refine .inr (.inr ⟨hlisted hl, ?_, ?_⟩)
    · rw [h.rob]
      exact hyounger
    · obtain ⟨_, _, _, _, rfl⟩ := h.frame
      exact hclosed

theorem Touches.covered (h : Touches i p p') {j : Nat} (hj : Covered p j) : Covered p' j := by
  have hs := h.all j
  rw [Covered, h.rob]
  rcases hj with hq | ⟨he, hrob⟩ | hwalk
  · exact .inl (hs.squashed hq)
  · exact .inr (.inl ⟨hs.executed he, hrob⟩)
  · exact .inr (.inr hwalk)

theorem Touches.stall (h : Touches i p p') (hp : Stall p) : Stall p' := by
  have hsquashed : ∀ j, (p.insts j).squashed = true → (p'.insts j).squashed = true :=
    fun j => (h.all j).squashed
  obtain ⟨_, _, _, _, rfl⟩ := h.frame
  exact { hp with sent := fun hw j hj => hsquashed j (hp.sent hw j hj) }

/-- A step inside IEW. -/
theorem Inv.insideIEW (h : Inv s) (hlocal : Local i s s') : Inv s' := by
  obtain ⟨htouches, hmem, hheld, hinIEW, hund, hfresh⟩ := hlocal
  have hfresh := hfresh h.queues.nodup
  have hcoming : coming s'.pipe = coming s.pipe := by
    obtain ⟨_, _, _, _, hp⟩ := htouches.frame
    rw [hp]
    rfl
  have hannounced : announced s'.pipe = announced s.pipe := by
    obtain ⟨_, _, _, _, hp⟩ := htouches.frame
    rw [hp]
    rfl
  have hnext : s'.pipe.list.globalSeqNum = s.pipe.list.globalSeqNum := by
    obtain ⟨_, _, _, _, hp⟩ := htouches.frame
    rw [hp]
  have hrob := htouches.rob
  refine ⟨htouches.core h.core, htouches.stall h.stall, ?_, ?_, fun j hj hnot => ?_,
    fun w hw j hj hlt hle => ?_⟩
  · refine ⟨fun w hw => ?_, ?_⟩
    · rw [hnext]
      exact h.wires.bound w (hannounced ▸ hw)
    · obtain ⟨_, _, _, _, hp⟩ := htouches.frame
      rw [hp]
      exact h.wires.number
  · refine ⟨?_, fun j hj => ?_, fun j hj k hk => ?_, fun j hj => ?_⟩
    · obtain ⟨l, hperm, hsub⟩ := hheld
      exact hperm.nodup_iff.mp (h.queues.nodup.sublist hsub)
    · rw [hnext]
      exact h.queues.lt j (hheld.subset hj)
    · exact h.queues.older j (hheld.subset hj) k (hcoming ▸ hk)
    · have hne : j ≠ i := by
        rintro rfl
        rcases List.mem_append.mp hj with hj | hj
        · exact hfresh hj
        · have := h.queues.older j hmem j (hcoming ▸ hj)
          omega
      have hold : j ∈ s.undispatched ++ coming s.pipe := by
        rcases List.mem_append.mp hj with hj | hj
        · exact List.mem_append_left _ (hund.subset hj)
        · exact List.mem_append_right _ (hcoming ▸ hj)
      have hsame := htouches.others j hne
      rw [inst, hsame]
      exact h.queues.fresh j hold
  · rw [hrob] at hnot
    exact htouches.outside (h.outside j (hinIEW hj) hnot)
  · rw [hannounced] at hw
    rw [hrob, hcoming] at hj
    refine htouches.covered (h.agree w hw j ?_ hlt hle)
    simp only [List.mem_append] at hj ⊢
    exact hj.imp_left (Or.imp_left fun hj => hinIEW hj)

end Local

section Fetch

variable {s : Backend} {p' : Pipeline} {cfg : PipelineParams}

/-- What tells of a squash, and what is in flight, are the same. -/
structure Alike (p p' : Pipeline) : Prop where
  phase : p'.phase = p.phase
  list : p'.list = p.list
  rob : p'.rob = p.rob
  front : p'.front = p.front
  status : p'.commit.status = p.commit.status
  toIEW : p'.commit.toIEW = p.commit.toIEW
  iew : p'.iew = p.iew
  seen : p'.fetch.fromCommit = p.fetch.fromCommit
  fetch : p.phase ≠ .idle → p'.fetch.status = .running → p.fetch.status = .running

theorem Inv.alike (h : Inv s) (ha : Alike s.pipe p') (hcore : p'.window.Core) :
    Inv { s with pipe := p' } := by
  obtain ⟨hphase, hlist, hrob, hfront, hstatus, htoIEW, hiew, hseen, hfetch⟩ := ha
  have hinsts : p'.insts = s.pipe.insts := congrArg InstList.insts hlist
  have hwalking : Walking p' → Walking s.pipe := by
    rintro ⟨hst, hsent, hs⟩
    exact ⟨hstatus ▸ hst, htoIEW ▸ hsent, hseen ▸ hs⟩
  have hcoming : coming p' = coming s.pipe := by rw [coming, coming, hphase, hfront]
  have hannounced : announced p' = announced s.pipe := by rw [announced, announced, hiew, htoIEW]
  refine ⟨hcore, ?_, ⟨?_, ?_⟩, ⟨h.queues.nodup, ?_, ?_, ?_⟩, fun i hi hnot => ?_, ?_⟩
  · exact {
      told := by rw [hphase, hstatus, hiew]; exact h.stall.told
      tells := by rw [hphase, hstatus, htoIEW]; exact h.stall.tells
      same := by rw [hphase, hiew, hseen]; exact h.stall.same
      read := by rw [hphase, hiew]; exact h.stall.read
      idle := by rw [hphase, hfront]; exact h.stall.idle
      fetching := by
        rw [hphase, hiew, hfront]
        intro hunread hidle hsq
        obtain ⟨hrun, hrest⟩ := h.stall.fetching hunread hidle hsq
        exact ⟨mt (hfetch hidle) hrun, hrest⟩
      sent := fun hw => by rw [hfront, hinsts]; exact h.stall.sent (hwalking hw)
      blocked := fun hw => by rw [hphase, hfront]; exact h.stall.blocked (hwalking hw)
      blocked' := fun hw => by rw [hphase, hfront]; exact h.stall.blocked' (hwalking hw) }
  · rw [hannounced, hlist]
    exact h.wires.bound
  · rw [hrob, latest, htoIEW, hiew]
    exact h.wires.number
  · rw [hlist]
    exact h.queues.lt
  · rw [hcoming]
    exact h.queues.older
  · rw [hcoming]
    intro i hi
    rw [inst, hinsts]
    exact h.queues.fresh i hi
  · rw [hrob] at hnot
    rcases h.outside i hi hnot with hq | he | ⟨⟨hmem, hflags⟩, hyounger, hclosed⟩
    · exact .inl (hinsts ▸ hq)
    · exact .inr (.inl (hinsts ▸ he))
    · refine .inr (.inr ⟨⟨?_, ?_⟩, hrob ▸ hyounger, ?_⟩)
      · change i ∈ p'.list.instList
        rw [hlist]
        exact hmem
      · change (p'.insts i).removePending = false ∧ (p'.insts i).committed = false
        rw [hinsts]
        exact hflags
      · rw [Closed, hstatus, htoIEW, hseen]
        exact hclosed
  · rw [hannounced, hcoming]
    intro w hw i hi hlt hle
    rw [Covered, hinsts, hrob]
    exact h.agree w hw i (hrob ▸ hi) hlt hle

theorem Inv.signalExitRunahead (h : Inv s) (hp : s.pipe.signalExitRunahead cfg = some p')
    (hcore : p'.window.Core) : Inv { s with pipe := p' } := by
  refine h.alike ?_ hcore
  obtain ⟨-, ⟨-, rfl⟩ | ⟨-, exit, load, -, -, rfl⟩⟩ := Pipeline.signalExitRunahead_cases hp
  · exact ⟨rfl, rfl, rfl, rfl, rfl, rfl, rfl, rfl, fun _ => id⟩
  · split <;> exact ⟨rfl, rfl, rfl, rfl, rfl, rfl, rfl, rfl, fun _ => id⟩

/-- Data returns for the I-cache: between two ticks. -/
theorem Inv.icacheResponse (h : Inv s) (hphase : s.pipe.phase = .idle)
    (hp : s.pipe.icacheResponse = some p') (hcore : p'.window.Core) :
    Inv { s with pipe := p' } := by
  refine h.alike ?_ hcore
  obtain ⟨_, rfl⟩ := Pipeline.icacheResponse_frame hp
  exact ⟨rfl, rfl, rfl, rfl, rfl, rfl, rfl, rfl, fun hidle => absurd hphase hidle⟩

theorem Inv.fetchWait (h : Inv s) (hp : s.pipe.fetchWait = some p') (hcore : p'.window.Core) :
    Inv { s with pipe := p' } := by
  refine h.alike ?_ hcore
  unfold Pipeline.fetchWait at hp
  split at hp
  · rename_i hrunning
    cases hp
    exact ⟨rfl, rfl, rfl, rfl, rfl, rfl, rfl, rfl, fun _ _ => hrunning⟩
  · cases hp

/-- Some instructions are squashed, and fetch has no more than before on its way. -/
structure Squashed (p : Pipeline) (l : List Nat) (p' : Pipeline) : Prop where
  list : p.list.Squashes l p'.list
  rob : p'.rob = p.rob
  coming : ∀ i ∈ coming p', i ∈ coming p
  commit : p'.commit = p.commit
  iew : p'.iew = p.iew

namespace Squashed

variable {p : Pipeline} {l : List Nat} {i : Nat}

theorem squashed (h : Squashed p l p') (hq : (p.insts i).squashed = true) :
    (p'.insts i).squashed = true := h.list.squashed hq

theorem executed (h : Squashed p l p') : (p'.insts i).executed = (p.insts i).executed := by
  change (p'.list.insts i).executed = _
  rw [h.list.insts]
  split <;> rfl

theorem covered (h : Squashed p l p') (hi : Covered p i) : Covered p' i := by
  rw [Covered, h.rob, h.executed]
  exact hi.imp_left h.squashed

theorem listed (h : Squashed p l p') (hi : p.window.Listed i) :
    (p'.insts i).squashed = true ∨ p'.window.Listed i := by
  by_cases hl : i ∈ l
  · left
    change (p'.list.insts i).squashed = true
    rw [h.list.insts, if_pos hl]
    rfl
  · right
    have hsame : p'.list.insts i = p.insts i := by
      rw [h.list.insts, if_neg hl]
      rfl
    refine ⟨h.list.instList ▸ hi.1, ?_⟩
    change (p'.list.insts i).removePending = false ∧ (p'.list.insts i).committed = false
    rw [hsame]
    exact hi.2

theorem outside (h : Squashed p l p') (hclosed : Closed p → Closed p') (hi : Outside p i) :
    Outside p' i := by
  rcases hi with hq | he | ⟨hlisted, hyounger, hc⟩
  · exact .inl (h.squashed hq)
  · exact .inr (.inl (h.executed ▸ he))
  · rcases h.listed hlisted with hq | hlisted
    · exact .inl hq
    · exact .inr (.inr ⟨hlisted, h.rob ▸ hyounger, hclosed hc⟩)

theorem wires (h : Squashed p l p') (hw : Wires p) : Wires p' := by
  refine ⟨?_, ?_⟩
  · rw [announced, h.iew, h.commit, h.list.globalSeqNum]
    exact hw.bound
  · rw [latest, h.iew, h.commit, h.rob]
    exact hw.number

theorem queues (h : Squashed s.pipe l p') (hq : Queues s) : Queues { s with pipe := p' } := by
  refine ⟨hq.nodup, fun i hi => ?_, fun i hi j hj => hq.older i hi j (h.coming j hj),
    fun i hi => ?_⟩
  · rw [h.list.globalSeqNum]
    exact hq.lt i hi
  · have hold : i ∈ s.undispatched ++ Backend.coming s.pipe :=
      (List.mem_append.mp hi).elim (List.mem_append_left _)
        fun hi => List.mem_append_right _ (h.coming i hi)
    rw [inst, h.executed]
    exact hq.fresh i hold

theorem agree (h : Squashed s.pipe l p') (hs : Inv s) : ∀ w ∈ announced p',
    ∀ i ∈ s.inIEW ++ p'.rob.instList ++ Backend.coming p', w.1 < i → i ≤ w.2 →
      Covered p' i := by
  intro w hw i hi hlt hle
  rw [announced, h.iew, h.commit] at hw
  rw [h.rob] at hi
  refine h.covered (hs.agree w hw i ?_ hlt hle)
  rcases List.mem_append.mp hi with hi | hi
  · exact List.mem_append_left _ hi
  · exact List.mem_append_right _ (h.coming i hi)

end Squashed

/-- What is listed behind the tail of the ROB is squashed when fetch sees commit's squash. -/
theorem fetchSquash_squashed {v : Window} {list : InstList} {i : Nat} (h : v.Core)
    (hlist : v.list.removeInstsNotInROB 0 v.rob.instList.getLast? = some list)
    (hi : v.Listed i) (hyounger : ∀ y ∈ v.rob.instList, y < i) :
    (list.insts i).squashed = true := by
  have hs := InstList.removeInstsNotInROB_squashes h.order.threadNumber h.order.listSorted
    (fun tail ht => (h.order.rob tail (List.mem_of_getLast? ht)).1) hlist
  rw [hs.insts, if_pos]
  · rfl
  · refine List.mem_filter.mpr ⟨hi.1, ?_⟩
    cases ht : v.rob.instList.getLast? with
    | none => rfl
    | some tail => simpa using hyounger tail (List.mem_of_getLast? ht)

theorem mem_coming_early {p : Pipeline} (hphase : afterGetInsts p.phase = false) :
    coming p = p.window.front := by
  rw [coming, hphase]
  rfl

/-- Fetch sees commit's squash. -/
theorem Inv.fetchSquash {list : InstList} {pc : PCState} (h : Inv s)
    (hphase : s.pipe.phase = .idle)
    (hlist : s.pipe.list.removeInstsNotInROB 0 s.pipe.rob.instList.getLast? = some list)
    (hp' : p' = { s.pipe with
      list := list
      fetch := { s.pipe.fetch with
        status := .squashing
        pc := pc
        fromCommit := { s.pipe.fetch.fromCommit with squash := false } }
      front := { s.pipe.front with queued := [] }
      phase := .fetch })
    (hcore : p'.window.Core) : Inv { s with pipe := p' } := by
  have hs := InstList.removeInstsNotInROB_squashes h.core.order.threadNumber
    h.core.order.listSorted (fun tail ht => (h.core.order.rob tail (List.mem_of_getLast? ht)).1)
    hlist
  have hearly : coming s.pipe = s.pipe.window.front := mem_coming_early (by rw [hphase]; rfl)
  have hfront : ∀ i ∈ s.pipe.front.insts, (list.insts i).squashed = true := by
    intro i hi
    cases hq : (s.pipe.insts i).squashed with
    | true => exact hs.squashed hq
    | false =>
      have hlisted := h.core.order.front i hi hq
      exact fetchSquash_squashed h.core hlist hlisted fun y hy => h.core.order.lt_front hy hi
  have hsquashed : Squashed s.pipe
      (s.pipe.list.instList.filter fun i => s.pipe.rob.instList.getLast?.all (· < i)) p' := by
    subst hp'
    refine ⟨hs, rfl, fun i hi => ?_, rfl, rfl⟩
    rw [hearly]
    exact (Pipeline.FrontEnd.queued_sublist (List.nil_sublist _)).subset hi
  refine ⟨hcore, ?_, hsquashed.wires h.wires, hsquashed.queues h.queues, fun i hi hnot => ?_,
    hsquashed.agree h⟩
  · subst hp'
    obtain ⟨htoROB, htoDecode⟩ := h.stall.idle hphase
    exact {
      told := fun _ => h.stall.told (by rw [hphase]; rfl)
      tells := fun hp => by cases hp
      same := fun hp => by cases hp
      read := fun hp => by cases hp
      idle := fun hp => by cases hp
      fetching := fun _ _ _ => ⟨by simp, rfl, htoDecode⟩
      sent := fun _ i hi => hfront i (by
        rcases List.mem_append.mp hi with hi | hi <;> simp [FrontEnd.insts, hi])
      blocked := fun _ _ => .inr rfl
      blocked' := fun _ hp => by cases hp }
  · subst hp'
    rcases h.outside i hi hnot with hq | he | ⟨hlisted, hyounger, -⟩
    · exact .inl (hsquashed.squashed hq)
    · exact .inr (.inl (hsquashed.executed ▸ he))
    · exact .inl (fetchSquash_squashed h.core hlist hlisted hyounger)

/-- Fetch sees no squash of commit; decode may have found one. -/
theorem Inv.fetchOn {l queued : List Nat} (h : Inv s) (hphase : s.pipe.phase = .idle)
    (hseen : s.pipe.fetch.fromCommit.squash = false)
    (hs : s.pipe.list.Squashes l p'.list) (hqueued : queued.Sublist s.pipe.front.queued)
    (hp' : ∃ status pc, p' = { s.pipe with
      list := p'.list
      fetch := { s.pipe.fetch with status, pc }
      front := { s.pipe.front with queued }
      phase := .fetch })
    (hcore : p'.window.Core) : Inv { s with pipe := p' } := by
  have hearly : coming s.pipe = s.pipe.window.front := mem_coming_early (by rw [hphase]; rfl)
  obtain ⟨status, pc, hp'⟩ := hp'
  have hsquashed : Squashed s.pipe l p' := by
    refine ⟨hs, by rw [hp'], fun i hi => ?_, by rw [hp'], by rw [hp']⟩
    rw [hearly]
    rw [hp'] at hi
    exact (Pipeline.FrontEnd.queued_sublist hqueued).subset hi
  have hsq : s.pipe.iew.fromCommit.squash = false := (h.stall.same hphase).trans hseen
  refine ⟨hcore, ?_, hsquashed.wires h.wires, hsquashed.queues h.queues, fun i hi hnot => ?_,
    hsquashed.agree h⟩
  · have hwalking : Walking p' → Walking s.pipe := by
      rw [hp']
      exact id
    have hsent : Walking p' → ∀ i ∈ s.pipe.front.fromRename ++ s.pipe.front.toROB,
        (p'.insts i).squashed = true :=
      fun hw i hi => hsquashed.squashed (h.stall.sent (hwalking hw) i hi)
    have hblocked : Walking p' → s.pipe.front.iewBlock = true ∨ queued = [] := by
      intro hw
      refine (h.stall.blocked (hwalking hw) (by rw [hphase]; rfl)).imp_right fun hnil => ?_
      rw [hnil] at hqueued
      exact List.sublist_nil.mp hqueued
    rw [hp'] at hsent hblocked ⊢
    exact {
      told := fun _ => h.stall.told (by rw [hphase]; rfl)
      tells := fun hp => by cases hp
      same := fun hp => by cases hp
      read := fun hp => by cases hp
      idle := fun hp => by cases hp
      fetching := fun _ _ hsquash => by
        rw [hsq] at hsquash
        cases hsquash
      sent := hsent
      blocked := fun hw _ => hblocked hw
      blocked' := fun _ hp => by cases hp }
  · rw [hsquashed.rob] at hnot
    refine hsquashed.outside (fun hc => ?_) (h.outside i hi hnot)
    rw [hp']
    exact hc

theorem Inv.fetchSignals {d : Option (Nat × PCState)} {t : Pipeline} (h : Inv s)
    (hphase : s.pipe.phase = .idle) (hp : s.pipe.fetchSignals d = some t)
    (hcore : { t with phase := .fetch }.window.Core) :
    Inv { s with pipe := { t with phase := .fetch } } := by
  unfold Pipeline.fetchSignals at hp
  split at hp
  · obtain ⟨list, hlist, hp⟩ := Option.bind_eq_some_iff.mp hp
    cases hp
    exact h.fetchSquash hphase hlist rfl hcore
  · rename_i hseen
    have hseen : s.pipe.fetch.fromCommit.squash = false := by simpa using hseen
    have hrefl := InstList.Squashes.refl s.pipe.list
    split at hp
    · split at hp
      · obtain ⟨list, hlist, hp⟩ := Option.bind_eq_some_iff.mp hp
        cases hp
        have hs := InstList.removeInstsUntil_squashes h.core.order.threadNumber
          h.core.order.listSorted hlist
        exact h.fetchOn hphase hseen hs List.filter_sublist ⟨_, _, rfl⟩ hcore
      · cases hp
    · split at hp
      · cases hp
        exact h.fetchOn hphase hseen hrefl (List.Sublist.refl _) ⟨_, _, rfl⟩ hcore
      · split at hp <;> cases hp
        · exact h.fetchOn hphase hseen hrefl (List.Sublist.refl _) ⟨_, _, rfl⟩ hcore
        · exact h.fetchOn hphase hseen hrefl (List.Sublist.refl _) ⟨_, _, rfl⟩ hcore

/-- In runahead, fetch discards an instruction. -/
theorem Inv.fetchDiscard {i : Nat} (h : Inv s) (hphase : s.pipe.phase = .fetch)
    (hp : s.pipe.fetchDiscard i = some p') (hcore : p'.window.Core) :
    Inv { s with pipe := p' } := by
  have hearly : coming s.pipe = s.pipe.window.front := mem_coming_early (by rw [hphase]; rfl)
  unfold Pipeline.fetchDiscard at hp
  split at hp
  · obtain ⟨list, hlist, hp⟩ := Option.bind_eq_some_iff.mp hp
    have hp' : p' = { s.pipe with
        list := list
        front := { s.pipe.front with queued := s.pipe.front.queued.filter (· ≠ i) } } :=
      (Option.some.inj hp).symm
    have hs := InstList.removeInst_squashes h.core.order.threadNumber hlist
    have hqueued : (s.pipe.front.queued.filter (· ≠ i)).Sublist s.pipe.front.queued :=
      List.filter_sublist
    generalize s.pipe.front.queued.filter (· ≠ i) = queued at hp' hqueued
    have hsquashed : Squashed s.pipe [i] p' := by
      refine ⟨by rw [hp']; exact hs, by rw [hp'], fun j hj => ?_, by rw [hp'], by rw [hp']⟩
      rw [mem_coming_early (by rw [hp', hphase]; rfl)] at hj
      rw [hearly]
      rw [hp'] at hj
      exact (Pipeline.FrontEnd.queued_sublist hqueued).subset hj
    refine ⟨hcore, ?_, hsquashed.wires h.wires, hsquashed.queues h.queues, fun j hj hnot => ?_,
      hsquashed.agree h⟩
    · have hwalking : Walking p' → Walking s.pipe := by
        rw [hp']
        exact id
      have hsent : Walking p' → ∀ j ∈ s.pipe.front.fromRename ++ s.pipe.front.toROB,
          (p'.insts j).squashed = true :=
        fun hw j hj => hsquashed.squashed (h.stall.sent (hwalking hw) j hj)
      have hnil : s.pipe.front.queued = [] → queued = [] := fun hnil =>
        List.sublist_nil.mp (hnil ▸ hqueued)
      rw [hp'] at hsent ⊢
      exact {
        h.stall with
        fetching := fun hunread hidle hsq => by
          obtain ⟨hrun, hq, hd⟩ := h.stall.fetching hunread hidle hsq
          exact ⟨hrun, hnil hq, hd⟩
        sent := hsent
        blocked := fun hw hb => (h.stall.blocked hw hb).imp_right hnil
        blocked' := fun hw hu => (h.stall.blocked' hw hu).imp_right (And.imp_left hnil) }
    · rw [hsquashed.rob] at hnot
      refine hsquashed.outside (fun hc => ?_) (h.outside j hj hnot)
      rw [hp']
      exact hc
  · cases hp

/-- A new instruction is younger than all that IEW knows. -/
theorem Inv.fetchInst {new : DynInst} {nextPC : PCState} (h : Inv s)
    (hphase : s.pipe.phase = .fetch) (hp : s.pipe.fetchInst new nextPC = some p')
    (hcore : p'.window.Core) : Inv { s with pipe := p' } := by
  have hearly : coming s.pipe = s.pipe.front.insts := mem_coming_early (by rw [hphase]; rfl)
  unfold Pipeline.fetchInst at hp
  split at hp
  · rename_i hrunning
    obtain ⟨status, hp'⟩ : ∃ status, p' = { s.pipe with
        list := s.pipe.list.addInst s.pipe.list.globalSeqNum (s.pipe.buildInst new)
        fetch := { s.pipe.fetch with pc := nextPC, status }
        front := { s.pipe.front with
          toDecode := s.pipe.front.toDecode ++ [s.pipe.list.globalSeqNum] }
        markedIn := Function.update s.pipe.markedIn s.pipe.list.globalSeqNum
          s.pipe.runaheadPeriods } := ⟨_, (Option.some.inj hp).symm⟩
    clear hp
    generalize hn : s.pipe.list.globalSeqNum = n at *
    have hold : ∀ i < n, p'.insts i = s.pipe.insts i := by
      intro i hi
      rw [hp']
      exact Function.update_of_ne (Nat.ne_of_lt hi) ..
    have hnew : (p'.insts n).executed = false := by
      have hbuilt : p'.insts n = s.pipe.buildInst new := by
        rw [hp']
        exact Function.update_self ..
      rw [hbuilt]
      rfl
    have hrob : p'.rob = s.pipe.rob := by rw [hp']
    have hnext : p'.list.globalSeqNum = n + 1 := by
      rw [hp']
      rfl
    have hcoming : coming p' = coming s.pipe ++ [n] := by
      rw [mem_coming_early (by rw [hp', hphase]; rfl), hearly, hp']
      simp [Pipeline.window, FrontEnd.insts]
    have hannounced : announced p' = announced s.pipe := by
      rw [hp']
      rfl
    have hlt : ∀ i ∈ s.inIEW ++ s.pipe.rob.instList ++ coming s.pipe, i < n := by
      intro i hi
      rw [hearly] at hi
      simp only [List.mem_append] at hi
      rw [← hn]
      rcases hi with (hi | hi) | hi
      · exact h.queues.lt i (List.mem_append_right _ hi)
      · exact h.core.order.lt i (List.mem_append_left _ hi)
      · exact h.core.order.lt i (List.mem_append_right _ hi)
    refine ⟨hcore, ?_, ⟨fun w hw => ?_, ?_⟩, ⟨h.queues.nodup, fun i hi => ?_,
      fun i hi j hj => ?_, fun i hi => ?_⟩, fun i hi hnot => ?_, fun w hw i hi hw₁ hw₂ => ?_⟩
    · have hsent : Walking s.pipe → ∀ i ∈ s.pipe.front.fromRename ++ s.pipe.front.toROB,
          (p'.insts i).squashed = true := by
        intro hw i hi
        have hmem : i ∈ coming s.pipe := by
          rw [hearly]
          rcases List.mem_append.mp hi with hi | hi <;> simp [FrontEnd.insts, hi]
        rw [hold i (hlt i (List.mem_append_right _ hmem))]
        exact h.stall.sent hw i hi
      rw [hp'] at hsent ⊢
      exact {
        told := h.stall.told
        tells := h.stall.tells
        same := h.stall.same
        read := h.stall.read
        idle := fun hidle => by
          rw [hphase] at hidle
          cases hidle
        fetching := fun hunread hidle hsq =>
          absurd hrunning (h.stall.fetching hunread hidle hsq).1
        sent := hsent
        blocked := h.stall.blocked
        blocked' := fun _ hu => by
          rw [hphase] at hu
          cases hu }
    · rw [hnext]
      refine (h.wires.bound w (hannounced ▸ hw)).imp_left fun hb => ?_
      rw [hn] at hb
      exact Nat.lt_succ_of_lt hb
    · rw [hp']
      exact h.wires.number
    · rw [hnext]
      exact Nat.lt_succ_of_lt (hn ▸ h.queues.lt i hi)
    · rw [hcoming] at hj
      rcases List.mem_append.mp hj with hj | hj
      · exact h.queues.older i hi j hj
      · rw [List.mem_singleton.mp hj]
        exact hn ▸ h.queues.lt i hi
    · rw [hcoming, ← List.append_assoc] at hi
      rcases List.mem_append.mp hi with hi | hi
      · have hmem : i ∈ s.inIEW ++ s.pipe.rob.instList ++ coming s.pipe := by
          rcases List.mem_append.mp hi with hi | hi
          · refine List.mem_append_left _ (List.mem_append_left _ ?_)
            rw [inIEW_eq]
            exact List.mem_append_right _ hi
          · exact List.mem_append_right _ hi
        rw [inst, hold i (hlt i hmem)]
        exact h.queues.fresh i hi
      · rw [List.mem_singleton.mp hi]
        exact hnew
    · rw [hrob] at hnot
      have hsame := hold i (hlt i (List.mem_append_left _ (List.mem_append_left _ hi)))
      rw [Outside, hsame]
      refine (h.outside i hi hnot).imp_right (Or.imp_right ?_)
      rintro ⟨⟨hmem, hflags⟩, hyounger, hclosed⟩
      refine ⟨⟨?_, ?_⟩, hrob ▸ hyounger, ?_⟩
      · rw [hp']
        exact List.mem_append_left _ hmem
      · change (p'.insts i).removePending = false ∧ (p'.insts i).committed = false
        rw [hsame]
        exact hflags
      · rw [hp']
        exact hclosed
    · rw [hannounced] at hw
      rw [hrob, hcoming, ← List.append_assoc] at hi
      rcases List.mem_append.mp hi with hi | hi
      · rw [Covered, hold i (hlt i hi), hrob]
        exact h.agree w hw i hi hw₁ hw₂
      · rw [List.mem_singleton.mp hi] at hw₁ hw₂
        have hb := h.wires.bound w hw
        omega
  · cases hp

/-- Rename sends some instructions on. -/
theorem Inv.renameInsts {n : Nat} {t : Pipeline} (h : Inv s) (hphase : s.pipe.phase = .fetch)
    (hp : s.pipe.renameInsts n = some t) (hcore : { t with phase := .iewSignals }.window.Core) :
    Inv { s with pipe := { t with phase := .iewSignals } } := by
  have hearly : coming s.pipe = s.pipe.window.front := mem_coming_early (by rw [hphase]; rfl)
  unfold Pipeline.renameInsts at hp
  split at hp
  · cases hp
  · rename_i hblock
    cases hp
    generalize htoROB : (s.pipe.front.queued.take n).filter (fun i => !(s.pipe.insts i).squashed) =
      toROB at hcore ⊢
    have hsub : ∀ i ∈ toROB, i ∈ s.pipe.front.queued := by
      intro i hi
      rw [← htoROB] at hi
      exact List.mem_of_mem_take (List.mem_of_mem_filter hi)
    have hsquashed : Squashed s.pipe [] { s.pipe with
        front := { s.pipe.front with queued := s.pipe.front.queued.drop n, toROB }
        phase := .iewSignals } := by
      refine ⟨.refl _, rfl, fun i hi => ?_, rfl, rfl⟩
      rw [hearly]
      rw [mem_coming_early rfl] at hi
      simp only [Pipeline.window, FrontEnd.insts, List.mem_append] at hi ⊢
      rcases hi with ((hi | hi) | hi) | hi
      · exact .inl (.inl (.inl hi))
      · exact .inl (.inr (hsub i hi))
      · exact .inl (.inr (List.mem_of_mem_drop hi))
      · exact .inr hi
    -- while the ROB squashes there is nothing to send, or rename is blocked
    have hnone : Walking s.pipe → toROB = [] := by
      intro hw
      have htake : s.pipe.front.queued.take n = [] := by
        rcases h.stall.blocked hw (by rw [hphase]; rfl) with hb | hq
        · have hn : n = 0 := by simpa [hb] using hblock
          rw [hn, List.take_zero]
        · rw [hq, List.take_nil]
      rw [← htoROB, htake, List.filter_nil]
    refine ⟨hcore, ?_, hsquashed.wires h.wires, hsquashed.queues h.queues, fun i hi hnot =>
      hsquashed.outside id (h.outside i hi hnot), hsquashed.agree h⟩
    exact {
      told := fun _ => h.stall.told (by rw [hphase]; rfl)
      tells := fun hp => by cases hp
      same := fun hp => by cases hp
      read := fun hp => by cases hp
      idle := fun hp => by cases hp
      fetching := fun _ _ hsq => by
        obtain ⟨hrun, hq, hd⟩ := h.stall.fetching (by rw [hphase]; rfl)
          (by rw [hphase]; exact Phase.noConfusion) hsq
        exact ⟨hrun, by rw [hq, List.drop_nil], hd⟩
      sent := fun hw i hi => by
        rw [hnone hw, List.append_nil] at hi
        exact h.stall.sent hw i (List.mem_append_left _ hi)
      blocked := fun _ hp => by cases hp
      blocked' := fun _ hp => by cases hp }

end Fetch

section IEW

variable {s : Backend} {p' : Pipeline} {cfg : PipelineParams}

/-- IEW reads its wire from commit. -/
theorem Inv.iewSignals {full : Bool} (h : Inv s) (hphase : s.pipe.phase = .iewSignals)
    (hp' : p' = { s.pipe.iewSignals full with phase := .iew }) (hcore : p'.window.Core) :
    Inv (s.iewSignals p') := by
  have hearly : coming s.pipe = s.pipe.front.insts := mem_coming_early (by rw [hphase]; rfl)
  have hframe : ∃ iewBlock, p' = { s.pipe with
      iew := p'.iew, front := { s.pipe.front with iewBlock }, phase := .iew } := by
    rw [hp', Pipeline.iewSignals]
    split <;> exact ⟨_, rfl⟩
  obtain ⟨iewBlock, hframe⟩ := hframe
  have hblock : Walking s.pipe → iewBlock = true ∨
      s.pipe.front.queued = [] ∧ s.pipe.front.toDecode = [] := by
    rintro ⟨hstatus, hrest⟩
    have hiewBlock : p'.front.iewBlock = iewBlock := by rw [hframe]
    rw [← hiewBlock, hp', Pipeline.iewSignals]
    split
    · rename_i hsq
      exact .inr (h.stall.fetching (by rw [hphase]; rfl) (by rw [hphase]; exact Phase.noConfusion)
        hsq).2
    · have htold := h.stall.told (by rw [hphase]; rfl) hstatus
      exact .inl (by simp [htold])
  have hiew : p'.iew.fromCommit.squash = false ∧
      (p'.iew.fromCommit.robSquashing = s.pipe.iew.fromCommit.robSquashing) ∧
      (∀ w ∈ announced p', w ∈ announced s.pipe) ∧ latest p' = latest s.pipe := by
    rw [hp', Pipeline.iewSignals]
    split
    · rename_i hsq
      refine ⟨rfl, rfl, fun w hw => ?_, ?_⟩
      · simp only [announced, hsq, Bool.false_eq_true, if_false, if_true, List.mem_append,
          List.mem_cons] at hw ⊢
        simp only [List.not_mem_nil, or_false] at hw ⊢
        rcases hw with hw | hw
        · exact .inl (.inr hw)
        · exact .inr hw
      · simp [latest, hsq]
    · rename_i hsq
      exact ⟨by simpa using hsq, rfl, fun w hw => hw, rfl⟩
  obtain ⟨hread, hrob, hannounced, hlatest⟩ := hiew
  have hcoming : coming p' = coming s.pipe := by
    rw [mem_coming_early (by rw [hframe]; rfl), hearly, hframe]
    rfl
  have hund : (s.iewSignals p').undispatched.Sublist s.undispatched := by
    simp only [undispatched, Backend.iewSignals, List.append_nil]
    split
    · exact List.sublist_append_right _ _
    · split
      · exact (List.sublist_append_left _ _).append_right _
      · exact List.Sublist.refl _
  have hinIEW : (s.iewSignals p').inIEW.Sublist s.inIEW := by
    rw [inIEW_eq, inIEW_eq]
    exact hund.append_left _
  have hheld : (s.iewSignals p').held.Sublist s.held := hinIEW.append_left _
  have hinsts : p'.insts = s.pipe.insts := by rw [hframe]; rfl
  have hrobs : p'.rob = s.pipe.rob := by rw [hframe]
  have hnext : p'.list.globalSeqNum = s.pipe.list.globalSeqNum := by rw [hframe]
  refine ⟨hcore, ?_, ⟨fun w hw => ?_, ?_⟩, ⟨h.queues.nodup.sublist hheld, fun i hi => ?_,
    fun i hi j hj => ?_, fun i hi => ?_⟩, fun i hi hnot => ?_, fun w hw i hi hlt hle => ?_⟩
  · change Stall p'
    generalize p'.iew = iew at hframe hread hrob
    subst hframe
    exact {
      told := fun _ hstatus => hrob.trans (h.stall.told (by rw [hphase]; rfl) hstatus)
      tells := fun hp => by cases hp
      same := fun hp => by cases hp
      read := fun _ => hread
      idle := fun hp => by cases hp
      fetching := fun hp => by cases hp
      sent := h.stall.sent
      blocked := fun _ hp => by cases hp
      blocked' := fun hw _ => hblock hw }
  · change w.2 < p'.list.globalSeqNum ∨ _
    rw [hnext]
    exact h.wires.bound w (hannounced w hw)
  · change p'.rob.doneSquashing = false → p'.rob.squashedSeqNum = latest p'
    rw [hlatest, hrobs]
    exact h.wires.number
  · change i < p'.list.globalSeqNum
    rw [hnext]
    exact h.queues.lt i (hheld.subset hi)
  · have hj : j ∈ coming p' := hj
    exact h.queues.older i (hheld.subset hi) j (hcoming ▸ hj)
  · change (p'.insts i).executed = false
    rw [hinsts]
    have hi : i ∈ (s.iewSignals p').undispatched ++ coming p' := hi
    rw [hcoming] at hi
    exact h.queues.fresh i ((List.mem_append.mp hi).elim
      (fun hi => List.mem_append_left _ (hund.subset hi)) (List.mem_append_right _))
  · have hnot : i ∉ p'.rob.instList := hnot
    rw [hrobs] at hnot
    change Outside p' i
    generalize p'.iew = iew at hframe
    subst hframe
    exact h.outside i (hinIEW.subset hi) hnot
  · have hi : i ∈ (s.iewSignals p').inIEW ++ p'.rob.instList ++ coming p' := hi
    rw [hrobs, hcoming] at hi
    change Covered p' i
    rw [Covered, hinsts, hrobs]
    refine h.agree w (hannounced w hw) i ?_ hlt hle
    simp only [List.mem_append] at hi ⊢
    exact hi.imp_left (Or.imp_left fun hi => hinIEW.subset hi)

/-- IEW sends instructions on to commit. -/
theorem Inv.writebackInsts {n : Nat} (h : Inv s) (hphase : s.pipe.phase = .iew)
    (hcore : { s.pipe.writebackInsts n with phase := .commit }.window.Core) :
    Inv { s with pipe := { s.pipe.writebackInsts n with phase := .commit } } := by
  have hsquashed : Squashed s.pipe [] { s.pipe.writebackInsts n with
      phase := .commit, iew := s.pipe.iew } := by
    refine ⟨.refl _, rfl, fun i hi => ?_, rfl, rfl⟩
    rw [mem_coming_early (by rw [hphase]; rfl)]
    exact hi
  exact {
    core := hcore
    stall := {
      told := fun _ => h.stall.told (by rw [hphase]; rfl)
      tells := fun hp => by cases hp
      same := fun hp => by cases hp
      read := fun _ => h.stall.read (by rw [hphase]; rfl)
      idle := fun hp => by cases hp
      fetching := fun hp => by cases hp
      sent := h.stall.sent
      blocked := fun _ hp => by cases hp
      blocked' := fun hw _ => h.stall.blocked' hw (by rw [hphase]; rfl) }
    wires := ⟨h.wires.bound, h.wires.number⟩
    queues := ⟨h.queues.nodup, h.queues.lt, (hsquashed.queues h.queues).older,
      (hsquashed.queues h.queues).fresh⟩
    outside := h.outside
    agree := hsquashed.agree h }

end IEW

end Backend
end Runahead
end Gem5
