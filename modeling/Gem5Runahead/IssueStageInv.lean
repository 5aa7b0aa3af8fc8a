import Gem5Runahead.IssueStage
import Gem5Runahead.Lib.DelayLine
import Mathlib.Data.List.Perm.Basic

/-!
# IssueStageInv

What holds of the issue stage in every cycle.

* `Delivery` — what is on its way to be executed, and when it gets there.
* `Sound` — that, and the busy units are those of the completion events that are still to come.
* `issueInst_sound`, `processFUCompletion_sound`, … — what each operation keeps.
-/

namespace Gem5
namespace Runahead

open DelayLine

/-- When the instruction is due to be executed. -/
def Issued.due (delay : Nat) (x : Issued) : Nat × Nat :=
  (x.inst, x.cycle + x.latency + delay - 1)

/-- When the instruction is executed if the event comes in so many cycles. -/
def FUCompletion.due (delay cycle : Nat) (x : FUCompletion) : Nat × Nat :=
  (x.inst, cycle + x.left + delay - 1)

namespace ExecuteQueue

variable {delay i : Nat} {q : ExecuteQueue} {x : FUCompletion}

/-- When each of the instructions to execute is handed out. -/
def queueDues (delay : Nat) (q : ExecuteQueue) : List Nat :=
  match q.phase with
  | .idle => dues (q.cycle + delay) q.issueToExecute
  | .executing n => List.replicate n q.cycle ++ dues (q.cycle + delay) q.issueToExecute

/-- The time buffer is as long as the delay, and the size of the new cycle is still zero. -/
def SlotsOk (delay : Nat) (q : ExecuteQueue) : Prop :=
  match q.phase with
  | .idle => ∃ l, q.issueToExecute = 0 :: l ∧ l.length = delay
  | .executing _ => q.issueToExecute.length = delay

/-- Every instruction that was issued has been executed when it was due, or is on its way. -/
structure Delivery (delay : Nat) (q : ExecuteQueue) : Prop where
  slots : q.SlotsOk delay
  sizes : q.instsToExecute.length = (q.queueDues delay).length
  exact : (q.issued.map (Issued.due delay)).Perm
    (q.executed ++ q.instsToExecute.zip (q.queueDues delay) ++
      q.executions.map (FUCompletion.due delay q.cycle))
  past : ∀ x ∈ q.executed, x.2 < q.cycle ∨ x.2 = q.cycle ∧ q.phase ≠ .idle
  left : q.phase ≠ .idle → ∀ x ∈ q.executions, 0 < x.left

/-- The units that are held until an operation completes. -/
def held (q : ExecuteQueue) : List Nat :=
  (q.executions.filter FUCompletion.freeFU).map FUCompletion.fuIdx

/-- One more instruction, in the newest slot. -/
theorem Delivery.issueNext (h : q.Delivery delay) (hphase : q.phase = .executing 0)
    (hdelay : 0 < delay) (i : Nat) : (q.issueNext i).Delivery delay := by
  have hslots := h.slots
  have hsizes := h.sizes
  have hexact := h.exact
  simp only [SlotsOk, queueDues, hphase, List.replicate_zero, List.nil_append]
    at hslots hsizes hexact
  have hne : q.issueToExecute ≠ [] := by
    intro hnil
    rw [hnil] at hslots
    exact absurd hslots (Nat.ne_of_lt hdelay)
  refine ⟨?_, ?_, ?_, h.past, h.left⟩
  · simp only [SlotsOk, ExecuteQueue.issueNext, hphase, List.length_modifyHead]
    exact hslots
  · simp only [queueDues, ExecuteQueue.issueNext, hphase, dues_modifyHead hne, List.replicate_zero,
      List.nil_append, List.length_append, hsizes, List.length_singleton]
  · simp only [queueDues, ExecuteQueue.issueNext, hphase, dues_modifyHead hne, List.replicate_zero,
      List.nil_append]
    rw [List.zip_append hsizes, List.map_append]
    refine (hexact.append_right _).trans ?_
    have hdue : Issued.due delay ⟨i, q.cycle, 1⟩ = (i, q.cycle + delay) := by
      simp only [Issued.due, Prod.mk.injEq, true_and]
      omega
    simp only [List.map_cons, List.map_nil, hdue, List.zip_cons_cons, List.zip_nil_right,
      List.append_assoc]
    refine List.Perm.append_left _ (List.Perm.append_left _ ?_)
    exact List.perm_append_comm

/-- One more completion event. -/
theorem Delivery.issueEvent (h : q.Delivery delay) (hx : 0 < x.left) :
    (q.issueEvent x).Delivery delay := by
  refine ⟨h.slots, h.sizes, ?_, h.past, fun hphase y hy => ?_⟩
  · simp only [ExecuteQueue.issueEvent, List.map_append, List.map_cons, List.map_nil]
    refine (h.exact.append_right _).trans ?_
    rw [List.append_assoc]
    exact .refl _
  · rcases List.mem_append.mp hy with hy | hy
    · exact h.left hphase y hy
    · rw [List.mem_singleton.mp hy]
      exact hx

theorem held_issueEvent : (q.issueEvent x).held = q.held ++ if x.freeFU then [x.fuIdx] else [] := by
  cases hfree : x.freeFU <;> simp [held, issueEvent, hfree]

theorem perm_complete {k : Nat} (hk : q.executions[k]? = some x) :
    q.executions.Perm (x :: (q.complete k x).executions) := by
  obtain ⟨hlt, rfl⟩ := List.getElem?_eq_some_iff.mp hk
  exact (List.getElem_cons_eraseIdx_perm hlt).symm

/-- A completion event that is due: the instruction goes with the size of the cycle before. -/
theorem Delivery.complete (h : q.Delivery delay) (hphase : q.phase = .idle) (hdelay : 0 < delay)
    {k : Nat} (hk : q.executions[k]? = some x) (hx : x.left = 0) :
    (q.complete k x).Delivery delay := by
  have hslots := h.slots
  have hsizes := h.sizes
  have hexact := h.exact
  simp only [SlotsOk, queueDues, hphase] at hslots hsizes hexact
  obtain ⟨l, hl, hlength⟩ := hslots
  have hne : l ≠ [] := by
    rintro rfl
    exact absurd hlength (Nat.ne_of_lt hdelay)
  have hmodify : q.issueToExecute.modify 1 (· + 1) = 0 :: l.modifyHead (· + 1) := by
    rw [hl, List.modify_succ_cons, List.modifyHead_eq_modify_zero]
  rw [hl, dues_zero_cons] at hsizes hexact
  have hperm := perm_complete hk
  refine ⟨?_, ?_, ?_, h.past, fun hnot => absurd hphase hnot⟩
  · simp only [SlotsOk, ExecuteQueue.complete, hphase, hmodify]
    exact ⟨_, rfl, by rw [List.length_modifyHead, hlength]⟩
  · simp only [queueDues, ExecuteQueue.complete, hphase, hmodify, dues_zero_cons,
      dues_modifyHead hne, List.length_append, hsizes, List.length_singleton]
  · simp only [queueDues, ExecuteQueue.complete, hphase, hmodify, dues_zero_cons,
      dues_modifyHead hne]
    have hdue : FUCompletion.due delay q.cycle x = (x.inst, q.cycle + delay - 1) := by
      rw [FUCompletion.due, hx, Nat.add_zero]
    rw [List.zip_append hsizes]
    refine hexact.trans ?_
    simp only [List.append_assoc]
    refine List.Perm.append_left _ (List.Perm.append_left _ ?_)
    have hmap := hperm.map (FUCompletion.due delay q.cycle)
    rwa [List.map_cons, hdue] at hmap

theorem Delivery.readSize (h : q.Delivery delay) (hphase : q.phase = .idle)
    (hleft : ∀ x ∈ q.executions, 0 < x.left) : ∃ q', q.readSize = some q' ∧ q'.Delivery delay ∧
      q'.held = q.held ∧ q'.executions = q.executions := by
  have hslots := h.slots
  have hsizes := h.sizes
  have hexact := h.exact
  simp only [SlotsOk, queueDues, hphase] at hslots hsizes hexact
  obtain ⟨l, hl, hlength⟩ := hslots
  obtain ⟨init, n, hinit⟩ : ∃ init n, q.issueToExecute = init ++ [n] :=
    ⟨_, _, (List.dropLast_append_getLast (by rw [hl]; exact List.cons_ne_nil _ _)).symm⟩
  have hdelay : init.length = delay := by
    have := congrArg List.length (hl.symm.trans hinit)
    simp only [List.length_cons, List.length_append, List.length_nil] at this
    omega
  have hdues : dues (q.cycle + delay) q.issueToExecute =
      List.replicate n q.cycle ++ dues (q.cycle + delay) init := by
    rw [hinit, dues_concat, hdelay, Nat.add_sub_cancel]
  refine ⟨{ q with issueToExecute := init, phase := .executing n },
    by simp [ExecuteQueue.readSize, hinit], ⟨hdelay, ?_, ?_, fun x hx => ?_, fun _ => hleft⟩, rfl,
    rfl⟩
  · exact hsizes.trans (congrArg List.length hdues)
  · rw [hdues] at hexact
    exact hexact
  · rcases h.past x hx with hlt | ⟨-, hnot⟩
    · exact .inl hlt
    · exact absurd hphase hnot

theorem Delivery.getInstToExecute (h : q.Delivery delay) {n : Nat}
    (hphase : q.phase = .executing (n + 1)) : ∃ q', q.getInstToExecute = some q' ∧
      q'.Delivery delay ∧ q'.held = q.held ∧ q'.executions = q.executions := by
  have hslots := h.slots
  have hsizes := h.sizes
  have hexact := h.exact
  simp only [SlotsOk, queueDues, hphase, List.replicate_succ, List.cons_append]
    at hslots hsizes hexact
  obtain ⟨i, rest, hinsts⟩ : ∃ i rest, q.instsToExecute = i :: rest :=
    List.exists_cons_of_length_eq_add_one hsizes
  rw [hinsts, List.length_cons, List.length_cons, Nat.succ.injEq] at hsizes
  rw [hinsts, List.zip_cons_cons] at hexact
  refine ⟨{ q with
    instsToExecute := rest, executed := q.executed ++ [(i, q.cycle)], phase := .executing n },
    by simp [ExecuteQueue.getInstToExecute, hinsts, hphase],
    ⟨hslots, hsizes, ?_, fun x hx => ?_, fun _ => h.left (by simp [hphase])⟩, rfl, rfl⟩
  · simp only [queueDues, List.append_assoc, List.cons_append, List.nil_append] at hexact ⊢
    exact hexact
  · rcases List.mem_append.mp hx with hx | hx
    · rcases h.past x hx with hlt | ⟨heq, -⟩
      · exact .inl hlt
      · exact .inr ⟨heq, by simp⟩
    · rw [List.mem_singleton.mp hx]
      exact .inr ⟨rfl, by simp⟩

theorem Delivery.advance (h : q.Delivery delay) (hphase : q.phase = .executing 0) :
    q.advance.Delivery delay := by
  have hslots := h.slots
  have hsizes := h.sizes
  have hexact := h.exact
  simp only [SlotsOk, queueDues, hphase, List.replicate_zero, List.nil_append]
    at hslots hsizes hexact
  have htop : q.cycle + 1 + delay - 1 = q.cycle + delay := by omega
  refine ⟨⟨_, rfl, hslots⟩, ?_, ?_, fun x hx => .inl ?_, fun hnot => absurd rfl hnot⟩
  · simp only [queueDues, ExecuteQueue.advance, dues_zero_cons, htop]
    exact hsizes
  · simp only [queueDues, ExecuteQueue.advance, dues_zero_cons, htop, List.map_map]
    have hmap : q.executions.map (FUCompletion.due delay (q.cycle + 1) ∘
        fun x => { x with left := x.left - 1 }) = q.executions.map (FUCompletion.due delay q.cycle) := by
      refine List.map_congr_left fun x hx => ?_
      have := h.left (by simp [hphase]) x hx
      simp only [Function.comp_apply, FUCompletion.due, Prod.mk.injEq, true_and]
      omega
    rw [hmap]
    exact hexact
  · have hx' : x ∈ q.executed := hx
    simp only [ExecuteQueue.advance]
    rcases h.past x hx' with hlt | ⟨heq, -⟩ <;> omega

theorem held_advance : q.advance.held = q.held := by
  simp only [held, advance]
  induction q.executions with
  | nil => rfl
  | cons x l ih => cases hfree : x.freeFU <;> simp [hfree, ih]

theorem held_complete {k : Nat} (hk : q.executions[k]? = some x) :
    q.held.Perm ((if x.freeFU then [x.fuIdx] else []) ++ (q.complete k x).held) := by
  have hheld := ((perm_complete hk).filter FUCompletion.freeFU).map FUCompletion.fuIdx
  cases hfree : x.freeFU <;> simpa [held, complete, hfree] using hheld

end ExecuteQueue

namespace IssueStage

variable {κ : Type} {cfg : IssueParams κ} {s s' : IssueStage κ} {i n : Nat}

section Sound

structure Sound (cfg : IssueParams κ) (s : IssueStage κ) : Prop where
  built : s.fuPool.Built
  timed : s.fuPool.Timed
  accounted : s.fuPool.Accounted s.toExecute.held
  outstanding : s.wbOutstanding = s.toExecute.executions.length
  delivery : s.toExecute.Delivery cfg.issueToExecuteDelay

/-- In a cycle: what the loop over the ready lists leaves as it is. -/
structure SameCycle (s s' : IssueStage κ) : Prop where
  units : FUPool.SameUnits s.fuPool s'.fuPool
  busy : ∀ i, s.fuPool.unitBusy i = true → s'.fuPool.unitBusy i = true
  isSquashed : s'.isSquashed = s.isSquashed
  phase : s'.toExecute.phase = s.toExecute.phase
  cycle : s'.toExecute.cycle = s.toExecute.cycle
  deferredMemInsts : s'.deferredMemInsts = s.deferredMemInsts
  retryMemInsts : s'.retryMemInsts = s.retryMemInsts

theorem SameCycle.refl (s : IssueStage κ) : SameCycle s s :=
  ⟨.refl _, fun _ h => h, rfl, rfl, rfl, rfl, rfl⟩

theorem SameCycle.trans {s'' : IssueStage κ} (h : SameCycle s s') (h' : SameCycle s' s'') :
    SameCycle s s'' :=
  ⟨h.units.trans h'.units, fun i hi => h'.busy i (h.busy i hi), h'.isSquashed.trans h.isSquashed,
    h'.phase.trans h.phase, h'.cycle.trans h.cycle, h'.deferredMemInsts.trans h.deferredMemInsts,
    h'.retryMemInsts.trans h.retryMemInsts⟩

theorem SameCycle.withReady (h : SameCycle s s') (ready : ReadyLists κ) :
    SameCycle s { s' with ready } :=
  ⟨h.units, h.busy, h.isSquashed, h.phase, h.cycle, h.deferredMemInsts, h.retryMemInsts⟩

theorem Sound.withReady (h : s.Sound cfg) (ready : ReadyLists κ) : { s with ready }.Sound cfg :=
  ⟨h.built, h.timed, h.accounted, h.outstanding, h.delivery⟩

end Sound

section IssueInst

variable {c : κ} {pool : FUPool κ}

/-- An instruction that needs no unit. -/
theorem issueInst_noUnit (h : s.Sound cfg) (hphase : s.toExecute.phase = .executing 0)
    (hdelay : 0 < cfg.issueToExecuteDelay) (c : κ) (i : Nat) :
    ∃ s', s.issueInst c i .noCapableFU = some s' ∧ s'.Sound cfg ∧ SameCycle s s' ∧
      s'.ready = s.ready ∧ s'.toExecute.issued = s.toExecute.issued ++ [⟨i, s.toExecute.cycle, 1⟩] :=
  ⟨_, rfl, ⟨h.built, h.timed, h.accounted, h.outstanding, h.delivery.issueNext hphase hdelay i⟩,
    ⟨.refl _, fun _ hi => hi, rfl, rfl, rfl, rfl, rfl⟩, rfl, rfl⟩

/-- An instruction that has just got its unit. -/
theorem issueInst_unit (h : s.Sound cfg) (hphase : s.toExecute.phase = .executing 0)
    (hdelay : 0 < cfg.issueToExecuteDelay) {fu_idx : Nat} (hb : pool.Built)
    (hsame : FUPool.SameUnits s.fuPool pool) (hcapable : s.fuPool.capabilityList c = true)
    (hbusy : ∀ i, s.fuPool.unitBusy i = true → pool.unitBusy i = true)
    (hacc : pool.Accounted (fu_idx :: s.toExecute.held)) (i : Nat) :
    ∃ s' latency, { s with fuPool := pool }.issueInst c i (.unit fu_idx) = some s' ∧ s'.Sound cfg ∧
      SameCycle s s' ∧ s'.ready = s.ready ∧
      s'.toExecute.issued = s.toExecute.issued ++ [⟨i, s.toExecute.cycle, latency⟩] := by
  have hpos : 0 < pool.maxOpLatencies c := by
    rw [hsame.maxOpLatencies]
    exact h.timed c hcapable
  obtain ⟨pool', hfree, hacc', hsame', hbusy', hb'⟩ := FUPool.freeUnitNextCycle_spec hacc
  have hunits := hsame.trans hsame'
  have hgrows : ∀ i, s.fuPool.unitBusy i = true → pool'.unitBusy i = true := by
    intro i hi
    rw [hbusy']
    exact hbusy i hi
  by_cases hone : pool.maxOpLatencies c = 1
  · -- the unit is free again in the next cycle
    exact ⟨{ s with fuPool := pool', toExecute := s.toExecute.issueNext i }, 1,
      by simp [issueInst, hone, hfree],
      ⟨hb' hb, hunits.timed h.timed, hacc', h.outstanding, h.delivery.issueNext hphase hdelay i⟩,
      ⟨hunits, hgrows, rfl, rfl, rfl, rfl, rfl⟩, rfl, rfl⟩
  have hzero : pool.maxOpLatencies c ≠ 0 := Nat.ne_of_gt hpos
  have hout : ∀ x : FUCompletion, s.wbOutstanding + 1 =
      (((s.toExecute.issueEvent x).executions.length : Nat) : Int) := by
    intro x
    rw [h.outstanding, ExecuteQueue.issueEvent, List.length_append, List.length_singleton,
      Int.natCast_add, Int.cast_ofNat_Int]
  cases hpipe : pool.pipelined c with
  | true =>
    let x : FUCompletion := ⟨i, fu_idx, false, pool.maxOpLatencies c⟩
    have hheld : (s.toExecute.issueEvent x).held = s.toExecute.held := by
      simp [ExecuteQueue.held_issueEvent, x]
    exact ⟨{ s with
      fuPool := pool'
      wbOutstanding := s.wbOutstanding + 1
      toExecute := s.toExecute.issueEvent x }, pool.maxOpLatencies c,
      by simp [issueInst, hone, hzero, hpipe, hfree, x],
      ⟨hb' hb, hunits.timed h.timed, hheld ▸ hacc', hout x, h.delivery.issueEvent hpos⟩,
      ⟨hunits, hgrows, rfl, rfl, rfl, rfl, rfl⟩, rfl, rfl⟩
  | false =>
    let x : FUCompletion := ⟨i, fu_idx, true, pool.maxOpLatencies c⟩
    have hheld : (fu_idx :: s.toExecute.held).Perm (s.toExecute.issueEvent x).held := by
      rw [ExecuteQueue.held_issueEvent]
      exact (List.perm_append_singleton fu_idx _).symm
    exact ⟨{ s with
      fuPool := pool
      wbOutstanding := s.wbOutstanding + 1
      toExecute := s.toExecute.issueEvent x }, pool.maxOpLatencies c,
      by simp [issueInst, hone, hzero, hpipe, x],
      ⟨hb, hsame.timed h.timed, hacc.perm hheld, hout x, h.delivery.issueEvent hpos⟩,
      ⟨hsame, hbusy, rfl, rfl, rfl, rfl, rfl⟩, rfl, rfl⟩

end IssueInst

end IssueStage
end Runahead
end Gem5
