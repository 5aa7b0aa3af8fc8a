import Gem5Runahead.IssueOrder

/-!
# IssueCycle

Runs of the issue stage over any number of cycles, with completion events, squashes, and waiting
memory instructions in between.

* `Inv` — the invariant of the runs; `step_spec` says that no operation fails, and all keep it.
* `units_accounted` — no unit is given out twice, and none is lost.
* `delivered_on_time` — every instruction is executed once, in the cycle that its latency says.
* `scheduled_oldest_first` — what one cycle issues, and what it leaves behind.
-/

namespace Gem5
namespace Runahead

/-- The stage needs a time buffer, and operations that take time, each told of once. -/
structure IssueParams.Valid {κ : Type} (cfg : IssueParams κ) : Prop where
  delay : 0 < cfg.issueToExecuteDelay
  distinct : ∀ desc ∈ cfg.fuList, FUPool.Distinct desc
  takesTime : ∀ desc ∈ cfg.fuList, FUPool.TakesTime desc

namespace IssueStage

variable {κ : Type} [DecidableEq κ] {cfg : IssueParams κ} {s s' t : IssueStage κ} {op : IssueOp}
  {ops : List IssueOp} {moved gone : List Nat}

section Invariant

/-- The queues hold instructions of their own class. -/
def Classed (cfg : IssueParams κ) (s : IssueStage κ) : Prop :=
  ∀ c, ∀ i ∈ s.ready.readyInsts c, cfg.opClass i = c

structure Inv (cfg : IssueParams κ) (s : IssueStage κ) : Prop where
  ready : s.ready.Ok
  classed : s.Classed cfg
  sound : s.Sound cfg

theorem inv_init (hcfg : cfg.Valid) (h : (system cfg).init s) : s.Inv cfg := by
  cases h
  refine ⟨ReadyLists.ok_empty, fun _ _ hi => absurd hi List.not_mem_nil,
    ⟨FUPool.create_built hcfg.distinct, FUPool.create_timed hcfg.takesTime, ?_, rfl,
      ⟨⟨_, rfl, List.length_replicate⟩, ?_, .nil, fun _ hx => absurd hx List.not_mem_nil,
        fun hnot => absurd rfl hnot⟩⟩⟩
  · exact FUPool.create_accounted cfg.fuList
  · simp only [ExecuteQueue.queueDues, DelayLine.length_dues, List.sum_replicate_nat, Nat.mul_zero,
      List.length_nil]

theorem Requeued.sound (h : Requeued cfg moved s s') (hs : s.Sound cfg) : s'.Sound cfg :=
  ⟨h.fuPool ▸ hs.built, h.fuPool ▸ hs.timed, by rw [h.fuPool, h.toExecute]; exact hs.accounted,
    by rw [h.wbOutstanding, h.toExecute]; exact hs.outstanding, h.toExecute ▸ hs.delivery⟩

theorem Requeued.classed (h : Requeued cfg moved s s') (hs : s.Classed cfg) : s'.Classed cfg := by
  intro c i hi
  rcases List.mem_append.mp ((h.joined c).mem_iff.mp hi) with hi | hi
  · exact hs c i hi
  · simpa using (List.mem_filter.mp hi).2

/-- What one call of `scheduleReadyInsts` does: `moved` are the blocked instructions that it retries,
and `gone` are those it takes out of the ready lists. -/
structure Scheduled (cfg : IssueParams κ) (moved gone : List Nat) (s s' : IssueStage κ) : Prop where
  deferred : s'.deferredMemInsts = s.deferredMemInsts.filter (!s.deferredDone ·)
  retried : s.retryMemInsts = moved ∧ s'.retryMemInsts = [] ∨
    ∃ i, s.isExecuted i = true ∧ s.retryMemInsts = moved ++ i :: s'.retryMemInsts
  waiting : ∀ i ∈ moved, s.isExecuted i = false
  conserved : ∀ c, (gone.filter (cfg.opClass · = c) ++ s'.ready.readyInsts c).Perm
    (s.ready.readyInsts c ++
      (s.deferredMemInsts.filter s.deferredDone ++ moved).filter (cfg.opClass · = c))
  oldest : gone.Pairwise (· ≤ ·)
  issued : s'.toExecute.issued.map Issued.inst = s.toExecute.issued.map Issued.inst ++ s.live gone
  width : (s.live gone).length ≤ cfg.totalWidth
  blocked : ∀ c, ∀ i ∈ s'.ready.readyInsts c,
    (s.live gone).length < cfg.totalWidth ∨ (∃ g ∈ gone, i < g) → Blocked cfg s' c

theorem scheduleReadyInsts_spec (hcfg : cfg.Valid) (h : s.Inv cfg)
    (hphase : s.toExecute.phase = .executing 0) :
    ∃ s' moved gone, s.scheduleReadyInsts cfg = some s' ∧ Scheduled cfg moved gone s s' ∧
      s'.Inv cfg ∧ s'.toExecute.phase = .executing 0 := by
  obtain ⟨t, hdeferred, hq, hleft, hretry⟩ :=
    @requeue_deferred _ _ cfg s _ h.ready (Nat.lt_succ_self _)
  obtain ⟨u, moved, hblocked, hq', hleft', hwaiting, hends⟩ :=
    @requeue_blocked _ _ cfg t _ hq.ok (Nat.lt_succ_self _)
  have hall := hq.trans hq'
  obtain ⟨s', gone, hloop, hfirst, hsound, hok, hsame⟩ := issueLoop_spec (hall.sound h.sound) hall.ok
    (hall.classed h.classed) (by rw [hall.toExecute]; exact hphase) hcfg.delay
  have hlive : u.live gone = s.live gone := by rw [live, live, hall.isSquashed]
  refine ⟨s', moved, gone, by simp [scheduleReadyInsts, hdeferred, hblocked, hloop],
    ⟨?_, ?_, ?_, fun c => ?_, hfirst.oldest, ?_, hlive ▸ hfirst.width, fun c i hi hwait => ?_⟩,
    ⟨hok, fun c i hi => ?_, hsound⟩, ?_⟩
  · rw [hsame.deferredMemInsts, hleft', hleft]
  · rw [hsame.retryMemInsts, ← hretry]
    rwa [hq.isExecuted] at hends
  · rwa [hq.isExecuted] at hwaiting
  · rw [← hfirst.taken c]
    exact hall.joined c
  · rw [hfirst.issued, hall.toExecute, hlive]
  · exact hfirst.blocked c i hi (hlive.symm ▸ hwait)
  · refine hall.classed h.classed c i ?_
    rw [hfirst.taken c]
    exact List.mem_append_right _ hi
  · rw [hsame.phase, hall.toExecute]
    exact hphase

/-- No operation fails that is allowed, and each keeps the invariant. -/
theorem step_spec (hcfg : cfg.Valid) (h : s.Inv cfg) (hop : s.Allowed op) :
    ∃ t, s.step cfg op = some t ∧ t.Inv cfg := by
  obtain ⟨hready, hclassed, hsound⟩ := h
  cases op with
  | addReady i =>
    obtain ⟨t, hadd, hq, -⟩ := @addReady_requeued _ _ cfg s hready i
    exact ⟨t, hadd, hq.ok, hq.classed hclassed, hq.sound hsound⟩
  | setSquashed | setTranslationCompleted | setExecuted | deferMemInst | blockMemInst
  | cacheUnblocked =>
    exact ⟨_, rfl, hready, hclassed, hsound.built, hsound.timed, hsound.accounted,
      hsound.outstanding, hsound.delivery⟩
  | processFUCompletion k =>
    obtain ⟨hphase, x, hk, hleft⟩ := hop
    have hdelivery := hsound.delivery.complete hphase hcfg.delay hk hleft
    have hheld := ExecuteQueue.held_complete hk
    have hout : s.wbOutstanding - 1 = (((s.toExecute.complete k x).executions.length : Nat) : Int) := by
      have hlength := (ExecuteQueue.perm_complete hk).length_eq
      rw [List.length_cons] at hlength
      rw [hsound.outstanding, hlength, Int.natCast_add, Int.cast_ofNat_Int, Int.add_sub_cancel]
    let q := s.toExecute.complete k x
    cases hfree : x.freeFU with
    | false =>
      rw [hfree] at hheld
      exact ⟨{ s with wbOutstanding := s.wbOutstanding - 1, toExecute := q },
        by simp [step, processFUCompletion, hk, hfree, q], hready, hclassed, hsound.built,
        hsound.timed, hsound.accounted.perm hheld, hout, hdelivery⟩
    | true =>
      rw [hfree] at hheld
      obtain ⟨pool, hpool, hacc, hsame, -, hb⟩ :=
        FUPool.freeUnitNextCycle_spec (hsound.accounted.perm hheld)
      exact ⟨{ s with fuPool := pool, wbOutstanding := s.wbOutstanding - 1, toExecute := q },
        by simp [step, processFUCompletion, hk, hfree, hpool, q], hready, hclassed,
        hb hsound.built, hsame.timed hsound.timed, hacc, hout, hdelivery⟩
  | processFreeUnits =>
    obtain ⟨pool, hpool, hacc, hsame, hb⟩ := FUPool.processFreeUnits_spec hsound.accounted
    exact ⟨{ s with fuPool := pool }, by simp [step, hpool], hready, hclassed, hb hsound.built,
      hsame.timed hsound.timed, hacc, hsound.outstanding, hsound.delivery⟩
  | executeInsts =>
    obtain ⟨q, hq, hdelivery, hheld, hexecutions⟩ := hsound.delivery.readSize hop.1 hop.2
    exact ⟨{ s with toExecute := q }, by simp [step, hq], hready, hclassed, hsound.built,
      hsound.timed, hheld.symm ▸ hsound.accounted, hexecutions.symm ▸ hsound.outstanding, hdelivery⟩
  | getInstToExecute =>
    obtain ⟨n, hphase⟩ := hop
    obtain ⟨q, hq, hdelivery, hheld, hexecutions⟩ := hsound.delivery.getInstToExecute hphase
    exact ⟨{ s with toExecute := q }, by simp [step, hq], hready, hclassed, hsound.built,
      hsound.timed, hheld.symm ▸ hsound.accounted, hexecutions.symm ▸ hsound.outstanding, hdelivery⟩
  | scheduleReadyInsts =>
    obtain ⟨t, -, -, hschedule, -, ⟨hready', hclassed', hsound'⟩, hphase⟩ :=
      scheduleReadyInsts_spec hcfg ⟨hready, hclassed, hsound⟩ hop
    have hlength : t.toExecute.advance.executions.length = t.toExecute.executions.length :=
      List.length_map ..
    exact ⟨{ t with toExecute := t.toExecute.advance }, by simp [step, hschedule], hready',
      hclassed', hsound'.built, hsound'.timed, ExecuteQueue.held_advance.symm ▸ hsound'.accounted,
      hlength.symm ▸ hsound'.outstanding, hsound'.delivery.advance hphase⟩

theorem reaches_inv (hcfg : cfg.Valid) (h : (system cfg).Reaches ops s) : s.Inv cfg := by
  refine h.invariant (fun s hs => inv_init hcfg hs) fun s op u hs hstep => ?_
  obtain ⟨t, ht, hinv⟩ := step_spec hcfg hs hstep.1
  rw [hstep.2] at ht
  cases ht
  exact hinv

end Invariant

section Runs

/-- The busy units are those that are to be freed, and those that an outstanding completion event
frees, each once; and no assertion of the stage fails. -/
theorem units_accounted (hcfg : cfg.Valid) (h : (system cfg).Reaches ops s) :
    (s.fuPool.unitsToBeFreed ++ s.toExecute.held).Nodup ∧
      (∀ i, s.fuPool.unitBusy i = true ↔ i ∈ s.fuPool.unitsToBeFreed ++ s.toExecute.held) ∧
      s.wbOutstanding = s.toExecute.executions.length ∧
      ∀ op, s.Allowed op → ∃ t, s.step cfg op = some t := by
  have hinv := reaches_inv hcfg h
  refine ⟨hinv.sound.accounted.nodup, hinv.sound.accounted.busy, hinv.sound.outstanding,
    fun op hop => ?_⟩
  obtain ⟨t, ht, -⟩ := step_spec hcfg hinv hop
  exact ⟨t, ht⟩

/-- Between two cycles, what has been executed is what was issued and is due by now, each
instruction once and in the cycle that it was due. -/
theorem delivered_on_time (hcfg : cfg.Valid) (h : (system cfg).Reaches ops s)
    (hidle : s.toExecute.phase = .idle) :
    s.toExecute.executed.Perm ((s.toExecute.issued.map (Issued.due cfg.issueToExecuteDelay)).filter
      (·.2 < s.toExecute.cycle)) := by
  obtain ⟨hslots, -, hexact, hpast, -⟩ := (reaches_inv hcfg h).sound.delivery
  simp only [ExecuteQueue.SlotsOk, ExecuteQueue.queueDues, hidle] at hslots hexact
  obtain ⟨l, hl, hlength⟩ := hslots
  have hdelay := hcfg.delay
  have hdone : s.toExecute.executed.filter (·.2 < s.toExecute.cycle) = s.toExecute.executed := by
    refine List.filter_eq_self.mpr fun x hx => decide_eq_true ?_
    rcases hpast x hx with hlt | ⟨-, hnot⟩
    · exact hlt
    · exact absurd hidle hnot
  have hnext : (s.toExecute.instsToExecute.zip (DelayLine.dues
      (s.toExecute.cycle + cfg.issueToExecuteDelay) s.toExecute.issueToExecute)).filter
      (·.2 < s.toExecute.cycle) = [] := by
    refine List.filter_eq_nil_iff.mpr fun x hx => ?_
    have hmem : x.2 ∈ DelayLine.dues _ _ := (List.of_mem_zip (show (x.1, x.2) ∈ _ from hx)).2
    rw [hl, DelayLine.dues_zero_cons] at hmem
    have := DelayLine.lt_of_mem_dues hmem
    simp only [decide_eq_true_eq, Nat.not_lt]
    omega
  have hlater : (s.toExecute.executions.map (FUCompletion.due cfg.issueToExecuteDelay
      s.toExecute.cycle)).filter (·.2 < s.toExecute.cycle) = [] := by
    refine List.filter_eq_nil_iff.mpr fun x hx => ?_
    obtain ⟨y, -, rfl⟩ := List.mem_map.mp hx
    intro hlt
    have hlt := of_decide_eq_true hlt
    simp only [FUCompletion.due] at hlt
    omega
  have hfilter := (hexact.filter (·.2 < s.toExecute.cycle)).symm
  rwa [List.filter_append, List.filter_append, hdone, hnext, hlater, List.append_nil,
    List.append_nil] at hfilter

/-- A cycle issues the oldest instructions first, no more than the width. If it passes an
instruction by for a younger one, or issues less, all the units of its class are busy. -/
theorem scheduled_oldest_first (hcfg : cfg.Valid) (h : (system cfg).Reaches ops s)
    (hphase : s.toExecute.phase = .executing 0) :
    ∃ s' moved gone, s.scheduleReadyInsts cfg = some s' ∧ Scheduled cfg moved gone s s' := by
  obtain ⟨s', moved, gone, hs', hscheduled, -⟩ :=
    scheduleReadyInsts_spec hcfg (reaches_inv hcfg h) hphase
  exact ⟨s', moved, gone, hs', hscheduled⟩

/-! An adder, and a divider that is not pipelined; two divisions and an addition are ready. -/

def addDivide : IssueParams Nat where
  totalWidth := 2
  issueToExecuteDelay := 1
  fuList := [⟨[⟨1, 1, true⟩], 1⟩, ⟨[⟨2, 3, false⟩], 1⟩]
  noOpClass := 0
  opClass i := if i = 3 then 1 else 2

theorem addDivide_valid : addDivide.Valid := ⟨by decide, by decide, by decide⟩

def threeReady : List IssueOp := [.addReady 2, .addReady 1, .addReady 3, .executeInsts]

def twoCycles : List IssueOp :=
  threeReady ++ [.scheduleReadyInsts, .processFreeUnits, .executeInsts, .getInstToExecute,
    .scheduleReadyInsts]

theorem threeReady_reaches : ∃ s, (system addDivide).Reaches threeReady s ∧
    s.toExecute.phase = .executing 0 ∧
    (s.scheduleReadyInsts addDivide).map (fun s => s.toExecute.issued.map Issued.inst) =
      some [1, 3] := by
  have hstart : (system addDivide).Reaches [] _ := .start rfl
  have htwo : (system addDivide).Reaches (threeReady.take 1) _ := hstart.snoc ⟨trivial, rfl⟩
  have hone : (system addDivide).Reaches (threeReady.take 2) _ := htwo.snoc ⟨trivial, rfl⟩
  have hthree : (system addDivide).Reaches (threeReady.take 3) _ := hone.snoc ⟨trivial, rfl⟩
  have hread : (system addDivide).Reaches (threeReady.take 4) _ :=
    hthree.snoc ⟨⟨rfl, fun _ hx => absurd hx List.not_mem_nil⟩, rfl⟩
  exact ⟨_, hread, rfl, by decide +kernel⟩

theorem scheduled_oldest_first_threeReady : ∃ s s' moved gone,
    (system addDivide).Reaches threeReady s ∧ s.scheduleReadyInsts addDivide = some s' ∧
      Scheduled addDivide moved gone s s' ∧ s'.toExecute.issued.map Issued.inst = [1, 3] := by
  obtain ⟨s, hreaches, hphase, hissued⟩ := threeReady_reaches
  obtain ⟨s', moved, gone, hs', hscheduled⟩ :=
    scheduled_oldest_first addDivide_valid hreaches hphase
  rw [hs', Option.map_some, Option.some.injEq] at hissued
  exact ⟨s, s', moved, gone, hreaches, hs', hscheduled, hissued⟩

theorem units_accounted_threeReady : ∃ s, (system addDivide).Reaches threeReady s ∧
    (s.fuPool.unitsToBeFreed ++ s.toExecute.held).Nodup ∧
      ∃ t, s.step addDivide .scheduleReadyInsts = some t := by
  obtain ⟨s, hreaches, hphase, -⟩ := threeReady_reaches
  obtain ⟨hnodup, -, -, hstep⟩ := units_accounted addDivide_valid hreaches
  exact ⟨s, hreaches, hnodup, hstep .scheduleReadyInsts hphase⟩

theorem twoCycles_reaches : ∃ s, (system addDivide).Reaches twoCycles s ∧
    s.toExecute.phase = .idle ∧ s.toExecute.executed = [(3, 1)] := by
  have hstart : (system addDivide).Reaches [] _ := .start rfl
  have htwo : (system addDivide).Reaches (twoCycles.take 1) _ := hstart.snoc ⟨trivial, rfl⟩
  have hone : (system addDivide).Reaches (twoCycles.take 2) _ := htwo.snoc ⟨trivial, rfl⟩
  have hthree : (system addDivide).Reaches (twoCycles.take 3) _ := hone.snoc ⟨trivial, rfl⟩
  have hread : (system addDivide).Reaches (twoCycles.take 4) _ :=
    hthree.snoc ⟨⟨rfl, fun _ hx => absurd hx List.not_mem_nil⟩, rfl⟩
  have hfirst : (system addDivide).Reaches (twoCycles.take 5) _ := hread.snoc ⟨rfl, rfl⟩
  have hfree : (system addDivide).Reaches (twoCycles.take 6) _ :=
    hfirst.snoc ⟨⟨rfl, by decide⟩, rfl⟩
  have hnext : (system addDivide).Reaches (twoCycles.take 7) _ :=
    hfree.snoc ⟨⟨rfl, by decide⟩, rfl⟩
  have hget : (system addDivide).Reaches (twoCycles.take 8) _ := hnext.snoc ⟨⟨0, rfl⟩, rfl⟩
  have hsecond : (system addDivide).Reaches (twoCycles.take 9) _ := hget.snoc ⟨rfl, rfl⟩
  exact ⟨_, hsecond, rfl, rfl⟩

theorem delivered_on_time_twoCycles : ∃ s, (system addDivide).Reaches twoCycles s ∧
    s.toExecute.executed = [(3, 1)] ∧
    s.toExecute.executed.Perm ((s.toExecute.issued.map (Issued.due 1)).filter
      (·.2 < s.toExecute.cycle)) := by
  obtain ⟨s, hreaches, hidle, hexecuted⟩ := twoCycles_reaches
  exact ⟨s, hreaches, hexecuted, delivered_on_time addDivide_valid hreaches hidle⟩

end Runs

end IssueStage
end Runahead
end Gem5
