import Gem5Runahead.IssueStageInv

/-!
# IssueOrder

In which order the instructions of one cycle are issued, and which are left behind.

* `Requeued` — the memory instructions that waited join the queues of their classes.
* `OldestFirst` — the instructions are taken in the order of their age, and one is left behind for a
  younger one only if all the units that could execute it are busy.
* `Issuing` — the same while the loop over the ready lists is on its way.
-/

namespace Gem5
namespace Runahead
namespace IssueStage

variable {κ : Type} [DecidableEq κ] {cfg : IssueParams κ} {s s' s'' s₀ : IssueStage κ} {i n : Nat}
  {moved moved' gone : List Nat} {c : κ}

section Requeue

/-- Only the ready lists, and where memory instructions wait, are different. -/
structure Requeued (cfg : IssueParams κ) (moved : List Nat) (s s' : IssueStage κ) : Prop where
  ok : s'.ready.Ok
  joined : ∀ c, (s'.ready.readyInsts c).Perm
    (s.ready.readyInsts c ++ moved.filter (cfg.opClass · = c))
  fuPool : s'.fuPool = s.fuPool
  toExecute : s'.toExecute = s.toExecute
  wbOutstanding : s'.wbOutstanding = s.wbOutstanding
  isSquashed : s'.isSquashed = s.isSquashed
  translationCompleted : s'.translationCompleted = s.translationCompleted
  isExecuted : s'.isExecuted = s.isExecuted

theorem Requeued.refl (h : s.ready.Ok) : Requeued cfg [] s s :=
  ⟨h, fun _ => by simp, rfl, rfl, rfl, rfl, rfl, rfl⟩

theorem Requeued.trans (h : Requeued cfg moved s s') (h' : Requeued cfg moved' s' s'') :
    Requeued cfg (moved ++ moved') s s'' := by
  refine ⟨h'.ok, fun c => ?_, h'.fuPool.trans h.fuPool, h'.toExecute.trans h.toExecute,
    h'.wbOutstanding.trans h.wbOutstanding, h'.isSquashed.trans h.isSquashed,
    h'.translationCompleted.trans h.translationCompleted, h'.isExecuted.trans h.isExecuted⟩
  rw [List.filter_append, ← List.append_assoc]
  exact (h'.joined c).trans ((h.joined c).append_right _)

theorem addReady_requeued (h : s.ready.Ok) (i : Nat) :
    ∃ s', s.addReady cfg i = some s' ∧ Requeued cfg [i] s s' ∧
      s'.deferredMemInsts = s.deferredMemInsts ∧ s'.retryMemInsts = s.retryMemInsts := by
  obtain ⟨ready, hadd, hok, hready⟩ := ReadyLists.addReady_spec h (cfg.opClass i) i
  refine ⟨{ s with ready }, by simp [addReady, hadd],
    ⟨hok, fun c => ?_, rfl, rfl, rfl, rfl, rfl, rfl⟩, rfl, rfl⟩
  rw [hready]
  by_cases hc : cfg.opClass i = c
  · subst hc
    rw [Function.update_self, List.filter_singleton]
    simp only [decide_true, cond_true]
    exact (List.perm_orderedInsert _ _ _).trans (List.perm_append_singleton i _).symm
  · rw [Function.update_of_ne (Ne.symm hc)]
    simp [hc]

theorem Requeued.deferredDone (h : Requeued cfg moved s s') : s'.deferredDone = s.deferredDone := by
  funext i
  rw [IssueStage.deferredDone, IssueStage.deferredDone, h.translationCompleted, h.isSquashed]

/-- The instructions whose translation is done, and the squashed ones, are ready again. -/
theorem requeue_deferred (h : s.ready.Ok) (hn : s.deferredMemInsts.length < n) :
    ∃ s', s.requeue cfg getDeferredMemInstToExecute n = some s' ∧
      Requeued cfg (s.deferredMemInsts.filter s.deferredDone) s s' ∧
      s'.deferredMemInsts = s.deferredMemInsts.filter (!s.deferredDone ·) ∧
      s'.retryMemInsts = s.retryMemInsts := by
  induction n generalizing s with
  | zero => exact absurd hn (Nat.not_lt_zero _)
  | succ n ih =>
    cases hfind : s.deferredMemInsts.find? s.deferredDone with
    | none =>
      have hnone := List.find?_eq_none.mp hfind
      have hempty : s.deferredMemInsts.filter s.deferredDone = [] :=
        List.filter_eq_nil_iff.mpr hnone
      refine ⟨s, by simp [requeue, getDeferredMemInstToExecute, hfind], hempty ▸ .refl h, ?_, rfl⟩
      exact (List.filter_eq_self.mpr fun i hi => by simpa using hnone i hi).symm
    | some i =>
      obtain ⟨hi, front, back, hlist, hfront⟩ := List.find?_eq_some_iff_append.mp hfind
      have hnot : i ∉ front := by
        intro hmem
        have hout := hfront i hmem
        rw [hi] at hout
        cases hout
      have herase : s.deferredMemInsts.erase i = front ++ back := by
        rw [hlist, List.erase_append_right _ hnot, List.erase_cons_head]
      have hlength : s.deferredMemInsts.length = (front ++ back).length + 1 := by
        simp [hlist, Nat.add_assoc]
      have hempty : front.filter s.deferredDone = [] :=
        List.filter_eq_nil_iff.mpr fun a ha => by simpa using hfront a ha
      obtain ⟨t, hadd, hone, hdeferred, hretry⟩ := @addReady_requeued _ _ cfg
        { s with deferredMemInsts := front ++ back } h i
      have hdone : t.deferredDone = s.deferredDone := hone.deferredDone
      obtain ⟨s', hrest, hmoved, hleft, hretry'⟩ := ih hone.ok
        (by rw [hdeferred]; simp only; omega)
      rw [hdeferred, hdone] at hmoved hleft
      have hall := hone.trans hmoved
      have hsplit : s.deferredMemInsts.filter s.deferredDone =
          [i] ++ (front ++ back).filter s.deferredDone := by
        rw [hlist, List.filter_append, List.filter_append, hempty, List.filter_cons_of_pos hi]
        rfl
      refine ⟨s', by simp [requeue, getDeferredMemInstToExecute, hfind, herase, hadd, hrest], ?_, ?_,
        hretry'.trans hretry⟩
      · rw [hsplit]
        exact ⟨hall.ok, hall.joined, hall.fuPool, hall.toExecute, hall.wbOutstanding,
          hall.isSquashed, hall.translationCompleted, hall.isExecuted⟩
      · rw [hleft, hlist]
        simp [hi]

/-- The blocked instructions are ready again, up to the first one that has been executed. -/
theorem requeue_blocked (h : s.ready.Ok) (hn : s.retryMemInsts.length < n) :
    ∃ s' moved, s.requeue cfg getBlockedMemInstToExecute n = some s' ∧ Requeued cfg moved s s' ∧
      s'.deferredMemInsts = s.deferredMemInsts ∧ (∀ i ∈ moved, s.isExecuted i = false) ∧
      (s.retryMemInsts = moved ∧ s'.retryMemInsts = [] ∨
        ∃ i, s.isExecuted i = true ∧ s.retryMemInsts = moved ++ i :: s'.retryMemInsts) := by
  induction n generalizing s with
  | zero => exact absurd hn (Nat.not_lt_zero _)
  | succ n ih =>
    cases hretry : s.retryMemInsts with
    | nil =>
      exact ⟨s, [], by simp [requeue, getBlockedMemInstToExecute, hretry], .refl h, rfl,
        fun _ hi => absurd hi List.not_mem_nil, .inl ⟨rfl, hretry⟩⟩
    | cons i rest =>
      cases hexec : s.isExecuted i with
      | true =>
        refine ⟨{ s with retryMemInsts := rest }, [],
          by simp [requeue, getBlockedMemInstToExecute, hretry, hexec],
          ⟨h, fun _ => by simp, rfl, rfl, rfl, rfl, rfl, rfl⟩, rfl,
          fun _ hi => absurd hi List.not_mem_nil, .inr ⟨i, hexec, rfl⟩⟩
      | false =>
        obtain ⟨t, hadd, hone, hdeferred, hrest⟩ := @addReady_requeued _ _ cfg
          { s with retryMemInsts := rest } h i
        obtain ⟨s', moved, hloop, hmoved, hdeferred', hnone, hends⟩ := ih hone.ok (by
          rw [hrest]
          rw [hretry, List.length_cons] at hn
          exact Nat.lt_of_succ_lt_succ hn)
        rw [hone.isExecuted] at hnone hends
        rw [hrest] at hends
        have hall := hone.trans hmoved
        refine ⟨s', i :: moved, by
          simp [requeue, getBlockedMemInstToExecute, hretry, hexec, hadd, hloop],
          ⟨hall.ok, hall.joined, hall.fuPool, hall.toExecute, hall.wbOutstanding,
            hall.isSquashed, hall.translationCompleted, hall.isExecuted⟩,
          hdeferred'.trans hdeferred, fun j hj => ?_, ?_⟩
        · rcases List.mem_cons.mp hj with rfl | hj
          · exact hexec
          · exact hnone j hj
        · rcases hends with ⟨rfl, hnil⟩ | ⟨j, hj, happ⟩
          · exact .inl ⟨rfl, hnil⟩
          · refine .inr ⟨j, hj, ?_⟩
            simp only at happ
            rw [happ, List.cons_append]

end Requeue

section Loop

/-- All the units that could execute the instructions of the class are busy. -/
def Blocked (cfg : IssueParams κ) (s : IssueStage κ) (c : κ) : Prop :=
  c ≠ cfg.noOpClass ∧ s.fuPool.capabilityList c = true ∧
    ∀ i, s.fuPool.Serves c i → s.fuPool.unitBusy i = true

/-- Those of the instructions that are issued, and not only dropped. -/
def live (s : IssueStage κ) (gone : List Nat) : List Nat := gone.filter (!s.isSquashed ·)

omit [DecidableEq κ] in
theorem Blocked.same (h : Blocked cfg s c) (hs : SameCycle s s') : Blocked cfg s' c := by
  obtain ⟨hne, hcapable, hbusy⟩ := h
  refine ⟨hne, by rw [hs.units.capabilityList]; exact hcapable, fun i hi => hs.busy i ?_⟩
  exact hbusy i ((hs.units.serves c i).mp hi)

/-- What one call takes out of the queues of `s`, in this order. -/
structure OldestFirst (cfg : IssueParams κ) (gone : List Nat) (s s' : IssueStage κ) : Prop where
  taken : ∀ c, s.ready.readyInsts c =
    gone.filter (cfg.opClass · = c) ++ s'.ready.readyInsts c
  oldest : gone.Pairwise (· ≤ ·)
  issued : s'.toExecute.issued.map Issued.inst = s.toExecute.issued.map Issued.inst ++ s.live gone
  width : (s.live gone).length ≤ cfg.totalWidth
  blocked : ∀ c, ∀ i ∈ s'.ready.readyInsts c,
    (s.live gone).length < cfg.totalWidth ∨ (∃ g ∈ gone, i < g) → Blocked cfg s' c

/-- In the loop, when it has taken `gone` out of the queues of `s₀`. -/
structure Issuing (cfg : IssueParams κ) (s₀ : IssueStage κ) (gone : List Nat) (s : Cursor κ) :
    Prop where
  sound : s.stage.Sound cfg
  same : SameCycle s₀ s.stage
  linked : s.stage.ready.Linked Set.univ (s.passed ++ s.rest)
  taken : ∀ c, s₀.ready.readyInsts c =
    gone.filter (cfg.opClass · = c) ++ s.stage.ready.readyInsts c
  oldest : gone.Pairwise (· ≤ ·)
  older : ∀ g ∈ gone, ∀ e ∈ s.rest, g ≤ e.oldestInst
  issued : s.stage.toExecute.issued.map Issued.inst =
    s₀.toExecute.issued.map Issued.inst ++ s₀.live gone
  total : s.total_issued = (s₀.live gone).length
  width : s.total_issued ≤ cfg.totalWidth
  blocked : ∀ e ∈ s.passed, Blocked cfg s.stage e.queueType

variable {cur : Cursor κ} {e : ListOrderEntry κ} {next passed : List (ListOrderEntry κ)} {k : Nat}

/-- The oldest instruction at the iterator goes, and all that is left is as old or younger. -/
theorem Issuing.pop (h : Issuing cfg s₀ gone ⟨s, passed, e :: next, k⟩)
    (hclasses : ∀ c, ∀ i ∈ s₀.ready.readyInsts c, cfg.opClass i = c)
    (hs' : s'.Sound cfg) (hsame : SameCycle s s') (hready : s'.ready = s.ready)
    (hissued : s'.toExecute.issued.map Issued.inst =
      s.toExecute.issued.map Issued.inst ++ s₀.live [e.oldestInst])
    (hk : k + (s₀.live [e.oldestInst]).length ≤ cfg.totalWidth) :
    ∃ ready next', s'.ready.popTop e.queueType next = some (ready, next') ∧
      Issuing cfg s₀ (gone ++ [e.oldestInst])
        ⟨{ s' with ready }, passed, next', k + (s₀.live [e.oldestInst]).length⟩ ∧
      ready.load next' < s.ready.load (e :: next) := by
  obtain ⟨ready, next', hpop, hlinked, hreadyInsts, hyounger, hload⟩ :=
    ReadyLists.popTop_spec h.linked
  obtain ⟨q, hq⟩ := h.linked.heads.head_cons (e := e) (by simp)
  have hclass : cfg.opClass e.oldestInst = e.queueType := by
    refine hclasses e.queueType e.oldestInst ?_
    rw [h.taken e.queueType, hq]
    simp
  have hlive : s₀.live (gone ++ [e.oldestInst]) = s₀.live gone ++ s₀.live [e.oldestInst] :=
    List.filter_append ..
  refine ⟨ready, next', hready ▸ hpop, ⟨hs'.withReady ready,
    (h.same.trans hsame).withReady ready, hlinked, fun c => ?_, ?_, fun g hg x hx => ?_, ?_, ?_, hk,
    fun x hx => (h.blocked x hx).same (hsame.withReady ready)⟩, hload⟩
  · rw [h.taken c, List.filter_append, List.append_assoc]
    simp only [hreadyInsts]
    by_cases hc : c = e.queueType
    · subst hc
      rw [Function.update_self, hq]
      simp [hclass]
    · rw [Function.update_of_ne hc]
      have hne : cfg.opClass e.oldestInst ≠ c := fun heq => hc (heq.symm.trans hclass)
      simp [hne]
  · refine List.pairwise_append.mpr ⟨h.oldest, List.pairwise_singleton _ _, fun g hg x hx => ?_⟩
    rw [List.mem_singleton.mp hx]
    exact h.older g hg e List.mem_cons_self
  · rcases List.mem_append.mp hg with hg | hg
    · exact (h.older g hg e List.mem_cons_self).trans (hyounger x hx)
    · rw [List.mem_singleton.mp hg]
      exact hyounger x hx
  · rw [hlive, ← List.append_assoc, ← h.issued]
    exact hissued
  · have htotal : k = (s₀.live gone).length := h.total
    rw [hlive, List.length_append, htotal]

/-- The unit that the loop asks for, and what becomes of the instruction. -/
theorem issue_unit (h : s.Sound cfg) (hphase : s.toExecute.phase = .executing 0)
    (hdelay : 0 < cfg.issueToExecuteDelay) (c : κ) (i : Nat) :
    ∃ idx pool, Cursor.getUnit cfg s c = some (idx, pool) ∧
      (idx = .noFreeFU ∧ Blocked cfg s c ∧ { s with fuPool := pool }.Sound cfg ∧
          SameCycle s { s with fuPool := pool } ∨
        idx ≠ .noFreeFU ∧ ∃ s' latency, { s with fuPool := pool }.issueInst c i idx = some s' ∧
          s'.Sound cfg ∧ SameCycle s s' ∧ s'.ready = s.ready ∧
          s'.toExecute.issued = s.toExecute.issued ++ [⟨i, s.toExecute.cycle, latency⟩]) := by
  by_cases hno : c = cfg.noOpClass
  · obtain ⟨s', hissue, hs'⟩ := issueInst_noUnit h hphase hdelay c i
    exact ⟨.noCapableFU, s.fuPool, by simp [Cursor.getUnit, hno], .inr ⟨by simp, s', 1, hissue, hs'⟩⟩
  obtain ⟨idx, pool, hget, hgot, hb, hsame⟩ := FUPool.getUnit_spec h.built c
  refine ⟨idx, pool, by simp [Cursor.getUnit, hno, hget], ?_⟩
  have hacc := h.accounted.got hgot
  cases hgot with
  | noCapable hcapable =>
    obtain ⟨s', hissue, hs'⟩ := issueInst_noUnit h hphase hdelay c i
    exact .inr ⟨by simp, s', 1, hissue, hs'⟩
  | noFree hcapable hall =>
    exact .inl ⟨rfl, ⟨hno, hcapable, hall⟩, ⟨hb, hsame.timed h.timed, hacc, h.outstanding,
      h.delivery⟩, ⟨hsame, fun _ hi => hi, rfl, rfl, rfl, rfl, rfl⟩⟩
  | @unit queue fu_idx hcapable hserves hfree hlt =>
    refine .inr ⟨by simp, issueInst_unit h hphase hdelay hb hsame hcapable (fun j hj => ?_) hacc i⟩
    by_cases hji : j = fu_idx
    · subst hji
      exact Function.update_self ..
    · exact (Function.update_of_ne hji ..).trans hj

/-- The loop body, at an iterator that is not at the end. -/
theorem issue_spec (h : Issuing cfg s₀ gone cur) (hdone : cur.done cfg = false)
    (hclasses : ∀ c, ∀ i ∈ s₀.ready.readyInsts c, cfg.opClass i = c)
    (hphase : s₀.toExecute.phase = .executing 0) (hdelay : 0 < cfg.issueToExecuteDelay) :
    ∃ cur', cur.issue cfg = some cur' ∧ (∃ gone', Issuing cfg s₀ gone' cur') ∧
      cur'.stage.ready.load cur'.rest < cur.stage.ready.load cur.rest := by
  obtain ⟨s, passed, rest, k⟩ := cur
  simp only [Cursor.done, Bool.or_eq_false_iff, decide_eq_false_iff_not, Nat.not_le] at hdone
  obtain ⟨hk, hrest⟩ := hdone
  cases rest with
  | nil => cases hrest
  | cons e next =>
    obtain ⟨q, hq⟩ := h.linked.heads.head_cons (e := e) (by simp)
    have hhead : (s.ready.readyInsts e.queueType).head? = some e.oldestInst := by rw [hq]; rfl
    cases hsquash : s.isSquashed e.oldestInst with
    | true =>
      have hdropped : s₀.live [e.oldestInst] = [] := by
        simp [live, ← h.same.isSquashed, hsquash]
      obtain ⟨ready, next', hpop, hpopped, hload⟩ := h.pop hclasses h.sound (.refl s) rfl
        (by rw [hdropped, List.append_nil]) (by rw [hdropped]; exact h.width)
      rw [hdropped] at hpopped
      exact ⟨_, by simp [Cursor.issue, hhead, hsquash, hpop], ⟨_, hpopped⟩, hload⟩
    | false =>
      have hlive : s₀.live [e.oldestInst] = [e.oldestInst] := by
        simp [live, ← h.same.isSquashed, hsquash]
      have hphase' : s.toExecute.phase = .executing 0 := h.same.phase.trans hphase
      obtain ⟨idx, pool, hget, ⟨rfl, hblocked, hsound, hsame⟩ |
        ⟨hidx, s', latency, hissue, hsound, hsame, hready, hissued⟩⟩ :=
        issue_unit h.sound hphase' hdelay e.queueType e.oldestInst
      · refine ⟨⟨{ s with fuPool := pool }, passed ++ [e], next, k⟩,
          by simp [Cursor.issue, hhead, hsquash, hget], ⟨gone, hsound, h.same.trans hsame, ?_,
            h.taken, h.oldest, fun g hg x hx => h.older g hg x (List.mem_cons_of_mem e hx), h.issued,
            h.total, h.width, fun x hx => ?_⟩, ?_⟩
        · rw [List.append_assoc]
          exact h.linked
        · rcases List.mem_append.mp hx with hx | hx
          · exact (h.blocked x hx).same hsame
          · rw [List.mem_singleton.mp hx]
            exact hblocked.same hsame
        · have hq' : s.ready.readyInsts e.queueType = e.oldestInst :: q := hq
          simp only [ReadyLists.load, List.map_cons, List.sum_cons, hq', List.length_cons]
          omega
      · obtain ⟨ready, next', hpop, hpopped, hload⟩ := h.pop hclasses hsound hsame hready
          (by rw [hissued, List.map_append, hlive]; rfl) (by rw [hlive]; exact hk)
        rw [hlive, List.length_singleton] at hpopped
        exact ⟨_, by simp [Cursor.issue, hhead, hsquash, hget, hidx, hissue, hpop],
          ⟨_, hpopped⟩, hload⟩

/-- The loop ends, and what it leaves behind had to wait. -/
theorem issueLoop_spec (hs : s.Sound cfg) (hready : s.ready.Ok)
    (hclasses : ∀ c, ∀ i ∈ s.ready.readyInsts c, cfg.opClass i = c)
    (hphase : s.toExecute.phase = .executing 0) (hdelay : 0 < cfg.issueToExecuteDelay) :
    ∃ s' gone, s.issueLoop cfg = some s' ∧ OldestFirst cfg gone s s' ∧ s'.Sound cfg ∧
      s'.ready.Ok ∧ SameCycle s s' := by
  have hstart : Issuing cfg s [] ⟨s, [], s.ready.listOrder, 0⟩ :=
    ⟨hs, .refl s, hready, fun _ => rfl, .nil, fun _ hg => absurd hg List.not_mem_nil,
      (List.append_nil _).symm, rfl, Nat.zero_le _, fun _ he => absurd he List.not_mem_nil⟩
  obtain ⟨⟨t, passed, rest, k⟩, hloop, ⟨gone, h⟩, hdone⟩ := While.loop_spec
    (I := fun cur => ∃ gone, Issuing cfg s gone cur) ⟨[], hstart⟩ (Nat.lt_succ_self _)
    fun cur ⟨gone, h⟩ hdone => issue_spec h hdone hclasses hphase hdelay
  refine ⟨{ t with ready := { t.ready with listOrder := passed ++ rest } }, gone,
    by simp [issueLoop, hloop], ⟨h.taken, h.oldest, h.issued, h.total ▸ h.width,
      fun c i hi hwait => ?_⟩, h.sound.withReady _, ?_, h.same.withReady _⟩
  · have hne : t.ready.readyInsts c ≠ [] := List.ne_nil_of_mem hi
    obtain ⟨e, he, hc⟩ := List.mem_map.mp (h.linked.heads.listed c trivial hne)
    subst hc
    rcases List.mem_append.mp he with he | he
    · exact h.blocked e he
    · -- the width is used up, and everything that was taken is older
      exfalso
      obtain ⟨e₀, rest', rfl⟩ : ∃ e₀ rest', rest = e₀ :: rest' := List.exists_cons_of_ne_nil
        (List.ne_nil_of_mem he)
      have hfull : cfg.totalWidth ≤ k := by simpa [Cursor.done] using hdone
      have htotal : k = (s.live gone).length := h.total
      rcases hwait with hless | ⟨g, hg, hlt⟩
      · omega
      · have hle : e₀.oldestInst ≤ i := h.linked.heads.le_of_mem he hi
        have hold := h.older g hg e₀ List.mem_cons_self
        omega
  · exact ⟨h.linked.heads, h.linked.onList, h.linked.readyIt, h.linked.nodes, h.linked.fresh⟩

end Loop

end IssueStage
end Runahead
end Gem5
