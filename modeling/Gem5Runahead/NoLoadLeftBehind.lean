import Gem5Runahead.InstAges
import Gem5Runahead.RunaheadExit

/-!
# NoLoadLeftBehind

The NLLB policy. When the exit is signalled, commit looks for the youngest load in the ROB that is
neither poisoned nor executed, and waits for this one load only: until it has been executed, or is
no longer in the ROB. Loads are executed out of order, so an older one may be left behind; but if
the load that commit waits for has left the ROB, so have all the older ones.

* `findUnsentValidLoad_spec` — the load that commit waits for.
* `tracked_load_done` — what has become of it at the exit.
* `older_load_left_behind` — an older load that is still waiting at the exit.
-/

namespace Gem5
namespace Runahead

section FindLoad

/-- A valid load that has not been executed. -/
def unsent (insts : Insts) (i : Nat) : Bool :=
  (insts i).isLoad && !(insts i).poisoned && !(insts i).executed

namespace ROB

theorem unsentValidLoad_spec {insts : Insts} {l : List Nat} :
    ∀ {limit : Int} {youngest : Nat}, l.length ≤ limit → (youngest :: l).Pairwise (· < ·) →
      unsentValidLoad insts l limit youngest = youngest ∧ (∀ i ∈ l, unsent insts i = false) ∨
        unsentValidLoad insts l limit youngest ∈ l ∧
        unsent insts (unsentValidLoad insts l limit youngest) = true ∧
        ∀ i ∈ l, unsent insts i = true → i ≤ unsentValidLoad insts l limit youngest := by
  induction l with
  | nil =>
    intro limit youngest _ _
    exact .inl ⟨rfl, by simp⟩
  | cons a l ih =>
    intro limit youngest hlimit hsorted
    rw [List.length_cons] at hlimit
    obtain ⟨hyoungest, hsorted⟩ := List.pairwise_cons.mp hsorted
    have hrest : (youngest :: l).Pairwise (· < ·) :=
      List.pairwise_cons.mpr ⟨fun i hi => hyoungest i (List.mem_cons_of_mem a hi),
        (List.pairwise_cons.mp hsorted).2⟩
    simp only [unsentValidLoad]
    split
    · -- not a valid load: the loop goes on, and does not count it
      rename_i hskip
      have ha : unsent insts a = false := by
        simp only [Bool.or_eq_true, Bool.not_eq_true'] at hskip
        rcases hskip with hload | hpoisoned
        · simp [unsent, hload]
        · simp [unsent, hpoisoned]
      rcases @ih limit _ (by omega) hrest with ⟨heq, hnone⟩ | ⟨hmem, hunsent, hmax⟩
      · exact .inl ⟨heq, List.forall_mem_cons.mpr ⟨ha, hnone⟩⟩
      · refine .inr ⟨List.mem_cons_of_mem a hmem, hunsent, List.forall_mem_cons.mpr ⟨?_, hmax⟩⟩
        intro hs
        rw [ha] at hs
        cases hs
    · rename_i hvalid
      simp only [Bool.or_eq_true, Bool.not_eq_true', not_or, Bool.not_eq_false,
        Bool.not_eq_true] at hvalid
      -- the limit is not reached before the end of the list
      have hstop : ∀ youngest, (if limit - 1 ≤ 0 then youngest else
          unsentValidLoad insts l (limit - 1) youngest) =
            unsentValidLoad insts l (limit - 1) youngest := by
        intro youngest
        split
        · have hnil : l = [] := List.eq_nil_of_length_eq_zero (by omega)
          rw [hnil, unsentValidLoad]
        · rfl
      rw [hstop]
      by_cases hexecuted : (insts a).executed = true
      · rw [if_pos hexecuted]
        have ha : unsent insts a = false := by simp [unsent, hexecuted]
        rcases @ih (limit - 1) _ (by omega) hrest with ⟨heq, hnone⟩ | ⟨hmem, hunsent, hmax⟩
        · exact .inl ⟨heq, List.forall_mem_cons.mpr ⟨ha, hnone⟩⟩
        · refine .inr ⟨List.mem_cons_of_mem a hmem, hunsent, List.forall_mem_cons.mpr ⟨?_, hmax⟩⟩
          intro hs
          rw [ha] at hs
          cases hs
      · rw [if_neg hexecuted]
        have ha : unsent insts a = true := by simp [unsent, hvalid, hexecuted]
        rcases @ih (limit - 1) _ (by omega) hsorted with ⟨heq, hnone⟩ | ⟨hmem, hunsent, hmax⟩
        · rw [heq]
          refine .inr ⟨List.mem_cons_self, ha, List.forall_mem_cons.mpr ⟨fun _ => Nat.le_refl _, ?_⟩⟩
          intro i hi hs
          rw [hnone i hi] at hs
          cases hs
        · refine .inr ⟨List.mem_cons_of_mem a hmem, hunsent, List.forall_mem_cons.mpr ⟨?_, hmax⟩⟩
          intro _
          exact Nat.le_of_lt ((List.pairwise_cons.mp hsorted).1 _ hmem)

/-- Without a limit it is the youngest valid load that has not been executed, or 0. -/
theorem findUnsentValidLoad_spec {rob : ROB} {insts : Insts}
    (hsorted : rob.instList.Pairwise (· < ·)) (hpos : ∀ i ∈ rob.instList, 0 < i) :
    rob.findUnsentValidLoad insts (-1) = 0 ∧ (∀ i ∈ rob.instList, unsent insts i = false) ∨
      rob.findUnsentValidLoad insts (-1) ∈ rob.instList ∧
      unsent insts (rob.findUnsentValidLoad insts (-1)) = true ∧
      ∀ i ∈ rob.instList, unsent insts i = true → i ≤ rob.findUnsentValidLoad insts (-1) :=
  unsentValidLoad_spec (by simp) (List.pairwise_cons.mpr ⟨hpos, hsorted⟩)

end ROB

end FindLoad

namespace Pipeline

variable {cfg : PipelineParams} {s s' s₁ s₂ s₃ s₄ : Pipeline} {ls ls₂ : List Label} {l : Label}
  {y : Nat}

/-- The load has been executed, or it has left the ROB and so have all that are older. -/
def Done (s : Pipeline) (y : Nat) : Prop :=
  (s.insts y).executed = true ∨ ∀ i ∈ s.window.line, y < i

theorem Done.ages (h : s.Done y) (hages : s.window.Ages s'.window)
    (hlt : y < s.list.globalSeqNum) : s'.Done y := by
  rcases h with hexecuted | hgone
  · exact .inl ((hages.insts y hlt).executed hexecuted)
  · right
    intro i hi
    rcases hages.line i hi with hi | hi
    · exact hgone i hi
    · exact Nat.lt_of_lt_of_le hlt hi

/-- The check of the policy succeeds only if the load is done. -/
theorem done_of_exitCondition (hcfg : cfg.exitPolicy = .nllb) (hs : s.window.Core)
    (hy : s.commit.runaheadExitSeqNum = y)
    (hpassing : y ∈ s.rob.instList ∨ ∀ i ∈ s.window.line, y < i)
    (h : s.markCompletedInsts.exitCondition cfg = true) : s.Done y := by
  have hexecuted : (s.markCompletedInsts.insts y).executed = (s.insts y).executed := by
    by_cases hcomplete : y ∈ s.commit.fromIEW.insts ∧ (s.insts y).squashed = false
    · have heq : s.markCompletedInsts.insts y = (s.insts y).setCanCommit := if_pos hcomplete
      rw [heq]
      rfl
    · have heq : s.markCompletedInsts.insts y = s.insts y := if_neg hcomplete
      rw [heq]
  have hcommit : s.markCompletedInsts.commit.runaheadExitSeqNum = y := hy
  have hrob : s.markCompletedInsts.rob = s.rob := rfl
  simp only [exitCondition, hcfg, hcommit, hexecuted, hrob, Bool.and_eq_true, Bool.or_eq_true,
    decide_eq_true_eq] at h
  obtain ⟨-, (hgone | hexecuted) | hhead⟩ := h
  · rcases hpassing with hmem | hgone'
    · exact absurd hmem hgone
    · exact .inr hgone'
  · exact .inl hexecuted
  · -- the head is younger, so the load cannot be in the ROB
    rcases hpassing with hmem | hgone
    · cases hlist : s.rob.instList with
      | nil =>
        rw [hlist] at hmem
        cases hmem
      | cons head tail =>
        have hsorted : (head :: tail).Pairwise (· < ·) := hlist ▸ hs.order.rob_sorted
        rw [hlist] at hmem hhead
        have hlt : y < head := by simpa using hhead
        rcases List.mem_cons.mp hmem with rfl | hmem
        · omega
        · have := (List.pairwise_cons.mp hsorted).1 y hmem
          omega
    · exact .inr hgone

def Label.isFinish : Label → Bool
  | .finish => true
  | _ => false

/-- The signal stands, and the step does not set `exitRunahead` unless by the check at the end of
a tick: not by a deadline, and not by a fetch fault. -/
def ByPolicy (cfg : PipelineParams) (s : Pipeline) (l : Label) : Prop :=
  s.commit.runaheadExitable = true ∧ (l.isFinish = true ∨ s.commit.exitRunahead = true ∨
    (s.step cfg l).all (fun s' => !s'.commit.exitRunahead) = true)

instance (cfg : PipelineParams) (s : Pipeline) (l : Label) : Decidable (ByPolicy cfg s l) :=
  inferInstanceAs (Decidable (_ ∧ _))

theorem exitPolicy_nllb (hcfg : cfg.exitPolicy = .nllb)
    (hload : s.rob.findUnsentValidLoad s.insts (-1) ≠ 0) : s.exitPolicy cfg = { s with
      commit := { s.commit with
        runaheadExitSeqNum := s.rob.findUnsentValidLoad s.insts (-1) } } := by
  simp only [exitPolicy, hcfg]
  rw [if_pos hload]

/-- What commit waits for after the signal: the youngest valid load that has not been executed, or
nothing. -/
theorem signal_tracks (hcfg : cfg.exitPolicy = .nllb) (hnot : s₁.commit.runaheadExitable = false)
    (hexit : s₁.commit.exitRunahead = false) (h : s₁.signalExitRunahead cfg = some s₂) :
    s₁.rob.findUnsentValidLoad s₁.insts (-1) = 0 ∨
      s₂.commit.runaheadExitSeqNum = s₁.rob.findUnsentValidLoad s₁.insts (-1) ∧
      s₂.commit.exitRunahead = false := by
  obtain ⟨-, ⟨hexitable, -⟩ | ⟨-, exit, load, -, hpolicy, heq⟩⟩ := signalExitRunahead_cases h
  · rw [hnot] at hexitable
    cases hexitable
  · by_cases hload : s₁.rob.findUnsentValidLoad s₁.insts (-1) = 0
    · exact .inl hload
    · right
      have hwait := hpolicy.symm.trans (congrArg Pipeline.commit (exitPolicy_nllb hcfg hload))
      have hset : s₁.rob.findUnsentValidLoad s₁.insts (-1) = load :=
        (congrArg Commit.runaheadExitSeqNum hwait).symm
      have hflag : s₁.commit.exitRunahead = exit := (congrArg Commit.exitRunahead hwait).symm
      obtain rfl : exit = false := hflag.symm.trans hexit
      rw [if_neg (by simp)] at heq
      subst heq
      exact ⟨hset.symm, rfl⟩

/-- Nothing but the signal changes the load that commit waits for. -/
theorem step_exitSeqNum (h : s.step cfg l = some s') (hs : s.commit.runaheadExitable = true) :
    s'.commit.runaheadExitSeqNum = s.commit.runaheadExitSeqNum := by
  cases step_exit h with
  | same heq => exact congrArg ExitState.exitSeqNum heq
  | signal hsignal =>
    obtain ⟨-, ⟨-, rfl⟩ | ⟨hnot, -⟩⟩ := signalExitRunahead_cases hsignal
    · rfl
    · rw [hs] at hnot
      cases hnot
  | deadline hfire =>
    obtain ⟨_, _, -, -, rfl, -⟩ := deadline_cases hfire
    rfl
  | exit _ hsquash =>
    obtain ⟨_, _, _, _, _, rfl⟩ := squashFromRunaheadExit_frame hsquash
    rfl
  | finish _ _ heq => exact (congrArg ExitState.exitSeqNum heq).trans rfl
  | fetchFault _ _ _ _ _ heq => exact (congrArg ExitState.exitSeqNum heq).trans rfl
  | enter _ heq => exact (congrArg ExitState.exitSeqNum heq).trans rfl

/-- Until the exit commit waits for the same load, and the flag is set only when it is done. -/
structure Waits (s₁ : Pipeline) (y : Nat) (s : Pipeline) : Prop where
  core : s.window.Core
  ages : s₁.window.Ages s.window
  exitSeqNum : s.commit.runaheadExitSeqNum = y
  done : s.commit.exitRunahead = true → s.Done y

theorem Waits.step (hcfg : cfg.exitPolicy = .nllb) (hy : y ∈ s₁.rob.instList)
    (hlt : y < s₁.list.globalSeqNum) (h : Waits s₁ y s) (hst : s.step cfg l = some s')
    (hby : ByPolicy cfg s l) : Waits s₁ y s' := by
  obtain ⟨hexitable, hset⟩ := hby
  have hages := step_ages hst h.core
  have hlt' : y < s.list.globalSeqNum := Nat.lt_of_lt_of_le hlt h.ages.next
  refine ⟨step_core hst h.core, h.ages.trans hages, (step_exitSeqNum hst hexitable).trans
    h.exitSeqNum, fun hexit' => ?_⟩
  by_cases hexit : s.commit.exitRunahead = true
  · exact (h.done hexit).ages hages hlt'
  · -- the flag is set in this step, so by the check
    rw [Bool.not_eq_true] at hexit
    have hfinish : l.isFinish = true := by
      rcases hset with hl | he | hall
      · exact hl
      · rw [hexit] at he
        cases he
      · rw [hst] at hall
        simp [hexit'] at hall
    cases l with
    | finish =>
      have hcheck : s.markCompletedInsts.exitCondition cfg = true := by
        cases step_exit hst with
        | same heq =>
          have := congrArg ExitState.exitRunahead heq
          rw [show s'.exitState.exitRunahead = true from hexit'] at this
          exact absurd (hexit.symm.trans this.symm) (by simp)
        | @finish exit _ hcondition _ heq =>
          have hnow : exit = true := (congrArg ExitState.exitRunahead heq).symm.trans hexit'
          rcases hcondition with hold | ⟨-, -, hcheck⟩
          · exact absurd (hexit.symm.trans (hold.symm.trans hnow)) (by simp)
          · exact hcheck
      have hpassing := h.ages.passing y hy hlt
      exact (done_of_exitCondition hcfg h.core h.exitSeqNum hpassing hcheck).ages hages hlt'
    | _ => cases hfinish

/-- **The load that commit waits for is done at the exit.** It is the youngest of the valid loads
that had not been executed at the signal; if it has not been executed either, all of them have
left the ROB. -/
theorem tracked_load_done (hcfg : cfg.exitPolicy = .nllb) (h : (system cfg).Reaches ls s₁)
    (hnot : s₁.commit.runaheadExitable = false) (hexit : s₁.commit.exitRunahead = false)
    (hsignal : s₁.step cfg .signalExitRunahead = some s₂)
    (hrun : ((system cfg).guard (ByPolicy cfg)).Run s₂ ls₂ s₃)
    (hend : s₃.step cfg .squash = some s₄) (hmode : s₃.inRunahead = true)
    (hmode' : s₄.inRunahead = false) :
    (∀ i ∈ s₁.rob.instList, unsent s₁.insts i = false) ∨
      ∃ y ∈ s₁.rob.instList, unsent s₁.insts y = true ∧
        (∀ i ∈ s₁.rob.instList, unsent s₁.insts i = true → i ≤ y) ∧
        ((s₃.insts y).executed = true ∨
          ∀ i ∈ s₁.rob.instList, unsent s₁.insts i = true → i ∉ s₃.rob.instList) := by
  have hcore := reaches_core h
  have hfire : s₁.signalExitRunahead cfg = some s₂ := by
    simp only [Pipeline.step] at hsignal
    split at hsignal
    · exact hsignal
    · cases hsignal
  have hpos : ∀ i ∈ s₁.rob.instList, 0 < i := fun i hi =>
    hcore.order.pos i (List.mem_append_left _ hi)
  have hsorted : s₁.rob.instList.Pairwise (· < ·) := hcore.order.rob_sorted
  rcases @ROB.findUnsentValidLoad_spec _ s₁.insts hsorted hpos with
    ⟨-, hnone⟩ | ⟨hmem, hunsent, hmax⟩
  · exact .inl hnone
  · right
    refine ⟨_, hmem, hunsent, hmax, ?_⟩
    generalize hy : s₁.rob.findUnsentValidLoad s₁.insts (-1) = y at hmem hunsent hmax ⊢
    have hlt : y < s₁.list.globalSeqNum := hcore.order.lt y (List.mem_append_left _ hmem)
    have hne : y ≠ 0 := Nat.pos_iff_ne_zero.mp (hpos y hmem)
    have hstart : Waits s₁ y s₂ := by
      rcases signal_tracks hcfg hnot hexit hfire with hzero | ⟨hload, hflag⟩
      · exact absurd (hy.symm.trans hzero) hne
      · refine ⟨step_core hsignal hcore, step_ages hsignal hcore, hload.trans hy, fun he => ?_⟩
        rw [hflag] at he
        cases he
    have hwaits : Waits s₁ y s₃ :=
      hrun.keeps (p := fun _ => True) (I := Waits s₁ y) (fun _ _ => trivial)
        (fun _ _ _ _ hs hst => hs.step hcfg hmem hlt hst.1 hst.2) hstart
    -- only the exit squash leaves runahead
    have hflag : s₃.commit.exitRunahead = true := by
      cases step_exit hend with
      | same heq =>
        have : s₄.inRunahead = s₃.inRunahead := congrArg ExitState.inRunahead heq
        rw [hmode, hmode'] at this
        cases this
      | exit hexits _ => exact exitRunahead_of_exits hexits
    rcases hwaits.done hflag with hexecuted | hgone
    · exact .inl hexecuted
    · right
      intro i hi hs hrob
      have hle := hmax i hi hs
      have := hgone i (List.mem_append_left _ hrob)
      omega

def nllb : PipelineParams := { minimumWork with commitWidth := 2, exitPolicy := .nllb }

/-- Three loads reach the ROB, the first one misses, and the CPU runs ahead of it. -/
def threeLoads : List Label :=
  tick [{ isLoad := true }, { isLoad := true }, { isLoad := true }] 0 [] 0 [{}] ++
    tick [] 3 [] 0 [{}] ++ tick [] 0 [] 0 [missed]

/-- The signal has been taken; the youngest load is executed, and the policy ends the period. -/
def youngestFirst : List Label := tick [] 0 [3] 1 [{}] ++ earlyTick [] 0 [] 0

/-- The states at the signal, after it, at the exit squash and after it. -/
def exitStates : Option (Pipeline × Pipeline × Pipeline × Pipeline) := do
  let s₁ ← threeLoads.foldlM (Pipeline.step nllb) (start {})
  let s₂ ← s₁.step nllb .signalExitRunahead
  let s₃ ← youngestFirst.foldlM
    (fun s l => if ByPolicy nllb s l then s.step nllb l else none) s₂
  let s₄ ← s₃.step nllb .squash
  return (s₁, s₂, s₃, s₄)

theorem exitStates_spec (h : exitStates = some (s₁, s₂, s₃, s₄)) :
    (system nllb).Reaches threeLoads s₁ ∧ s₁.step nllb .signalExitRunahead = some s₂ ∧
      ((system nllb).guard (ByPolicy nllb)).Run s₂ youngestFirst s₃ ∧
      s₃.step nllb .squash = some s₄ := by
  simp only [exitStates, Option.bind_eq_bind] at h
  obtain ⟨t₁, h₁, h⟩ := Option.bind_eq_some_iff.mp h
  obtain ⟨t₂, h₂, h⟩ := Option.bind_eq_some_iff.mp h
  obtain ⟨t₃, h₃, h⟩ := Option.bind_eq_some_iff.mp h
  obtain ⟨t₄, h₄, h⟩ := Option.bind_eq_some_iff.mp h
  cases h
  refine ⟨⟨start {}, ⟨{}, rfl⟩, .of_foldlM (M := system nllb) (fun _ _ _ h => h) h₁⟩, h₂,
    .of_foldlM (fun s l t hst => ?_) h₃, h₄⟩
  split at hst
  · rename_i hby
    exact ⟨hst, hby⟩
  · cases hst

/-- At the exit the youngest load has been executed; the second one has not left. -/
theorem tracked_load_done_executed : ∃ s₁ s₂ s₃ s₄,
    (system nllb).Reaches threeLoads s₁ ∧ s₁.step nllb .signalExitRunahead = some s₂ ∧
    ((system nllb).guard (ByPolicy nllb)).Run s₂ youngestFirst s₃ ∧
    s₃.step nllb .squash = some s₄ ∧
    ∃ y ∈ s₁.rob.instList, unsent s₁.insts y = true ∧ (s₃.insts y).executed = true := by
  have hrun : exitStates.any (fun (s₁, _, s₃, s₄) => !s₁.commit.runaheadExitable &&
      !s₁.commit.exitRunahead && s₃.inRunahead && !s₄.inRunahead &&
      decide (2 ∈ s₁.rob.instList) && unsent s₁.insts 2 && decide (2 ∈ s₃.rob.instList)) = true := by
    decide +kernel
  obtain ⟨⟨s₁, s₂, s₃, s₄⟩, hs, h⟩ := (Option.any_eq_true _ _).mp hrun
  obtain ⟨hreach, hsignal, hwait, hend⟩ := exitStates_spec hs
  simp only [Bool.and_eq_true, Bool.not_eq_true', decide_eq_true_eq] at h
  obtain ⟨⟨⟨⟨⟨⟨hnot, hexit⟩, hmode⟩, hmode'⟩, hmem⟩, hunsent⟩, hmem'⟩ := h
  refine ⟨s₁, s₂, s₃, s₄, hreach, hsignal, hwait, hend, ?_⟩
  rcases tracked_load_done rfl hreach hnot hexit hsignal hwait hend hmode hmode' with
    hnone | ⟨y, hy, hs, -, hexecuted | hgone⟩
  · rw [hnone 2 hmem] at hunsent
    cases hunsent
  · exact ⟨y, hy, hs, hexecuted⟩
  · exact absurd hmem' (hgone 2 hmem hunsent)

/-- The second load was valid and not executed at the signal, and it still is at the exit. -/
theorem older_load_left_behind : ∃ s₁ s₂ s₃ s₄ i,
    (system nllb).Reaches threeLoads s₁ ∧ s₁.commit.runaheadExitable = false ∧
    s₁.commit.exitRunahead = false ∧ s₁.step nllb .signalExitRunahead = some s₂ ∧
    ((system nllb).guard (ByPolicy nllb)).Run s₂ youngestFirst s₃ ∧
    s₃.step nllb .squash = some s₄ ∧ s₃.inRunahead = true ∧ s₄.inRunahead = false ∧
    i ∈ s₁.rob.instList ∧ unsent s₁.insts i = true ∧
    i ∈ s₃.rob.instList ∧ unsent s₃.insts i = true ∧ (s₃.insts i).squashed = false := by
  have hrun : exitStates.any (fun (s₁, _, s₃, s₄) => !s₁.commit.runaheadExitable &&
      !s₁.commit.exitRunahead && s₃.inRunahead && !s₄.inRunahead &&
      decide (2 ∈ s₁.rob.instList) && unsent s₁.insts 2 && decide (2 ∈ s₃.rob.instList) &&
      unsent s₃.insts 2 && !(s₃.insts 2).squashed) = true := by
    decide +kernel
  obtain ⟨⟨s₁, s₂, s₃, s₄⟩, hs, h⟩ := (Option.any_eq_true _ _).mp hrun
  obtain ⟨hreach, hsignal, hwait, hend⟩ := exitStates_spec hs
  simp only [Bool.and_eq_true, Bool.not_eq_true', decide_eq_true_eq] at h
  obtain ⟨⟨⟨⟨⟨⟨⟨⟨hnot, hexit⟩, hmode⟩, hmode'⟩, hmem⟩, hunsent⟩, hmem'⟩, hunsent'⟩, hlive⟩ := h
  exact ⟨s₁, s₂, s₃, s₄, 2, hreach, hnot, hexit, hsignal, hwait, hend, hmode, hmode', hmem, hunsent,
    hmem', hunsent', hlive⟩

end Pipeline

end Runahead
end Gem5
