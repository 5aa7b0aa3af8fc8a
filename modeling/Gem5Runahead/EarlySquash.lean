import Gem5Runahead.EarlySquashCommit
import Gem5Runahead.RunaheadExit

/-!
# EarlySquash

IEW drops early what the ROB squashes in the end, and nothing else.

* `step_inv`, `reaches_inv` — every step keeps the invariant, so every run does.
* `run_toMark` — what a squash of the ROB is to mark it does mark.
* `early_squash_agrees` — what IEW drops early is squashed already or will be marked by the squash
  that was announced, and was fetched before the squash was announced.
-/

namespace Gem5
namespace Runahead
namespace Backend

open Pipeline (CommitEnv)

section Step

variable {s s' : Backend} {cfg : PipelineParams}

theorem start_inv (pc : PCState) : Inv { pipe := Pipeline.start pc } where
  core := Pipeline.start_core pc
  stall := {
    told := fun _ hs => by cases hs
    tells := fun hp => by cases hp
    same := fun _ => rfl
    read := fun hp => by cases hp
    idle := fun _ => ⟨rfl, rfl⟩
    fetching := fun _ hp => absurd rfl hp
    sent := fun hw => by cases hw.1
    blocked := fun hw => by cases hw.1
    blocked' := fun hw => by cases hw.1 }
  wires := {
    bound := fun w hw => by
      rw [List.mem_singleton.mp hw]
      exact .inr (Nat.le_refl 0)
    number := fun hd => by cases hd }
  queues := {
    nodup := .nil
    lt := fun _ hi => by cases hi
    older := fun _ hi => by cases hi
    fresh := fun _ hi => by cases hi }
  outside := fun _ hi => by cases hi
  agree := fun _ _ _ hi => by cases hi

/-- A step of another stage. -/
theorem Inv.pipeStep {l : Pipeline.Label} {p' : Pipeline} (h : Inv s) (hallows : s.Allows l)
    (hp : s.pipe.step cfg l = some p') : Inv (s.follow p' l) := by
  have hcore := Pipeline.step_core hp h.core
  cases l with
  | execute | dataReturn | dispatchNonSpec => exact hallows.elim
  | signalExitRunahead =>
    simp only [Pipeline.step] at hp
    split at hp
    · exact h.signalExitRunahead hp hcore
    · cases hp
  | deadline k =>
    simp only [Pipeline.step] at hp
    split at hp
    · obtain ⟨_, _, -, -, rfl, -⟩ := Pipeline.deadline_cases hp
      exact h.alike ⟨rfl, rfl, rfl, rfl, rfl, rfl, rfl, rfl, fun _ => id⟩ hcore
    · cases hp
  | processTrapEvent =>
    simp only [Pipeline.step] at hp
    split at hp
    · obtain ⟨_, _, rfl⟩ := Pipeline.processTrapEvent_frame hp
      exact h.alike ⟨rfl, rfl, rfl, rfl, rfl, rfl, rfl, rfl, fun _ => id⟩ hcore
    · cases hp
  | drain =>
    simp only [Pipeline.step] at hp
    split at hp
    · cases hp
      exact h.alike ⟨rfl, rfl, rfl, rfl, rfl, rfl, rfl, rfl, fun _ => id⟩ hcore
    · cases hp
  | drainResume =>
    simp only [Pipeline.step] at hp
    split at hp
    · cases hp
      exact h.alike ⟨rfl, rfl, rfl, rfl, rfl, rfl, rfl, rfl, fun _ => id⟩ hcore
    · cases hp
  | tcWrite pc =>
    simp only [Pipeline.step] at hp
    split at hp
    · obtain ⟨_, rfl⟩ := Pipeline.tcWrite_frame hp
      exact h.alike ⟨rfl, rfl, rfl, rfl, rfl, rfl, rfl, rfl, fun _ => id⟩ hcore
    · cases hp
  | icacheResponse =>
    simp only [Pipeline.step] at hp
    split at hp
    · rename_i hphase
      exact h.icacheResponse hphase hp hcore
    · cases hp
  | fetchSignals d =>
    simp only [Pipeline.step] at hp
    split at hp
    · rename_i hphase
      obtain ⟨t, ht, hp⟩ := Option.bind_eq_some_iff.mp hp
      cases hp
      exact h.fetchSignals hphase.1 ht hcore
    · cases hp
  | fetchInst inst nextPC =>
    simp only [Pipeline.step] at hp
    split at hp
    · rename_i hphase
      exact h.fetchInst hphase hp hcore
    · cases hp
  | fetchWait =>
    simp only [Pipeline.step] at hp
    split at hp
    · exact h.fetchWait hp hcore
    · cases hp
  | fetchDiscard i =>
    simp only [Pipeline.step] at hp
    split at hp
    · rename_i hphase
      exact h.fetchDiscard hphase hp hcore
    · cases hp
  | renameInsts n =>
    simp only [Pipeline.step] at hp
    split at hp
    · rename_i hphase
      obtain ⟨t, ht, hp⟩ := Option.bind_eq_some_iff.mp hp
      cases hp
      exact h.renameInsts hphase ht hcore
    · cases hp
  | iewSignals full =>
    simp only [Pipeline.step] at hp
    split at hp
    · rename_i hphase
      exact h.iewSignals hphase (Option.some.inj hp).symm hcore
    · cases hp
  | writebackInsts n =>
    simp only [Pipeline.step] at hp
    split at hp
    · rename_i hphase
      cases hp
      exact h.writebackInsts hphase hcore
    · cases hp
  | commitTick checkInterrupts getInterrupts =>
    simp only [Pipeline.step] at hp
    split at hp
    · rename_i hphase
      obtain ⟨t, ht, hp⟩ := Option.bind_eq_some_iff.mp hp
      cases hp
      exact h.commitTick hphase ht rfl hcore
    · cases hp
  | squash =>
    simp only [Pipeline.step] at hp
    split at hp
    · rename_i hphase
      obtain ⟨t, ht, hp⟩ := Option.bind_eq_some_iff.mp hp
      cases hp
      exact h.squash hphase ht rfl hcore
    · cases hp
  | iewSquash =>
    simp only [Pipeline.step] at hp
    split at hp
    · rename_i hphase
      exact h.iewSquash hphase hp hcore
    · cases hp
  | commitInst e =>
    simp only [Pipeline.step] at hp
    split at hp
    · rename_i hphase
      exact h.commitInst hphase hp hallows hcore
    · cases hp
  | finish =>
    simp only [Pipeline.step] at hp
    split at hp
    · rename_i hphase
      exact h.finish hphase (Option.some.inj hp).symm hcore
    · cases hp

/-- Every step keeps the invariant. -/
theorem step_inv {l : Label} (h : Inv s) (hst : s.step cfg l = some s') : Inv s' := by
  cases step_moves hst with
  | pipe hallows hp => exact h.pipeStep hallows hp
  | iew _ hlocal => exact h.insideIEW hlocal

theorem reaches_inv {ls : List Label} (h : (system cfg).Reaches ls s) : Inv s := by
  refine h.invariant (I := Inv) ?_ fun s l t hs hst => step_inv hs hst
  rintro s ⟨pc, rfl⟩
  exact start_inv pc

end Step

section Marked

variable {s s' : Backend} {cfg : PipelineParams} {i : Nat}

/-- The walk of the ROB is still to come to the instruction, or has marked it. -/
def ToMark (v : Window) (i : Nat) : Prop :=
  (v.insts i).squashed = true ∨
    i ∈ v.rob.instList ∧ v.rob.doneSquashing = false ∧ v.rob.squashedSeqNum < i

/-- A squash on top of one that goes on is not younger. -/
theorem toMark_startSquash {width n youngest : Nat} {v v' : Window}
    (hsorted : v.rob.instList.Pairwise (· < ·))
    (hn : ∀ i ∈ v.rob.instList, v.rob.doneSquashing = false → v.rob.squashedSeqNum < i → n < i)
    (hsquash : v.startSquash width n youngest = some v') (hi : ToMark v i) : ToMark v' i := by
  obtain ⟨rob, insts, rfl, hs, hlist, -, hrob⟩ :=
    Window.startSquash_cases hsorted hsquash
  rcases hi with hq | ⟨hmem, hdone, hlt⟩
  · exact .inl ((hs i).squashed hq)
  · obtain ⟨hsq, -, hdoomed⟩ := hrob (List.ne_nil_of_mem hmem)
    rcases hdoomed i hmem (hn i hmem hdone hlt) with hq | ⟨hdone', hlt'⟩
    · exact .inl hq
    · exact .inr ⟨hlist ▸ hmem, hdone', hlt'⟩

theorem Window.Step.toMark {width : Nat} {v v' : Window} (hstep : Window.Step width v v')
    (h : v.Core) (hold : i < v.list.globalSeqNum) (hi : ToMark v i) : ToMark v' i := by
  have hages := (hstep.ages h).insts i hold
  rcases hi with hq | ⟨hmem, hdone, hlt⟩
  · exact .inl (hages.squashed hq)
  · have hstatus : v.status = .robSquashing := h.control.status hdone
    have hsorted := h.order.rob_sorted
    cases hstep with
    | walk hd hrob =>
      obtain ⟨hlist, -⟩ := ROB.doSquash_spec hd (h.control.walking hd) hrob
      rcases (ROB.doSquash_doomed hd (h.control.walking hd) hrob hmem).mpr (.inr hlt)
        with hq | ⟨hdone', hlt'⟩
      · exact .inl hq
      · exact .inr ⟨hlist ▸ hmem, hdone', hlt'⟩
    | walked _ hd =>
      rw [hdone] at hd
      cases hd
    | squashAll _ hsquash =>
      have hmark := toMark_startSquash hsorted (fun _ hi _ _ => squashedInst_lt h.order hi)
        hsquash (.inr ⟨hmem, hdone, hlt⟩)
      exact hmark
    | runaheadExit _ _ hlll hsquash =>
      have hyounger : ∀ j ∈ v.rob.instList, ∀ lll, v.commitCause = some lll → lll - 1 < j := by
        intro j hj lll hlll
        have hline : j ∈ v.line := List.mem_append_left _ hj
        have hcause := h.modes.commitCause lll hlll
        have hle := h.order.cause_le j hline
        have hpos := h.order.pos j hline
        omega
      have hmark := toMark_startSquash (v := v.leaveRunahead) hsorted
        (fun j hj _ _ => hyounger j hj _ hlll) hsquash (.inr ⟨hmem, hdone, hlt⟩)
      exact hmark
    | accept hphase hn hsquash =>
      refine toMark_startSquash hsorted (fun _ _ hd hlt => ?_) hsquash (.inr ⟨hmem, hdone, hlt⟩)
      have := h.control.youngest hd
      omega
    | insert => exact .inr ⟨List.mem_append_left _ hmem, hdone, hlt⟩
    | retire hphase => exact absurd hstatus (h.control.committing _ hphase)
    | _ => exact .inr ⟨hmem, hdone, hlt⟩

theorem steps_toMark {width : Nat} {v v' : Window}
    (hsteps : Relation.ReflTransGen (Window.Step width) v v') (h : v.Core)
    (hold : i < v.list.globalSeqNum) (hi : ToMark v i) : ToMark v' i := by
  induction hsteps with
  | refl => exact hi
  | tail hsteps hstep ih =>
    have hnext := (Window.steps_ages hsteps h).next
    exact Window.Step.toMark hstep (Window.steps_core hsteps h) (Nat.lt_of_lt_of_le hold hnext) ih

theorem step_toMark {l : Label} (hst : s.step cfg l = some s') (h : s.pipe.window.Core)
    (hold : i < s.pipe.list.globalSeqNum) (hi : ToMark s.pipe.window i) :
    ToMark s'.pipe.window i ∧ s.pipe.list.globalSeqNum ≤ s'.pipe.list.globalSeqNum := by
  cases step_moves hst with
  | pipe hallows hp =>
    rw [follow_pipe]
    exact ⟨steps_toMark (Pipeline.step_sim hp) h hold hi, (Pipeline.step_ages hp h).next⟩
  | iew _ hlocal =>
    have hrob : s'.pipe.window.rob = s.pipe.window.rob := hlocal.touches.rob
    have hsq := (hlocal.touches.all i).squashed
    obtain ⟨_, _, _, _, hp⟩ := hlocal.touches.frame
    refine ⟨?_, Nat.le_of_eq (by rw [hp])⟩
    rw [ToMark, hrob]
    exact hi.imp_left hsq

/-- What the ROB is to mark it does mark, whatever squashes come in between. -/
theorem run_toMark {ls : List Label} (h : (system cfg).Run s ls s') (hcore : s.pipe.window.Core)
    (hold : i < s.pipe.list.globalSeqNum) (hi : ToMark s.pipe.window i) :
    ToMark s'.pipe.window i := by
  have hall : s'.pipe.window.Core ∧ i < s'.pipe.list.globalSeqNum ∧ ToMark s'.pipe.window i := by
    induction h with
    | nil => exact ⟨hcore, hold, hi⟩
    | snoc _ hst ih =>
      obtain ⟨hc, hlt, hm⟩ := ih
      obtain ⟨hm', hnext⟩ := step_toMark hst hc hlt hm
      exact ⟨step_core hst hc, Nat.lt_of_lt_of_le hlt hnext, hm'⟩
  exact hall.2.2

end Marked

section Result

variable {s s' : Backend} {cfg : PipelineParams} {ls : List Label}

/-- The instruction that the step dispatches or executes, or drops instead. -/
def handles (s : Backend) : Label → Option Nat
  | .dispatchInst _ => s.insts.head?
  | .execute i _ _ => some i
  | _ => none

/-- The squash that IEW was told of last goes on in the ROB, and marks the instruction: it does so
before it ends, it ends, and the instruction stays marked in every run. -/
structure SquashMarks (cfg : PipelineParams) (s : Backend) (i : Nat) : Prop where
  goesOn : s.pipe.rob.doneSquashing = false
  announced : s.pipe.rob.squashedSeqNum = s.pipe.iew.squashedSeqNum
  marks : ∀ calls rob insts,
    ROB.walk cfg.squashWidth cfg.numROBEntries calls s.pipe.rob s.pipe.insts = some (rob, insts) →
      rob.doneSquashing = true → (insts i).squashed = true
  ends : 0 < cfg.squashWidth → ∃ calls rob insts,
    ROB.walk cfg.squashWidth cfg.numROBEntries calls s.pipe.rob s.pipe.insts = some (rob, insts) ∧
      rob.doneSquashing = true
  run : ∀ ls s', (system cfg).Run s ls s' → s'.pipe.rob.doneSquashing = true →
    (s'.inst i).squashed = true

/-- What IEW has at hand in its part of the tick is in the ROB, or was not executed. -/
theorem Inv.handled {l : Label} {i : Nat} (h : Inv s) (hst : s.step cfg l = some s')
    (hi : s.handles l = some i) : s.pipe.phase = .iew ∧ i ∈ s.inIEW ∧
      ((s.inst i).executed = true → i ∈ s.pipe.rob.instList) := by
  cases l with
  | pipe | leaveQueue | dataReturn => cases hi
  | dispatchInst barrier =>
    have hmem : i ∈ s.undispatched := by
      have hi : s.insts.head? = some i := hi
      simp [undispatched, List.mem_of_mem_head? hi]
    have hfresh := h.queues.fresh i (List.mem_append_left _ hmem)
    simp only [step] at hst
    split at hst
    · rename_i hphase
      refine ⟨hphase, ?_, fun he => ?_⟩
      · rw [inIEW_eq]
        exact List.mem_append_right _ hmem
      · rw [hfresh] at he
        cases he
    · cases hst
  | execute j o r =>
    obtain rfl : j = i := Option.some.inj hi
    simp only [step] at hst
    split at hst
    · rename_i hphase
      unfold execute at hst
      split at hst
      · rename_i hguard
        refine ⟨hphase, ?_, hguard.2.2⟩
        rw [inIEW_eq]
        exact List.mem_append_left _ hguard.1
      · cases hst
    · cases hst

/-- **The early squash of IEW agrees with the squash of the ROB: what IEW drops because it is in the
window is squashed already, or is marked by the squash that was announced; and no instruction that
is fetched after a squash is announced is ever in its window.** -/
theorem early_squash_agrees (h : (system cfg).Reaches ls s) :
    (∀ l s' i, s.step cfg l = some s' → s.handles l = some i → s.pipe.inSquashWindow i = true →
      (s.inst i).squashed = true ∨ SquashMarks cfg s i) ∧
    ∀ w ∈ announced s.pipe, ∀ ls' s', (system cfg).Run s ls' s' →
      (s'.pipe.iew.squashedSeqNum, s'.pipe.iew.squashTailSeqNum) = w →
        ∀ i, s.pipe.list.globalSeqNum ≤ i → s'.pipe.inSquashWindow i = false := by
  have hinv := reaches_inv h
  have hcore := hinv.core
  refine ⟨fun l s' i hst hi hwindow => ?_, ?_⟩
  · obtain ⟨hphase, hmem, hrob⟩ := hinv.handled hst hi
    simp only [Pipeline.inSquashWindow, Bool.and_eq_true, decide_eq_true_eq] at hwindow
    have hcovered := hinv.agree _ List.mem_cons_self i
      (List.mem_append_left _ (List.mem_append_left _ hmem)) hwindow.1 hwindow.2
    rcases hcovered with hq | ⟨he, hnot⟩ | ⟨hin, hdone, hlt⟩
    · exact .inl hq
    · exact absurd (hrob he) hnot
    · by_cases hq : (s.inst i).squashed = true
      · exact .inl hq
      · right
        have hwalking := hcore.control.walking hdone
        have hread : s.pipe.iew.fromCommit.squash = false := hinv.stall.read (by rw [hphase]; rfl)
        have hsent : s.pipe.commit.toIEW.squash = false := by
          by_contra hsent
          have hearly := hcore.control.early (eq_true_of_ne_false hsent)
          rw [Pipeline.window, hphase] at hearly
          cases hearly
        have hnumber := hinv.wires.number hdone
        have hne : s.pipe.rob.squashIt ≠ [] :=
          List.ne_nil_of_mem ((hwalking.passed i hin hlt).resolve_left hq)
        exact {
          goesOn := hdone
          announced := by simpa [latest, hread, hsent] using hnumber
          marks := fun calls rob insts => ROB.walk_marks hwalking hdone hin hlt
          ends := fun hwidth => ⟨_, ROB.walk_ends hwidth hne (Nat.le_refl _)⟩
          run := fun ls s' hrun hdone' => by
            have hold := hcore.order.lt i (List.mem_append_left _ hin)
            rcases run_toMark hrun hcore hold (.inr ⟨hin, hdone, hlt⟩) with hq | ⟨-, hgoes, -⟩
            · exact hq
            · have hgoes : s'.pipe.rob.doneSquashing = false := hgoes
              rw [hdone'] at hgoes
              cases hgoes }
  · rintro w hw ls' s' - rfl i hi
    have hbound := hinv.wires.bound _ hw
    simp only [Pipeline.inSquashWindow, Bool.and_eq_false_iff, decide_eq_false_iff_not] at hbound ⊢
    omega

/-- The ROB marks one instruction a cycle. -/
def narrowSquash : PipelineParams := { Pipeline.minimumWork with squashWidth := 1 }

/-- A tick up to IEW's queues. -/
def untilIEW : List Label :=
  [.pipe (.fetchSignals none), .pipe (.renameInsts 0), .pipe (.iewSignals false)]

/-- The rest of the tick. -/
def afterIEW (commits : List CommitEnv) : List Label :=
  (.writebackInsts 0 :: .commitTick false false :: Pipeline.lateTick commits).map .pipe

/-- Instruction 1 is mispredicted, and is in the ROB with two younger ones. When IEW reads the
squash, the ROB has marked the youngest. -/
def mispredicted : List Label :=
  (Pipeline.tick [{}, {}, {}] 0 [] 0 [{}] ++ Pipeline.tick [] 3 [] 0 [{}] ++
    Pipeline.tick [] 0 [] 0 [{}]).map .pipe ++
  untilIEW ++ [.dispatchInst false, .dispatchInst false, .dispatchInst false,
    .execute 1 (.done false) .mispredicted] ++ afterIEW [{}] ++
  untilIEW ++ afterIEW [] ++ untilIEW

theorem early_squash_agrees_mispredicted : ∃ s s', (system narrowSquash).Reaches mispredicted s ∧
    s.step narrowSquash (.execute 2 (.done false) .none) = some s' ∧
    SquashMarks narrowSquash s 2 ∧ s.pipe.inSquashWindow s.pipe.list.globalSeqNum = false := by
  have hrun : (mispredicted.foldlM (step narrowSquash) { pipe := Pipeline.start {} }).any (fun s =>
      (s.step narrowSquash (.execute 2 (.done false) .none)).isSome &&
        s.pipe.inSquashWindow 2 && !(s.inst 2).squashed) = true := by decide +kernel
  obtain ⟨s, hs, hdrop⟩ := (Option.any_eq_true _ _).mp hrun
  simp only [Bool.and_eq_true, Bool.not_eq_true', Option.isSome_iff_exists] at hdrop
  obtain ⟨⟨⟨s', hst⟩, hwindow⟩, hlive⟩ := hdrop
  have hreach : (system narrowSquash).Reaches mispredicted s :=
    ⟨_, ⟨{}, rfl⟩, .of_foldlM (M := system narrowSquash) (fun _ _ _ h => h) hs⟩
  obtain ⟨hagrees, hfresh⟩ := early_squash_agrees hreach
  refine ⟨s, s', hreach, hst, ?_, hfresh _ List.mem_cons_self [] s .nil rfl _ (Nat.le_refl _)⟩
  rcases hagrees _ s' 2 hst rfl hwindow with hq | hmarks
  · rw [hlive] at hq
    cases hq
  · exact hmarks

end Result

end Backend
end Runahead
end Gem5
