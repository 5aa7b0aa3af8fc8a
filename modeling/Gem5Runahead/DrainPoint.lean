import Gem5Runahead.CommitLog
import Gem5Runahead.FetchFrame
import Gem5Runahead.InterruptBoundary

/-!
# DrainPoint

Where a drain stops the CPU. Commit takes the drain point after whatever instruction retires next,
a pseudo-retired one too.

* `Restoring` — while a restore is on the wires, nothing that was in flight can commit.
* `Touched` — once an instruction has been fetched, the CPU's lists are never both empty again.
* `drains_safely_iff` — when a drain never stops the CPU in speculative state.
-/

namespace Gem5
namespace Runahead

namespace InstList

/-- An instruction has been marked for removal, or there is one that is not. -/
def Touched (s : InstList) : Prop :=
  s.removeList ≠ [] ∨ ∃ i ∈ s.instList, (s.insts i).removePending = false

variable {s s' : InstList} {l : List Nat}

theorem Touched.of_same {insts : Insts} (h : s.Touched)
    (hpending : ∀ i, (insts i).removePending = (s.insts i).removePending) :
    { s with insts }.Touched := by
  refine h.imp id ?_
  rintro ⟨i, hi, hlive⟩
  exact ⟨i, hi, (hpending i).trans hlive⟩

theorem Touched.of_marked (h : s.Touched) (hmarked : Marked s l s') : s'.Touched := by
  by_cases hl : l = []
  · subst hl
    rcases h with hlist | ⟨i, hi, hlive⟩
    · left
      rw [hmarked.removeList]
      simpa using hlist
    · refine .inr ⟨i, hmarked.instList ▸ hi, ?_⟩
      rw [hmarked.removePending, hlive]
      rfl
  · left
    rw [hmarked.removeList]
    simp [hl]

theorem not_touched_of_drained {g : Stages} (h : s.isCpuDrained g = true) : ¬ s.Touched := by
  simp only [isCpuDrained, Bool.and_eq_true, List.isEmpty_iff] at h
  obtain ⟨⟨hinsts, hlist⟩, -⟩ := h
  rintro (htouched | ⟨i, hi, -⟩)
  · exact htouched hlist
  · rw [hinsts] at hi
    cases hi

end InstList

namespace Window

/-- A move of the window never gives back lists that are as they were at the start. -/
theorem Step.touched {width : Nat} {v v' : Window} (hstep : Step width v v') (hcore : v.Core)
    (h : v.list.Touched) : v'.list.Touched := by
  have hsquash : ∀ {n youngest : Nat} {v v' : Window}, v.rob.instList.Pairwise (· < ·) →
      v.startSquash width n youngest = some v' → v.list.Touched → v'.list.Touched := by
    intro n youngest v v' hsorted h ht
    obtain ⟨rob, insts, rfl, hs, -⟩ := startSquash_cases hsorted h
    exact ht.of_same fun i => (hs i).removePending
  have hsorted := hcore.order.rob_sorted
  cases hstep with
  | insts hs => exact h.of_same fun i => (hs i).removePending
  | fetchSquash _ hlist =>
    exact h.of_marked (InstList.removeInstsNotInROB_marked
      (hcore.order.listSorted.imp Nat.ne_of_lt) hlist).1
  | decodeSquash _ hlist => exact h.of_marked (InstList.removeInstsUntil_marked hlist).1
  | discard _ hlist => exact h.of_marked (InstList.removeInst_marked hlist).1
  | fetchInst _ _ _ _ hpending _ =>
    refine .inr ⟨v.list.globalSeqNum, List.mem_append_right _ List.mem_cons_self, ?_⟩
    simp only [InstList.addInst, Function.update_self]
    exact hpending
  | walk hdone hrob =>
    obtain ⟨-, -, hmarks, -⟩ := ROB.doSquash_spec hdone (hcore.control.walking hdone) hrob
    exact h.of_same fun i => (SquashMarks.steady hmarks i).removePending
  | squashAll _ hs =>
    have ht := hsquash hsorted hs h
    exact ht
  | runaheadExit _ _ _ hs =>
    have ht := hsquash (v := v.leaveRunahead) hsorted hs h
    exact ht
  | accept _ _ hs => exact hsquash hsorted hs h
  | retire => exact .inl (by simp [Window.retire, InstList.removeFrontInst])
  | enter =>
    refine InstList.Touched.of_same h fun i => ?_
    split <;> rfl
  | finish =>
    refine h.imp (fun hlist => ?_) ?_
    · change v.list.endTick.removeList ≠ []
      unfold InstList.endTick
      split <;> exact hlist
    · rintro ⟨i, hi, hlive⟩
      refine ⟨i, mem_endTick hi hlive, ?_⟩
      rw [endTick_insts]
      exact hlive
  | front | signal | exit | tick | phase | walked | noSquash | squashing | insert | commitStatus
  | fetchFault => exact h

end Window

namespace Pipeline

variable {cfg : PipelineParams} {s s' : Pipeline} {l : Label} {ls : List Label}

section Restoring

/-- What is not marked runahead has been squashed. -/
def Unmarked (s : Pipeline) : Prop :=
  ∀ i ∈ s.window.line, (s.insts i).runahead = false → (s.insts i).squashed = true

/-- Fetch has still to see the squash of the tick before, or it has seen it in this tick. -/
def Redirected (s : Pipeline) : Prop :=
  s.phase = .idle ∧ s.fetch.fromCommit.squash = true ∨
    s.phase ≠ .idle ∧ s.fetch.status = .squashing

/-- An exit squash is on its way to fetch. -/
structure Restoring (s : Pipeline) : Prop where
  unmarked : s.commit.archRestore = true ∨ s.commit.archRestorePrev = true → s.Unmarked
  now : s.commit.archRestore = true → (s.phase = .iewSquash ∨ s.phase = .finish) ∧
    s.commit.status = .robSquashing ∧ s.commit.toIEW.squash = true
  prev : s.commit.archRestorePrev = true → s.Redirected

theorem step_unmarked (hcore : s.window.Core) (hst : s.step cfg l = some s')
    (hfetch : ∀ inst nextPC, l ≠ .fetchInst inst nextPC) (h : s.Unmarked) : s'.Unmarked := by
  intro i hi hnot
  have hline := step_line hcore hst hfetch i hi
  have hages := (step_ages hst hcore).insts i (hcore.order.lt i hline)
  refine hages.squashed (h i hline ?_)
  cases hr : (s.insts i).runahead with
  | false => rfl
  | true =>
    have hr' : (s'.insts i).runahead = true := hages.runahead hr
    rw [hnot] at hr'
    cases hr'

theorem label_of_iewSquash (hst : s.step cfg l = some s') (hphase : s.phase = .iewSquash) :
    l = .iewSquash := by
  cases l <;> simp [step, hphase] at hst ⊢

theorem label_of_finish (hst : s.step cfg l = some s') (hphase : s.phase = .finish) :
    l = .finish := by
  cases l <;> simp [step, hphase] at hst ⊢

theorem finish_wires (hst : s.step cfg .finish = some s') : s'.commit.archRestore = false ∧
    s'.commit.archRestorePrev = s.commit.archRestore ∧ s'.phase = .idle ∧
    s'.fetch.fromCommit = s.commit.toIEW := by
  simp only [step] at hst
  split at hst
  · cases hst
    obtain ⟨exit, log, heq, -⟩ := @updateRunaheadState_cases cfg s.markCompletedInsts
    rw [finish, heq]
    exact ⟨rfl, rfl, rfl, rfl⟩
  · cases hst

/-- A squash from IEW on top of the exit squash changes only where fetch is to go on. -/
theorem iewSquash_squashing (h : s.iewSquash cfg = some s')
    (hstatus : s.commit.status = .robSquashing) (hsent : s.commit.toIEW.squash = true) :
    s'.phase = .finish ∧ s'.commit.status = .robSquashing ∧ s'.commit.toIEW.squash = true := by
  simp only [iewSquash, Option.bind_eq_bind] at h
  obtain ⟨t, ht, hrest⟩ := Option.bind_eq_some_iff.mp h
  have hkeep : t.commit.status = .robSquashing ∧ t.commit.toIEW.squash = true := by
    unfold acceptSquash at ht
    split at ht
    · cases ht
      exact ⟨hstatus, hsent⟩
    · split at ht
      · simp only [Option.bind_eq_bind] at ht
        obtain ⟨u, hu, ht⟩ := Option.bind_eq_some_iff.mp ht
        cases ht
        obtain ⟨_, _, _, rfl⟩ := startSquash_frame hu
        exact ⟨rfl, rfl⟩
      · cases ht
        exact ⟨hstatus, hsent⟩
  rw [if_pos hkeep.1] at hrest
  cases hrest
  exact ⟨rfl, hkeep⟩

theorem exit_restoring (hst : s.step cfg .squash = some s') (hexits : s.exits = true) :
    s'.phase = .iewSquash ∧ s'.commit.status = .robSquashing ∧ s'.commit.toIEW.squash = true := by
  simp only [step] at hst
  split at hst
  · obtain ⟨t, ht, hst⟩ := Option.bind_eq_some_iff.mp hst
    cases hst
    rw [squash_of_exits hexits] at ht
    obtain ⟨_, _, _, _, _, rfl⟩ := squashFromRunaheadExit_frame ht
    exact ⟨rfl, rfl, rfl⟩
  · cases hst

/-- The exit squash finds nothing unmarked alive. -/
theorem unmarked_of_exits (hcore : s.window.Core) (hexits : s.exits = true) : s.Unmarked := by
  have hmode := hcore.modes.exit (exitRunahead_of_exits hexits)
  intro i hi hnot
  refine hcore.modes.old hmode i hi ?_
  have hnot : (s.window.insts i).runahead = false := hnot
  simp [Window.mark, hnot]

theorem Redirected.fetches_nothing {inst : DynInst} {nextPC : PCState} (hs : s.Redirected)
    (hphase : s.phase = .fetch) : s.fetchInst inst nextPC = none := by
  rcases hs with ⟨hidle, -⟩ | ⟨-, hstatus⟩
  · rw [hphase] at hidle
    cases hidle
  · simp [fetchInst, hstatus]

theorem FetchStep.redirected (h : FetchStep s l s') (hl : l ≠ .finish) (hs : s.Redirected) :
    s'.Redirected := by
  cases h with
  | signalled _ _ hfetch hphase' =>
    refine .inr ⟨?_, ?_⟩
    · rw [hphase']
      exact Phase.noConfusion
    · rw [hfetch]
  | decoded hphase hsquash | resumed hphase hsquash =>
    rcases hs with ⟨-, hsent⟩ | ⟨hidle, -⟩
    · rw [hsquash] at hsent
      cases hsent
    · exact absurd hphase hidle
  | fetched hphase h =>
    rw [hs.fetches_nothing hphase] at h
    cases h
  | waits hnot hfetch hphase =>
    rcases hs with ⟨hidle, hsent⟩ | ⟨-, hstatus⟩
    · refine .inl ⟨hphase.trans hidle, ?_⟩
      rw [hfetch]
      exact hsent
    · exact absurd hstatus hnot
  | finish => exact absurd rfl hl
  | same hfetch hphase =>
    rcases hs with ⟨hidle, hsent⟩ | ⟨hidle, hstatus⟩
    · refine .inl ⟨hphase.mpr hidle, ?_⟩
      rw [hfetch]
      exact hsent
    · refine .inr ⟨mt hphase.mp hidle, ?_⟩
      rw [hfetch]
      exact hstatus

theorem step_restoring (hcore : s.window.Core) (hst : s.step cfg l = some s')
    (hs : s.Restoring) : s'.Restoring := by
  have hfetched : s.commit.archRestore = true ∨ s.commit.archRestorePrev = true →
      ∀ inst nextPC, l ≠ .fetchInst inst nextPC := by
    rintro hdue inst nextPC rfl
    simp only [step] at hst
    split at hst
    · rename_i hphase
      rcases hdue with hnow | hprev
      · rcases (hs.now hnow).1 with hp | hp <;> rw [hphase] at hp <;> cases hp
      · rw [(hs.prev hprev).fetches_nothing hphase] at hst
        cases hst
    · cases hst
  by_cases hl : l = .finish
  · subst hl
    obtain ⟨hnow, hprev, hphase, hwire⟩ := finish_wires hst
    refine ⟨fun hdue => ?_, fun hdue => ?_, fun hdue => ?_⟩
    · rw [hnow, hprev] at hdue
      have hdue : s.commit.archRestore = true := by simpa using hdue
      exact step_unmarked hcore hst (hfetched (.inl hdue)) (hs.unmarked (.inl hdue))
    · rw [hnow] at hdue
      cases hdue
    · rw [hprev] at hdue
      refine .inl ⟨hphase, ?_⟩
      rw [hwire]
      exact (hs.now hdue).2.2
  · obtain ⟨new, -, hdeed⟩ := step_deed hcore hst
    rcases hdeed.restore_cases with ⟨hnow, hprev⟩ | ⟨rfl, hexits, hprev⟩ | ⟨hfinish, -⟩
    · have hnow : s'.commit.archRestore = s.commit.archRestore := hnow
      have hprev : s'.commit.archRestorePrev = s.commit.archRestorePrev := hprev
      refine ⟨fun hdue => ?_, fun hdue => ?_, fun hdue => ?_⟩
      · rw [hnow, hprev] at hdue
        exact step_unmarked hcore hst (hfetched hdue) (hs.unmarked hdue)
      · rw [hnow] at hdue
        obtain ⟨hphase | hphase, hstatus, hsent⟩ := hs.now hdue
        · obtain rfl := label_of_iewSquash hst hphase
          simp only [step, hphase] at hst
          obtain ⟨hphase', hkeep⟩ := iewSquash_squashing hst hstatus hsent
          exact ⟨.inr hphase', hkeep⟩
        · exact absurd (label_of_finish hst hphase) hl
      · rw [hprev] at hdue
        exact (step_fetch hst).redirected hl (hs.prev hdue)
    · have hprev : s'.commit.archRestorePrev = s.commit.archRestorePrev := hprev
      obtain ⟨hphase, hkeep⟩ := exit_restoring hst hexits
      refine ⟨fun _ => ?_, fun _ => ⟨.inl hphase, hkeep⟩, fun hdue => ?_⟩
      · exact step_unmarked hcore hst (fun _ _ => Label.noConfusion) (unmarked_of_exits hcore hexits)
      · rw [hprev] at hdue
        exact (step_fetch hst).redirected hl (hs.prev hdue)
    · exact absurd hfinish hl

theorem start_restoring (pc : PCState) : (start pc).Restoring where
  unmarked _ i hi := absurd hi List.not_mem_nil
  now hdue := by cases hdue
  prev hdue := by cases hdue

theorem reaches_restoring (h : (system cfg).Reaches ls s) : s.Restoring := by
  let I (ls : List Label) (s : Pipeline) : Prop := (system cfg).Reaches ls s ∧ s.Restoring
  refine (h.history (I := I) ?_ ?_).2
  · rintro s ⟨pc, rfl⟩
    exact ⟨.start ⟨pc, rfl⟩, start_restoring pc⟩
  · rintro ls s l s' ⟨hreach, hs⟩ hst
    exact ⟨hreach.snoc hst, step_restoring (reaches_core hreach) hst hs⟩

/-- An instruction that commits in normal mode finds no restore on the wires. -/
theorem Restoring.commits {n head : Nat} (hs : s.Restoring) (hcore : s.window.Core)
    (hphase : s.phase = .commitInsts n) (hcommits : s.Commits cfg n head)
    (hnormal : s.inRunahead = false) :
    s.commit.archRestore = false ∧ s.commit.archRestorePrev = false := by
  obtain ⟨tail, hhead⟩ := hcommits.atHead
  have hline : head ∈ s.window.line := by
    refine List.mem_append_left _ ?_
    change head ∈ s.rob.instList
    rw [hhead]
    exact List.mem_cons_self
  have hnot : ¬ s.Unmarked := by
    intro h
    have hsquashed := h head hline ((hcommits.runahead hcore hphase).trans hnormal)
    rw [hcommits.live] at hsquashed
    cases hsquashed
  constructor
  · by_contra hdue
    exact hnot (hs.unmarked (.inl (by simpa using hdue)))
  · by_contra hdue
    exact hnot (hs.unmarked (.inr (by simpa using hdue)))

end Restoring

section Untouched

theorem step_touched (hcore : s.window.Core) (hst : s.step cfg l = some s')
    (h : s.list.Touched) : s'.list.Touched := by
  have hsteps : ∀ {v v' : Window}, Relation.ReflTransGen (Window.Step cfg.squashWidth) v v' →
      v.Core → v.list.Touched → v'.list.Touched := by
    intro v v' hsteps hv ht
    induction hsteps with
    | refl => exact ht
    | tail hsteps hstep ih => exact hstep.touched (Window.steps_core hsteps hv) ih
  exact hsteps (step_sim hst) hcore h

/-- Nothing has been fetched yet. -/
structure Fresh (s : Pipeline) : Prop where
  mode : s.inRunahead = false
  now : s.commit.archRestore = false
  prev : s.commit.archRestorePrev = false
  log : committedSeq s.log = []

theorem rob_nil_of_not_touched (hcore : s.window.Core) (h : ¬ s.list.Touched) :
    s.rob.instList = [] := by
  by_contra hne
  obtain ⟨i, hi⟩ := List.exists_mem_of_ne_nil _ hne
  obtain ⟨hmem, hlive, -⟩ := hcore.order.rob i hi
  exact h (.inr ⟨i, hmem, hlive⟩)

theorem step_fresh (hcore : s.window.Core) (hst : s.step cfg l = some s')
    (hnot : ¬ s.list.Touched) (h : s.Fresh) : s'.Fresh := by
  have hrob := rob_nil_of_not_touched hcore hnot
  obtain ⟨new, hlog, hdeed⟩ := step_deed hcore hst
  have hfresh : ∀ t : Tally, t = s'.tally → t.inRunahead = false → t.archRestore = false →
      t.archRestorePrev = false → committedSeq new = [] → s'.Fresh := by
    rintro t rfl hmode hnow hprev hseq
    refine ⟨hmode, hnow, hprev, ?_⟩
    rw [hlog, committedSeq_append, hseq, h.log]
    rfl
  generalize ht : s'.tally = t at hdeed
  cases hdeed with
  | quiet hnew => exact hfresh _ ht.symm h.mode h.now h.prev (committedSeq_quiet hnew)
  | propagate | process => exact hfresh _ ht.symm h.mode h.now h.prev rfl
  | exit hexits =>
    have hmode := hcore.modes.exit (exitRunahead_of_exits hexits)
    exact absurd (h.mode.symm.trans hmode) (by simp)
  | enter _ hne => exact absurd hrob hne
  | squashed hsquashed =>
    refine hfresh _ ht.symm h.mode h.now h.prev ?_
    simp [committedSeq, Event.committed, hsquashed]
  | commit _ hcommits =>
    obtain ⟨tail, hhead⟩ := hcommits.atHead
    rw [hrob] at hhead
    cases hhead
  | finish =>
    refine hfresh _ ht.symm h.mode rfl h.now ?_
    split <;> rfl

theorem fresh_of_not_touched (h : (system cfg).Reaches ls s) (hnot : ¬ s.list.Touched) :
    s.Fresh := by
  let I (ls : List Label) (s : Pipeline) : Prop :=
    (system cfg).Reaches ls s ∧ (¬ s.list.Touched → s.Fresh)
  refine (h.history (I := I) ?_ ?_).2 hnot
  · rintro s ⟨pc, rfl⟩
    exact ⟨.start ⟨pc, rfl⟩, fun _ => ⟨rfl, rfl, rfl, rfl⟩⟩
  · rintro ls s l s' ⟨hreach, hs⟩ hst
    refine ⟨hreach.snoc hst, fun hnot => ?_⟩
    have hcore := reaches_core hreach
    have hnot : ¬ s.list.Touched := fun ht => hnot (step_touched hcore hst ht)
    exact step_fresh hcore hst hnot (hs hnot)

end Untouched

section Drain

/-- `Commit::isDrained`. -/
def commitIsDrained (s : Pipeline) : Bool :=
  decide (s.commit.pc.microPC = 0) && s.rob.instList.isEmpty && !s.commit.interrupt

/-- `CPU::isCpuDrained`; what the other stages say of themselves is in `g`. -/
def isCpuDrained (s : Pipeline) (g : InstList.Stages) : Bool :=
  s.list.isCpuDrained { g with commit := s.commitIsDrained }

/-- The thread is not in runahead, no restore is pending, and `pc` follows the last instruction
that committed architecturally. -/
structure Architectural (s : Pipeline) (pc : PCState) : Prop where
  mode : s.inRunahead = false
  now : s.commit.archRestore = false
  prev : s.commit.archRestorePrev = false
  restored : awaitsRestore s.log = false
  pc : ∀ inst ∈ (archSeq s.log).head?, pc = inst.nextPC

/-- The step takes no drain point in speculative state, and leads to no drained CPU in one. -/
structure DrainsSafely (cfg : PipelineParams) (s : Pipeline) (l : Label) : Prop where
  point : ∀ s' pc new, s.step cfg l = some s' → s'.log = new ++ s.log → .commitDrained pc ∈ new →
    s'.Architectural pc
  drained : ∀ s' g, s.step cfg l = some s' → s'.commitIsDrained = true →
    s'.isCpuDrained g = true → s'.Architectural s'.commit.pc

/-- If the head commits in this step and the drain point is due after it, it is not a runahead
instruction. -/
def DrainsReal (cfg : PipelineParams) (s : Pipeline) (l : Label) : Prop :=
  ∀ e n head, l = .commitInst e → s.phase = .commitInsts n → s.Commits cfg n head →
    s.drains e (s.insts head) = true → (s.insts head).runahead = false

/-- Nothing is drained once an instruction has been fetched. -/
theorem architectural_of_drained {g : InstList.Stages} (h : (system cfg).Reaches ls s)
    (hdrained : s.isCpuDrained g = true) : s.Architectural s.commit.pc := by
  have hfresh := fresh_of_not_touched h (InstList.not_touched_of_drained hdrained)
  refine ⟨hfresh.mode, hfresh.now, hfresh.prev, (reaches_awaited h).restored hfresh.now hfresh.prev,
    fun inst hinst => ?_⟩
  rw [archSeq, hfresh.log] at hinst
  cases hinst

theorem drainsSafely_of_real (h : (system cfg).Reaches ls s) (hreal : DrainsReal cfg s l) :
    DrainsSafely cfg s l := by
  have hcore := reaches_core h
  refine ⟨fun s' pc new hst hnew hmem => ?_, fun s' g hst _ hdrained =>
    architectural_of_drained (h.snoc hst) hdrained⟩
  obtain ⟨new', hlog, hdeed⟩ := step_deed hcore hst
  obtain rfl : new' = new := List.append_cancel_right (hlog.symm.trans hnew)
  obtain ⟨e, n, head, rfl, hphase, hcommits, hdrains, rfl, hmode, hnow, hprev, hseq⟩ :=
    hdeed.drained_cases hmem
  have hhead := hreal e n head rfl hphase hcommits hdrains
  have hnormal : s.inRunahead = false := (hcommits.runahead hcore hphase).symm.trans hhead
  obtain ⟨hnot, hnot'⟩ := (reaches_restoring h).commits hcore hphase hcommits hnormal
  have hnow : s'.commit.archRestore = false := hnow.trans hnot
  have hprev : s'.commit.archRestorePrev = false := hprev.trans hnot'
  refine ⟨hmode.trans hnormal, hnow, hprev, (reaches_awaited (h.snoc hst)).restored hnow hprev,
    fun inst hinst => ?_⟩
  rw [hlog, archSeq_append, (seqs_of_commit hseq).1, hhead] at hinst
  exact congrArg DynInst.nextPC (Option.some.inj hinst)

theorem real_of_drainsSafely (hcore : s.window.Core) (hst : s.step cfg l = some s')
    (hsafe : DrainsSafely cfg s l) : DrainsReal cfg s l := by
  rintro e n head rfl hphase hcommits hdrains
  obtain ⟨new, hlog, -, hdrain, -⟩ := commits_deed hcore hphase hcommits hst
  have hmem := hdrain.mpr hdrains
  have hnew : s'.log = (new ++ [.retire head (s.insts head) (s.mark head)]) ++ s.log := by
    rw [hlog, List.append_assoc]
    rfl
  have harch := hsafe.point s' _ _ hst hnew (List.mem_append_left _ hmem)
  obtain ⟨new', hlog', hdeed⟩ := step_deed hcore hst
  obtain rfl := List.append_cancel_right (hlog'.symm.trans hnew)
  obtain ⟨_, _, _, _, _, _, _, _, hmode, -⟩ :=
    hdeed.drained_cases (List.mem_append_left _ hmem)
  have hmode : s'.inRunahead = s.inRunahead := hmode
  rw [hcommits.runahead hcore hphase, ← hmode]
  exact harch.mode

/-- **A drain never stops the CPU in speculative state, exactly in the runs in which no runahead
instruction pseudo-retires with the drain point due after it.** -/
theorem drains_safely_iff : ((system cfg).guard (DrainsSafely cfg)).Reaches ls s ↔
    ((system cfg).guard (DrainsReal cfg)).Reaches ls s := by
  constructor
  · intro h
    let I (ls : List Label) (s : Pipeline) : Prop :=
      ((system cfg).guard (DrainsReal cfg)).Reaches ls s
    refine h.history (I := I) (fun s hs => .start hs) ?_
    rintro ls s l s' hreach ⟨hst, hsafe⟩
    exact hreach.snoc ⟨hst, real_of_drainsSafely (reaches_core hreach.of_guard) hst hsafe⟩
  · intro h
    let I (ls : List Label) (s : Pipeline) : Prop :=
      ((system cfg).guard (DrainsSafely cfg)).Reaches ls s
    refine h.history (I := I) (fun s hs => .start hs) ?_
    rintro ls s l s' hreach ⟨hst, hreal⟩
    exact hreach.snoc ⟨hst, drainsSafely_of_real hreach.of_guard hreal⟩

/-- A drain is requested in runahead; then the load that caused the period pseudo-retires. -/
def drainInRunahead : List Label :=
  entry ++ [.dataReturn 1 true false, .drain] ++ tick [] 0 [] 1 [{}] ++ tick [] 0 [] 0 [{}] ++
    earlyTick [] 0 [] 0 ++ [.squash, .iewSquash]

def isDrainPoint : Event → Bool
  | .commitDrained _ => true
  | _ => false

/-- Commit takes the drain point after a pseudo-retired instruction, still in runahead. -/
theorem drain_point_in_runahead : ∃ s s' pc new, (system minimumWork).Reaches drainInRunahead s ∧
    s.step minimumWork (.commitInst {}) = some s' ∧ s'.log = new ++ s.log ∧
    .commitDrained pc ∈ new ∧ s'.commit.drainImminent = true ∧ s'.inRunahead = true ∧
    ¬ DrainsSafely minimumWork s (.commitInst {}) := by
  have hrun : (drainInRunahead.foldlM (step minimumWork) (start {})).any (fun s =>
      !s.log.any isDrainPoint && (s.step minimumWork (.commitInst {})).any fun s' =>
          s'.inRunahead && s'.commit.drainImminent && s'.log.any isDrainPoint) = true := by
    decide +kernel
  obtain ⟨s, hs, h⟩ := (Option.any_eq_true _ _).mp hrun
  simp only [Bool.and_eq_true, Bool.not_eq_true'] at h
  obtain ⟨hnone, htaken⟩ := h
  obtain ⟨s', hst, htaken⟩ := (Option.any_eq_true _ _).mp htaken
  simp only [Bool.and_eq_true, List.any_eq_true] at htaken
  obtain ⟨⟨hmode, himminent⟩, e, hmem, hpoint⟩ := htaken
  have hreach : (system minimumWork).Reaches drainInRunahead s :=
    ⟨start {}, ⟨{}, rfl⟩, .of_foldlM (M := system minimumWork) (fun _ _ _ h => h) hs⟩
  obtain ⟨new, hlog, -⟩ := step_deed (reaches_core hreach) hst
  obtain ⟨pc, rfl⟩ : ∃ pc, e = .commitDrained pc := by
    cases e <;> first | exact ⟨_, rfl⟩ | cases hpoint
  have hnew : .commitDrained pc ∈ new := by
    rw [hlog] at hmem
    rcases List.mem_append.mp hmem with hnew | hold
    · exact hnew
    · rw [List.any_eq_false] at hnone
      exact absurd rfl (hnone _ hold)
  refine ⟨s, s', pc, new, hreach, hst, hlog, hnew, himminent, hmode, fun hsafe => ?_⟩
  have harch := (hsafe.point s' pc new hst hlog hnew).mode
  rw [hmode] at harch
  cases harch

end Drain

end Pipeline
end Runahead
end Gem5
