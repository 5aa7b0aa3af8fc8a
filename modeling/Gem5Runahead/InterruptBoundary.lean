import Gem5Runahead.CommitLog
import Gem5Runahead.RunaheadExit

/-!
# InterruptBoundary

When commit takes an interrupt. `canHandleInterrupts` is to say that the last committed microop can
be followed by an interrupt, but a pseudo-retired one overwrites it, and the exit squash does not
give it back.

* `Boundary`, `Awaited` — what the flag and the wires of the restore say, in terms of the log.
* `interrupts_at_boundary_iff` — when interrupts are taken at architectural boundaries only.
-/

namespace Gem5
namespace Runahead
namespace Pipeline

variable {cfg : PipelineParams} {s s' : Pipeline} {l : Label} {ls : List Label}

/-- Whether the last instruction of the sequence is a delayed-commit one. -/
def lastDelayed (seq : List DynInst) : Bool := seq.head?.any (·.isDelayedCommit)

/-- `canHandleInterrupts` when runahead was last entered. -/
def entryCanHandle (log : List Event) : Option Bool :=
  log.findSome? fun
    | .enter _ _ canHandle => some canHandle
    | _ => none

/-- Whether the last exit squash still waits for its restore. -/
def awaitsRestore (log : List Event) : Bool :=
  log.findSome? (fun
    | .exitSquash .. => some true
    | .archRestore => some false
    | _ => none) = some true

/-- Interrupts are taken and raised at architectural boundaries only, and a period leaves
`canHandleInterrupts` as it was at its entry. -/
structure AtBoundary (cfg : PipelineParams) (s : Pipeline) (l : Label) : Prop where
  process : ∀ s' pc new, s.step cfg l = some s' → s'.log = new ++ s.log →
    .processInterrupts pc ∈ new →
    s.inRunahead = false ∧ awaitsRestore s.log = false ∧ lastDelayed (archSeq s.log) = false
  propagate : ∀ s' new, s.step cfg l = some s' → s'.log = new ++ s.log →
    .propagateInterrupt ∈ new → s.inRunahead = false ∧ awaitsRestore s.log = false
  exit : ∀ s' period pc canHandle new, s.step cfg l = some s' → s'.log = new ++ s.log →
    .exitSquash period pc canHandle ∈ new → entryCanHandle s.log = some canHandle

/-- If this is the exit squash of a period, the last instruction that retired before it and the
last one that committed architecturally are both delayed-commit ones, or both not. -/
def Agrees (s : Pipeline) (l : Label) : Prop :=
  l = .squash → s.exits = true →
    lastDelayed (committedSeq s.log) = lastDelayed (archSeq s.log)

/-- What the flag stands for. -/
structure Boundary (t : Tally) (log : List Event) : Prop where
  canHandle : t.canHandleInterrupts = !lastDelayed (committedSeq log)
  entry : t.inRunahead = true → entryCanHandle log = some (!lastDelayed (archSeq log))
  normal : t.inRunahead = false → lastDelayed (committedSeq log) = lastDelayed (archSeq log)

/-- An exit squash that waits for its restore is on the wires. -/
def Awaited (t : Tally) (log : List Event) : Prop :=
  awaitsRestore log = true → t.archRestore = true ∨ t.archRestorePrev = true

theorem entryCanHandle_append {new : List Event} (log : List Event)
    (h : ∀ e ∈ new, e.mode = false) : entryCanHandle (new ++ log) = entryCanHandle log := by
  rw [entryCanHandle, List.findSome?_append, List.findSome?_eq_none_iff.mpr]
  · rfl
  · intro e he
    have := h e he
    cases e <;> first | rfl | cases this

theorem awaitsRestore_append {new : List Event} (log : List Event)
    (h : ∀ e ∈ new, e.mode = false) : awaitsRestore (new ++ log) = awaitsRestore log := by
  rw [awaitsRestore, List.findSome?_append, List.findSome?_eq_none_iff.mpr]
  · rfl
  · intro e he
    have := h e he
    cases e <;> first | rfl | cases this

/-- Events that commit nothing and are about no period change nothing. -/
theorem Boundary.append {t : Tally} {new log : List Event} (h : Boundary t log)
    (hseq : committedSeq new = []) (hmodes : ∀ e ∈ new, e.mode = false) :
    Boundary t (new ++ log) := by
  have harch : archSeq (new ++ log) = archSeq log := by
    rw [archSeq, committedSeq_append, hseq]
    rfl
  refine ⟨?_, fun hmode => ?_, fun hmode => ?_⟩
  · rw [committedSeq_append, hseq]
    exact h.canHandle
  · rw [entryCanHandle_append log hmodes, harch]
    exact h.entry hmode
  · rw [committedSeq_append, hseq, harch]
    exact h.normal hmode

theorem commit_modes {head : Nat} {new : List Event}
    (hnew : ∀ e ∈ new, e.quiet = true ∨ (∃ pc, e = .pcEvent head (s.mark head) pc) ∨
      e = .commitDrained (s.insts head).nextPC) :
    ∀ e ∈ new ++ [.retire head (s.insts head) (s.mark head)], e.mode = false := by
  intro e he
  rcases commit_events hnew he with hquiet | ⟨pc, rfl⟩ | rfl | rfl
  · exact Event.mode_of_quiet hquiet
  · rfl
  · rfl
  · rfl

theorem Deed.awaited {new : List Event} {t : Tally} (h : Deed cfg s l new t)
    (hs : Awaited s.tally s.log) : Awaited t (new ++ s.log) := by
  have hkeep : ∀ t : Tally, t.archRestore = s.commit.archRestore →
      t.archRestorePrev = s.commit.archRestorePrev → ∀ new : List Event,
      (∀ e ∈ new, e.mode = false) → Awaited t (new ++ s.log) := by
    intro t hnow hprev new hnew hawaits
    rw [awaitsRestore_append _ hnew] at hawaits
    rw [hnow, hprev]
    exact hs hawaits
  cases h with
  | quiet hnew => exact hkeep _ rfl rfl _ fun e he => Event.mode_of_quiet (hnew e he)
  | propagate | process | squashed => exact hkeep _ rfl rfl _ (by simp [Event.mode])
  | exit => exact fun _ => .inl rfl
  | enter => exact hs
  | commit _ _ hnew => exact hkeep _ rfl rfl _ (commit_modes hnew)
  | finish =>
    cases hprev : s.commit.archRestorePrev with
    | false =>
      intro hawaits
      rcases hs hawaits with hdue | hdue
      · exact .inr hdue
      · exact absurd (hprev.symm.trans hdue) (by simp)
    | true =>
      intro hawaits
      cases hawaits

theorem reaches_awaited (h : (system cfg).Reaches ls s) : Awaited s.tally s.log := by
  let I (ls : List Label) (s : Pipeline) : Prop :=
    (system cfg).Reaches ls s ∧ Awaited s.tally s.log
  refine (h.history (I := I) ?_ ?_).2
  · rintro s ⟨pc, rfl⟩
    exact ⟨.start ⟨pc, rfl⟩, fun hawaits => by cases hawaits⟩
  · rintro ls s l s' ⟨hreach, hs⟩ hst
    obtain ⟨new, hlog, hdeed⟩ := step_deed (reaches_core hreach) hst
    refine ⟨hreach.snoc hst, ?_⟩
    rw [hlog]
    exact hdeed.awaited hs

/-- With nothing on the wires no exit squash waits. -/
theorem Awaited.restored (h : Awaited s.tally s.log) (hnow : s.commit.archRestore = false)
    (hprev : s.commit.archRestorePrev = false) : awaitsRestore s.log = false := by
  by_contra hawaits
  rcases h (by simpa using hawaits) with hdue | hdue
  · exact absurd (hnow.symm.trans hdue) (by simp)
  · exact absurd (hprev.symm.trans hdue) (by simp)

theorem lastDelayed_cons (inst : DynInst) (seq : List DynInst) :
    lastDelayed (inst :: seq) = inst.isDelayedCommit := by
  simp [lastDelayed]

/-- What a step does to the flag, and to what it stands for. -/
theorem Deed.boundary {new : List Event} {t : Tally} (hcore : s.window.Core)
    (h : Deed cfg s l new t) (hagree : Agrees s l) (hs : Boundary s.tally s.log) :
    Boundary t (new ++ s.log) := by
  cases h with
  | quiet hnew =>
    exact hs.append (committedSeq_quiet hnew) fun e he => Event.mode_of_quiet (hnew e he)
  | propagate | process => exact hs.append rfl (by simp [Event.mode])
  | exit hexits =>
    -- the period is over: its last instruction stands for the one before it
    exact ⟨hs.canHandle, fun hmode => (by cases hmode), fun _ => hagree rfl hexits⟩
  | enter hmode _ =>
    refine ⟨hs.canHandle, fun _ => ?_, fun hmode => (by cases hmode)⟩
    have hflag : s.commit.canHandleInterrupts = !lastDelayed (committedSeq s.log) := hs.canHandle
    have hsame : lastDelayed (committedSeq s.log) = lastDelayed (archSeq s.log) := hs.normal hmode
    change some s.commit.canHandleInterrupts = some (!lastDelayed (archSeq s.log))
    rw [hflag, hsame]
  | squashed hsquashed =>
    refine hs.append ?_ (by simp [Event.mode])
    simp [committedSeq, Event.committed, hsquashed]
  | @commit e n head new hphase hcommits hnew _ _ =>
    have hseq := commit_sequence hcommits hnew
    have hrunahead := hcommits.runahead hcore hphase
    have hmodes := commit_modes hnew
    refine ⟨?_, fun hmode => ?_, fun hmode => ?_⟩
    · rw [committedSeq_append, hseq, List.singleton_append, lastDelayed_cons]
    · -- in runahead the head pseudo-retires
      have hmode : s.inRunahead = true := hmode
      rw [entryCanHandle_append _ hmodes, archSeq_append, (seqs_of_commit hseq).1,
        if_pos (hrunahead.trans hmode)]
      exact hs.entry hmode
    · have hmode : s.inRunahead = false := hmode
      rw [committedSeq_append, archSeq_append, hseq, (seqs_of_commit hseq).1,
        if_neg (by rw [hrunahead, hmode]; simp), List.singleton_append, List.singleton_append,
        lastDelayed_cons, lastDelayed_cons]
  | finish => cases s.commit.archRestorePrev <;> exact ⟨hs.canHandle, hs.entry, hs.normal⟩

theorem boundary_start (pc : PCState) : Boundary (start pc).tally (start pc).log :=
  ⟨rfl, fun hmode => (by cases hmode), fun _ => rfl⟩

theorem reaches_boundary (h : ((system cfg).guard Agrees).Reaches ls s) :
    Boundary s.tally s.log := by
  let I (ls : List Label) (s : Pipeline) : Prop :=
    ((system cfg).guard Agrees).Reaches ls s ∧ Boundary s.tally s.log
  refine (h.history (I := I) ?_ ?_).2
  · rintro s ⟨pc, rfl⟩
    exact ⟨.start ⟨pc, rfl⟩, boundary_start pc⟩
  · rintro ls s l s' ⟨hreach, hs⟩ ⟨hst, hagree⟩
    obtain ⟨new, hlog, hdeed⟩ := step_deed (reaches_core hreach.of_guard) hst
    refine ⟨hreach.snoc ⟨hst, hagree⟩, ?_⟩
    rw [hlog]
    exact hdeed.boundary (reaches_core hreach.of_guard) hagree hs

/-- The interrupts of a step are at a boundary if the flag stands for what it is to stand for. -/
theorem Boundary.atBoundary (hcore : s.window.Core) (hs : Boundary s.tally s.log)
    (hawaited : Awaited s.tally s.log) (hagree : Agrees s l) : AtBoundary cfg s l := by
  have hdeed : ∀ s' new, s.step cfg l = some s' → s'.log = new ++ s.log →
      Deed cfg s l new s'.tally := by
    intro s' new hst hnew
    obtain ⟨new', hlog, hdeed⟩ := step_deed hcore hst
    rw [hlog] at hnew
    obtain rfl := List.append_cancel_right hnew
    exact hdeed
  refine ⟨fun s' pc new hst hnew hmem => ?_, fun s' new hst hnew hmem => ?_,
    fun s' period pc canHandle new hst hnew hmem => ?_⟩
  · obtain ⟨hcan, hmode, hnow, hprev⟩ := (hdeed s' new hst hnew).process_cases hmem
    refine ⟨hmode, hawaited.restored hnow hprev, ?_⟩
    have hflag : s.commit.canHandleInterrupts = !lastDelayed (committedSeq s.log) := hs.canHandle
    rw [← hs.normal hmode]
    simpa using hflag.symm.trans hcan
  · obtain ⟨hmode, hnow, hprev⟩ := (hdeed s' new hst hnew).propagate_cases hmem
    exact ⟨hmode, hawaited.restored hnow hprev⟩
  · obtain ⟨rfl, hexits, rfl⟩ := (hdeed s' new hst hnew).exit_cases hmem
    have hmode := hcore.modes.exit (exitRunahead_of_exits hexits)
    have hflag : s.commit.canHandleInterrupts = !lastDelayed (committedSeq s.log) := hs.canHandle
    rw [hs.entry hmode, hflag, hagree rfl hexits]

/-- The exit squash leaves `canHandleInterrupts` as it is; so it has to be what it was. -/
theorem agrees_of_atBoundary (hcore : s.window.Core) (hst : s.step cfg l = some s')
    (hs : Boundary s.tally s.log) (h : AtBoundary cfg s l) : Agrees s l := by
  rintro rfl hexits
  have hmode := hcore.modes.exit (exitRunahead_of_exits hexits)
  have hlog : s'.log =
      [.exitSquash s.runaheadPeriods s.commit.storedPC s.commit.canHandleInterrupts] ++ s.log := by
    simp only [step] at hst
    split at hst
    · obtain ⟨t, ht, hst⟩ := Option.bind_eq_some_iff.mp hst
      cases hst
      rw [squash_of_exits hexits] at ht
      obtain ⟨_, _, _, _, _, rfl⟩ := squashFromRunaheadExit_frame ht
      rfl
    · cases hst
  have hsame := h.exit s' _ _ _ _ hst hlog List.mem_cons_self
  have hflag : s.commit.canHandleInterrupts = !lastDelayed (committedSeq s.log) := hs.canHandle
  rw [hs.entry hmode, hflag] at hsame
  simpa using hsame.symm

/-- **Interrupts are taken at architectural boundaries only, and `canHandleInterrupts` survives
every period, exactly in the runs in which at each exit squash the last instruction that retired
is a delayed-commit one if and only if the last architectural one is.** -/
theorem interrupts_at_boundary_iff : ((system cfg).guard (AtBoundary cfg)).Reaches ls s ↔
    ((system cfg).guard Agrees).Reaches ls s := by
  constructor
  · intro h
    let I (ls : List Label) (s : Pipeline) : Prop := ((system cfg).guard Agrees).Reaches ls s
    refine h.history (I := I) (fun s hs => .start hs) ?_
    rintro ls s l s' hreach ⟨hst, hboundary⟩
    exact hreach.snoc ⟨hst, agrees_of_atBoundary (reaches_core hreach.of_guard) hst
      (reaches_boundary hreach) hboundary⟩
  · intro h
    let I (ls : List Label) (s : Pipeline) : Prop :=
      ((system cfg).guard (AtBoundary cfg)).Reaches ls s ∧ ((system cfg).guard Agrees).Reaches ls s
    refine (h.history (I := I) (fun s hs => ⟨.start hs, .start hs⟩) ?_).1
    rintro ls s l s' ⟨hreach, hreach'⟩ ⟨hst, hagree⟩
    exact ⟨hreach.snoc ⟨hst, (reaches_boundary hreach').atBoundary (reaches_core hreach.of_guard)
      (reaches_awaited hreach.of_guard) hagree⟩, hreach'.snoc ⟨hst, hagree⟩⟩

def eagerExit : PipelineParams := { minimumWork with exitPolicy := .eager }

/-- The first microop of an instruction commits; the second one is a load that misses, pseudo-retires
and ends the period. Then an interrupt is raised. -/
def microops : List Label :=
  tick [{ isMicroop := true, isDelayedCommit := true },
      { isMicroop := true, isLastMicroop := true, isLoad := true }] 0 [] 0 [{}] ++
    tick [] 2 [] 0 [{}] ++ tick [] 0 [] 0 [{}] ++ tick [] 0 [1] 1 [{}] ++ tick [] 0 [] 0 [{}] ++
    tick [] 0 [] 0 [{}, {}] ++ tick [] 0 [] 0 [missed] ++ [.dataReturn 2 true false] ++
    tick [] 0 [] 1 [{}] ++ tick [] 0 [] 0 [{}] ++ tick [] 0 [] 0 [{}, {}] ++ [.signalExitRunahead] ++
    tick [] 0 [] 0 [] ++ tick [] 0 [] 0 [{}] ++
    [.fetchSignals none, .renameInsts 0, .iewSignals false, .writebackInsts 0,
      .commitTick true true, .squash, .iewSquash]

/-- Commit takes the interrupt between the two microops. -/
theorem interrupt_between_microops : ∃ s s' e pc, (system eagerExit).Reaches microops s ∧
    s.step eagerExit (.commitInst e) = some s' ∧ s'.log = .processInterrupts pc :: s.log ∧
    s.inRunahead = false ∧ lastDelayed (archSeq s.log) = true ∧
    ¬ AtBoundary eagerExit s (.commitInst e) := by
  let e : CommitEnv := { checkInterrupts := true }
  have hrun : (microops.foldlM (step eagerExit) (start {})).any (fun s =>
      !s.inRunahead && lastDelayed (archSeq s.log) &&
        (s.step eagerExit (.commitInst e)).any fun s' =>
          decide (s'.log.length = s.log.length + 1) && s'.log.head?.any fun
            | .processInterrupts _ => true
            | _ => false) = true := by
    decide +kernel
  obtain ⟨s, hs, h⟩ := (Option.any_eq_true _ _).mp hrun
  simp only [Bool.and_eq_true, Bool.not_eq_true'] at h
  obtain ⟨⟨hmode, hdelayed⟩, htaken⟩ := h
  obtain ⟨s', hst, htaken⟩ := (Option.any_eq_true _ _).mp htaken
  simp only [Bool.and_eq_true, decide_eq_true_eq] at htaken
  obtain ⟨hlength, htaken⟩ := htaken
  obtain ⟨event, hevent, hprocess⟩ := (Option.any_eq_true _ _).mp htaken
  have hreach : (system eagerExit).Reaches microops s :=
    ⟨start {}, ⟨{}, rfl⟩, .of_foldlM (M := system eagerExit) (fun _ _ _ h => h) hs⟩
  obtain ⟨new, hlog, -⟩ := step_deed (reaches_core hreach) hst
  obtain ⟨event', rfl⟩ : ∃ event', new = [event'] := by
    rw [hlog, List.length_append, Nat.add_comm] at hlength
    exact List.length_eq_one_iff.mp (Nat.add_left_cancel hlength)
  obtain rfl : event' = event := by
    rw [hlog] at hevent
    exact Option.some.inj hevent
  split at hprocess
  · rename_i pc
    refine ⟨s, s', e, pc, hreach, hst, hlog, hmode, hdelayed, fun h => ?_⟩
    have hnot := (h.process s' pc _ hst hlog List.mem_cons_self).2.2
    rw [hdelayed] at hnot
    cases hnot
  · cases hprocess

end Pipeline
end Runahead
end Gem5
