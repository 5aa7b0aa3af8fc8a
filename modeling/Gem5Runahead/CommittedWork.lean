import Gem5Runahead.CommitLog
import Gem5Runahead.RunaheadExit

/-!
# CommittedWork

What a thread's counters say about its work. Real and pseudo-retirement share the path through
`updateComInstStats` and `instDone`, and the PC events after it.

* `Tallied` — what the counters hold in every run: `numOp` has the pseudo-retired operations too.
* `committed_work_counted_iff` — when speculative work is neither counted nor observed.
-/

namespace Gem5
namespace Runahead
namespace Pipeline

variable {cfg cfg' : PipelineParams} {s s' : Pipeline} {l : Label} {ls ls' : List Label}

/-- The counters are those of the instructions that committed architecturally, and no PC event
was serviced on behalf of a runahead instruction. -/
structure Counts (s : Pipeline) : Prop where
  numInst : s.numInst = (archSeq s.log).countP isInst
  numOp : s.numOp = (archSeq s.log).countP isOp
  pcEvents : ∀ i mark pc, .pcEvent i mark pc ∈ s.log → mark = none

/-- What the counters hold: `instDone` counts an operation of any mode. -/
structure Tallied (s : Pipeline) : Prop where
  numInst : s.numInst = (archSeq s.log).countP isInst
  numOp : s.numOp = (archSeq s.log).countP isOp + (pseudoSeq s.log).countP isOp

theorem step_tallied (hcore : s.window.Core) (hst : s.step cfg l = some s') (hs : s.Tallied) :
    s'.Tallied := by
  obtain ⟨new, hlog, hdeed⟩ := step_deed hcore hst
  rcases hdeed.sequences with ⟨hnone, hinst, hop, -⟩ |
    ⟨e, n, head, -, -, -, hseq, -, hinst, hop⟩
  · have hinst : s'.numInst = s.numInst := hinst
    have hop : s'.numOp = s.numOp := hop
    have harch : archSeq s'.log = archSeq s.log := by
      rw [hlog, archSeq_append, archSeq, hnone]
      rfl
    have hpseudo : pseudoSeq s'.log = pseudoSeq s.log := by
      rw [hlog, pseudoSeq_append, pseudoSeq, hnone]
      rfl
    exact ⟨by rw [hinst, harch, hs.numInst], by rw [hop, harch, hpseudo, hs.numOp]⟩
  · obtain ⟨harch, hpseudo⟩ := seqs_of_commit hseq
    have hinst : s'.numInst = s.numInst + _ := hinst
    have hop : s'.numOp = s.numOp + _ := hop
    refine ⟨?_, ?_⟩
    · rw [hinst, hlog, archSeq_append, harch, hs.numInst]
      cases (s.insts head).runahead <;> cases hi : isInst (s.insts head) <;> simp [hi, Nat.add_comm]
    · rw [hop, hlog, archSeq_append, pseudoSeq_append, harch, hpseudo, hs.numOp]
      cases (s.insts head).runahead <;> cases hi : isOp (s.insts head) <;> simp [hi] <;> omega

theorem reaches_tallied (h : (system cfg).Reaches ls s) : s.Tallied := by
  let I (ls : List Label) (s : Pipeline) : Prop := (system cfg).Reaches ls s ∧ s.Tallied
  refine (h.history (I := I) ?_ ?_).2
  · rintro s ⟨pc, rfl⟩
    exact ⟨.start ⟨pc, rfl⟩, rfl, rfl⟩
  · rintro ls s l s' ⟨hreach, hs⟩ hst
    exact ⟨hreach.snoc hst, step_tallied (reaches_core hreach) hst hs⟩

/-- After the step the counters are right, and nothing speculative has been observed. -/
def Counted (cfg : PipelineParams) (s : Pipeline) (l : Label) : Prop :=
  ∀ s', s.step cfg l = some s' → s'.Counts

/-- A runahead instruction that pseudo-retires in this step is a nop or an instruction prefetch,
and no PC event is due after it. -/
def Unobserved (cfg : PipelineParams) (s : Pipeline) (l : Label) : Prop :=
  ∀ e n head, l = .commitInst e → s.phase = .commitInsts n → s.Commits cfg n head →
    (s.insts head).runahead = true →
    isOp (s.insts head) = false ∧ (onInstBoundary (s.insts head) = true → e.pcEvents = [])

theorem mark_of_runahead {i : Nat} (h : (s.insts i).runahead = true) :
    s.mark i = some (s.markedIn i) := by
  rw [mark, if_pos h]

/-- A pseudo-retirement is counted, and PC events see it. -/
theorem unobserved_of_counted (hcore : s.window.Core) (hst : s.step cfg l = some s')
    (ht : s'.Tallied) (hs' : s'.Counts) : Unobserved cfg s l := by
  rintro e n head rfl hphase hcommits hrunahead
  obtain ⟨new, hlog, hpc, -, -⟩ := commits_deed hcore hphase hcommits hst
  have hnone : (pseudoSeq s'.log).countP isOp = 0 := by
    have hcounts := hs'.numOp
    have htally := ht.numOp
    omega
  have hmem : s.insts head ∈ pseudoSeq s'.log := by
    rw [hlog, pseudoSeq_append]
    simp [pseudoSeq, committedSeq, Event.committed, hcommits.live, hrunahead]
  refine ⟨by simpa using List.countP_eq_zero.mp hnone _ hmem, fun hboundary => ?_⟩
  by_contra hdue
  obtain ⟨pc, hevent⟩ := hpc.mpr ⟨hboundary, hdue⟩
  have hmark : s.mark head = none := by
    refine hs'.pcEvents head (s.mark head) pc ?_
    rw [hlog]
    exact List.mem_append_left _ hevent
  rw [mark_of_runahead hrunahead] at hmark
  cases hmark

/-- What a step adds without a runahead instruction observed. -/
theorem counts_of_unobserved (hcore : s.window.Core) (hst : s.step cfg l = some s')
    (ht : s'.Tallied) (hs : s.Counts) (hpseudo : (pseudoSeq s.log).countP isOp = 0)
    (hun : Unobserved cfg s l) : s'.Counts ∧ (pseudoSeq s'.log).countP isOp = 0 := by
  obtain ⟨new, hlog, hdeed⟩ := step_deed hcore hst
  have hop : (pseudoSeq s'.log).countP isOp = 0 := by
    rw [hlog, pseudoSeq_append, List.countP_append, hpseudo]
    rcases hdeed.sequences with ⟨hnone, -⟩ | ⟨e, n, head, rfl, hphase, hcommits, hseq, -⟩
    · simp [pseudoSeq, hnone]
    · rw [(seqs_of_commit hseq).2]
      split
      · rename_i hrunahead
        simp [(hun e n head rfl hphase hcommits hrunahead).1]
      · rfl
  refine ⟨⟨ht.numInst, by rw [ht.numOp, hop, Nat.add_zero], fun i mark pc hmem => ?_⟩, hop⟩
  rw [hlog] at hmem
  rcases List.mem_append.mp hmem with hmem | hmem
  · generalize s'.tally = t at hdeed
    cases hdeed with
    | quiet hnew => cases hnew _ hmem
    | propagate | process | exit | enter | squashed => simp at hmem
    | @commit e n head new hphase hcommits hnew hpc _ =>
      rcases List.mem_append.mp hmem with hevent | hretire
      · rcases hnew _ hevent with hquiet | ⟨pc', heq⟩ | heq
        · cases hquiet
        · cases heq
          -- the events are due on an instruction boundary; so the head was not a runahead one
          obtain ⟨hboundary, hdue⟩ := hpc.mp ⟨pc, hevent⟩
          have hnormal : ¬ (s.insts i).runahead = true := fun hrunahead =>
            hdue ((hun e n i rfl hphase hcommits hrunahead).2 hboundary)
          rw [Pipeline.mark, if_neg hnormal]
        · cases heq
      · cases List.mem_singleton.mp hretire
    | finish => split at hmem <;> simp at hmem
  · exact hs.pcEvents i mark pc hmem

/-- **The counters tell the committed work, and no PC event sees a runahead instruction, exactly
in the runs in which what pseudo-retires is not counted by `instDone` and has no PC event due;
two such runs that commit the same instructions end with the same counters.** -/
theorem committed_work_counted_iff :
    (((system cfg).guard (Counted cfg)).Reaches ls s ↔
      ((system cfg).guard (Unobserved cfg)).Reaches ls s) ∧
    (((system cfg).guard (Unobserved cfg)).Reaches ls s →
      ((system cfg').guard (Unobserved cfg')).Reaches ls' s' →
      archSeq s.log = archSeq s'.log → s.numInst = s'.numInst ∧ s.numOp = s'.numOp) := by
  have hcounts : ∀ {cfg ls s}, ((system cfg).guard (Unobserved cfg)).Reaches ls s →
      ((system cfg).guard (Counted cfg)).Reaches ls s ∧ s.Counts := by
    intro cfg ls s h
    let I (ls : List Label) (s : Pipeline) : Prop :=
      ((system cfg).guard (Counted cfg)).Reaches ls s ∧ s.Counts ∧
        (pseudoSeq s.log).countP isOp = 0
    obtain ⟨hreach, hs, -⟩ : I ls s := by
      refine h.history ?_ ?_
      · rintro s ⟨pc, rfl⟩
        exact ⟨.start ⟨pc, rfl⟩, ⟨rfl, rfl, fun _ _ _ h => absurd h List.not_mem_nil⟩, rfl⟩
      · rintro ls s l s' ⟨hreach, hs, hpseudo⟩ ⟨hst, hun⟩
        have hcore := reaches_core hreach.of_guard
        have hkeep : ∀ s', s.step cfg l = some s' → s'.Counts ∧ (pseudoSeq s'.log).countP isOp = 0 :=
          fun s' hst => counts_of_unobserved hcore hst
            (step_tallied hcore hst (reaches_tallied hreach.of_guard)) hs hpseudo hun
        exact ⟨hreach.snoc ⟨hst, fun s' hst => (hkeep s' hst).1⟩, hkeep s' hst⟩
    exact ⟨hreach, hs⟩
  refine ⟨⟨fun h => ?_, fun h => (hcounts h).1⟩, fun h h' hseq => ?_⟩
  · let I (ls : List Label) (s : Pipeline) : Prop :=
      ((system cfg).guard (Unobserved cfg)).Reaches ls s
    refine h.history (I := I) (fun s hs => .start hs) ?_
    rintro ls s l s' hreach ⟨hst, hcounted⟩
    have hcore := reaches_core hreach.of_guard
    exact hreach.snoc ⟨hst, unobserved_of_counted hcore hst
      (step_tallied hcore hst (reaches_tallied hreach.of_guard)) (hcounted s' hst)⟩
  · have hs := (hcounts h).2
    have hs' := (hcounts h').2
    rw [hs.numInst, hs'.numInst, hs.numOp, hs'.numOp, hseq]
    exact ⟨rfl, rfl⟩

/-- The load that caused the period pseudo-retires, and a PC event looks at the thread. -/
def pseudoLoad : List Label :=
  entry ++ [.dataReturn 1 true false] ++ tick [] 0 [] 1 [{}] ++ tick [] 0 [] 0 [{}] ++
    tick [] 0 [] 0 [{ pcEvents := [.observe] }, {}]

/-- No instruction has committed architecturally, but one operation is counted, and a PC event has
been serviced for it. -/
theorem pseudo_retired_op_counted : ∃ s, (system minimumWork).Reaches pseudoLoad s ∧
    archSeq s.log = [] ∧ s.numOp = 1 ∧ (∃ pc, .pcEvent 1 (some 1) pc ∈ s.log) ∧ ¬ s.Counts := by
  have hrun : (pseudoLoad.foldlM (step minimumWork) (start {})).any (fun s =>
      (archSeq s.log).isEmpty && decide (s.numOp = 1) && s.log.any (fun
        | .pcEvent i n _ => decide (i = 1 ∧ n = some 1)
        | _ => false)) = true := by
    decide +kernel
  obtain ⟨s, hs, h⟩ := (Option.any_eq_true _ _).mp hrun
  simp only [Bool.and_eq_true, List.isEmpty_iff, decide_eq_true_eq, List.any_eq_true] at h
  obtain ⟨⟨hnone, hop⟩, e, hmem, hevent⟩ := h
  refine ⟨s, ⟨start {}, ⟨{}, rfl⟩, .of_foldlM (M := system minimumWork) (fun _ _ _ h => h) hs⟩,
    hnone, hop, ?_, fun hcounts => ?_⟩
  · split at hevent
    · obtain ⟨rfl, rfl⟩ := of_decide_eq_true hevent
      exact ⟨_, hmem⟩
    · cases hevent
  · have hzero := hcounts.numOp
    rw [hnone, hop] at hzero
    cases hzero

end Pipeline
end Runahead
end Gem5
