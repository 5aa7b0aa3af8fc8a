import Gem5Runahead.InstAges
import Gem5Runahead.PipelineFrame
import Mathlib.Data.List.Perm.Subperm

/-!
# IEWQueues

The pipeline with the queues of IEW. Rename sends an instruction to commit and to IEW, and IEW
reads it one cycle after commit. IEW dispatches it to the instruction queue, which hands it out to
be executed, more than once if its translation is delayed, the cache is blocked, a store is in the
way or it is to wait for commit. So there may be instructions in IEW that commit has not put into
the ROB, and instructions that the ROB has marked squashed already.

What the instruction queue orders, and when, is in the labels. A load can get its data while the
queue is still to hand it out again.

* `iewSignals`, `dispatchInst`, `execute`, `dataReturn` — IEW's part of a tick.
* `InTime` — what is assumed of the time between issue and execution.
* `step_core` — what holds of the window of instructions holds with these queues as well.
-/

namespace Gem5
namespace Runahead

open Pipeline (ExecResult Redirect)

/-- What the execution of an instruction comes to in IEW. -/
inductive Outcome where
  /-- It is deferred, blocked or rescheduled, and will be handed out again. -/
  | again
  /-- It waits for its data. -/
  | sent
  /-- It is left to commit, which will have it replayed. -/
  | unexecuted
  | done (fault : Bool)
deriving DecidableEq

namespace Outcome

def result : Outcome → ExecResult
  | again | sent => .waits
  | unexecuted => .unexecuted
  | done fault => .done fault

/-- The instruction queue keeps the instruction. -/
def keeps : Outcome → Bool
  | again | unexecuted => true
  | _ => false

end Outcome

/-- The pipeline and the instructions in IEW. -/
structure Backend where
  pipe : Pipeline
  /-- What commit has read from rename in this tick. -/
  toIEW : List Nat := []
  /-- What IEW reads from rename in this tick. -/
  fromRename : List Nat := []
  /-- To be dispatched: the skid buffer, and what has come from rename. -/
  insts : List Nat := []
  /-- To be handed out by the instruction queue. -/
  instQueue : List Nat := []
  /-- Executed, and waiting for their data. -/
  inMemory : List Nat := []

namespace Backend

variable (cfg : PipelineParams)

def inst (s : Backend) (i : Nat) : DynInst := s.pipe.insts i

/-- IEW's queues. -/
def inIEW (s : Backend) : List Nat := s.instQueue ++ s.insts ++ s.fromRename ++ s.toIEW

section IEW

/-- `sortInsts`, and what `IEW::squash` and `emptyRenameInsts` do to the queues. -/
def iewSignals (s : Backend) (pipe : Pipeline) : Backend :=
  { s with
    pipe
    fromRename := []
    insts := if s.pipe.iew.fromCommit.squash then []
      else if s.pipe.iew.fromCommit.robSquashing then s.insts
      else s.insts ++ s.fromRename }

/-- Commit has to tell IEW when to execute the instruction. -/
def waitsForCommit (inst : DynInst) (barrier : Bool) : Bool :=
  inst.isAtomic || inst.isStoreConditional || inst.isNonSpeculative || barrier

/-- The loop body of `IEW::dispatchInsts`. The flag says that the instruction is a barrier that
does not refer to memory. -/
def dispatchInst (s : Backend) (barrier : Bool) : Option Backend :=
  match s.insts with
  | [] => none
  | i :: rest =>
    if (s.inst i).squashed || s.pipe.inSquashWindow i then
      some { s with pipe := s.pipe.modifyInst i DynInst.setSquashed, insts := rest }
    else if !Pipeline.isMemRef (s.inst i) && !barrier && (s.inst i).isNop then
      some { s with
        pipe := s.pipe.modifyInst i fun inst => inst.setIssued.setExecuted.setCanCommit
        insts := rest }
    else
      let pipe := if waitsForCommit (s.inst i) barrier then
        s.pipe.modifyInst i DynInst.setCanCommit else s.pipe
      some { s with pipe, insts := rest, instQueue := s.instQueue ++ [i] }

/-- The queue drops an instruction that is squashed, and a load that got its data in the
meantime. -/
def leaveQueue (s : Backend) (i : Nat) : Option Backend :=
  if i ∈ s.instQueue ∧ ((s.inst i).squashed || Pipeline.isMemRef (s.inst i) && (s.inst i).executed)
  then some { s with instQueue := s.instQueue.erase i }
  else none

/-- Most poisoned instructions need not execute. -/
def skips (inst : DynInst) : Bool :=
  inst.poisoned && (!inst.isStore || inst.isNonSpeculative || inst.isAtomic)

/-- What is handed out has not retired. `getBlockedMemInstToExecute` drops a load that has got its
data. One that gets it later, between there and `executeInsts`, retires two cycles after that at
the earliest; it is the oldest then, and with one cycle from issue to execution and a memory unit
for the oldest load it is executed by that time. -/
def InTime (s : Backend) (i : Nat) : Prop :=
  (s.inst i).executed = true → i ∈ s.pipe.rob.instList

instance (s : Backend) (i : Nat) : Decidable (s.InTime i) :=
  inferInstanceAs (Decidable (_ → _))

/-- The loop body of `IEW::executeInsts`. -/
def execute (s : Backend) (i : Nat) (o : Outcome) (r : Redirect) : Option Backend :=
  if i ∈ s.instQueue ∧ o.result.Legal (s.inst i) ∧ s.InTime i then
    if (s.inst i).squashed || s.pipe.stale i || s.pipe.inSquashWindow i then
      some { s with
        pipe := s.pipe.modifyInst i fun inst => inst.setSquashed.setExecuted.setCanCommit
        instQueue := s.instQueue.erase i }
    else
      let pipe := s.pipe.executeInst i o.result
      let o := if skips (pipe.insts i) then .done false else o
      some { s with
        pipe := pipe.redirect i r
        instQueue := if o.keeps then s.instQueue else s.instQueue.erase i
        inMemory := if o = .sent then s.inMemory ++ [i] else s.inMemory }
  else none

/-- `LSQUnit::writeback`, and the check for a mispredicted branch after it. -/
def writeback (s : Pipeline) (i : Nat) (poisoned mispredicted : Bool) : Pipeline :=
  if (s.insts i).squashed || s.stale i then s
  else
    let s := if poisoned then s.modifyInst i DynInst.setPoisoned else s
    let s := if (s.insts i).executed || (s.insts i).fault then s else s.writeRegs i
    let s := (s.modifyInst i DynInst.setExecuted).instToCommit i
    if mispredicted then s.squashDueToBranch i else s

/-- A data access completes, or a forged response does. -/
def dataReturn (s : Backend) (i : Nat) (poisoned mispredicted : Bool) : Option Backend :=
  if (i ∈ s.inMemory ∨ i ∈ s.instQueue) ∧ Pipeline.isMemRef (s.inst i) = true then
    some { s with
      pipe := writeback s.pipe i poisoned mispredicted
      inMemory := s.inMemory.erase i }
  else none

end IEW

section Step

/-- A request that has been sent, and is not complete, is that of a load that waits for its data. -/
def SentLoad (s : Backend) (e : Pipeline.CommitEnv) : Prop :=
  ∀ request ∈ e.request, request.sent = true → request.complete = false →
    ∀ head ∈ s.pipe.rob.instList.head?, head ∈ s.inMemory

instance (s : Backend) (e : Pipeline.CommitEnv) : Decidable (s.SentLoad e) :=
  inferInstanceAs (Decidable (∀ _ ∈ _, _))

/-- The steps of the other stages. -/
def Allows (s : Backend) : Pipeline.Label → Prop
  | .execute .. | .dataReturn .. | .dispatchNonSpec _ => False
  | .commitInst e => s.SentLoad e
  | _ => True

instance (s : Backend) : (l : Pipeline.Label) → Decidable (s.Allows l)
  | .execute .. | .dataReturn .. | .dispatchNonSpec _ => inferInstanceAs (Decidable False)
  | .commitInst e => inferInstanceAs (Decidable (s.SentLoad e))
  | .signalExitRunahead | .deadline _ | .processTrapEvent | .drain | .drainResume | .tcWrite _
  | .icacheResponse | .fetchSignals _ | .fetchInst .. | .fetchWait | .fetchDiscard _
  | .renameInsts _ | .iewSignals _ | .writebackInsts _ | .commitTick .. | .squash | .iewSquash
  | .finish => inferInstanceAs (Decidable True)

/-- What a step of another stage does to the queues. -/
def follow (s : Backend) (pipe : Pipeline) : Pipeline.Label → Backend
  | .iewSignals _ => s.iewSignals pipe
  | .iewSquash => { s with pipe, toIEW := s.pipe.front.fromRename }
  | .finish => { s with pipe, fromRename := s.toIEW, toIEW := [] }
  | _ => { s with pipe }

inductive Label where
  | pipe (l : Pipeline.Label)
  | dispatchInst (barrier : Bool)
  | leaveQueue (i : Nat)
  | execute (i : Nat) (o : Outcome) (r : Redirect)
  | dataReturn (i : Nat) (poisoned mispredicted : Bool)

def step (s : Backend) : Label → Option Backend
  | .pipe l =>
    if s.Allows l then do
      let pipe ← s.pipe.step cfg l
      return s.follow pipe l
    else none
  | .dispatchInst barrier => if s.pipe.phase = .iew then s.dispatchInst barrier else none
  | .leaveQueue i => if s.pipe.phase = .iew then s.leaveQueue i else none
  | .execute i o r => if s.pipe.phase = .iew then s.execute i o r else none
  | .dataReturn i poisoned mispredicted =>
    if s.pipe.phase = .idle then s.dataReturn i poisoned mispredicted else none

def system : Transition.System Backend Label where
  init s := ∃ pc, s = { pipe := Pipeline.start pc }
  step s l s' := s.step cfg l = some s'

end Step

section Frame

/-- Only instruction `i` is touched, and what IEW sends to commit. -/
structure Touches (i : Nat) (p p' : Pipeline) : Prop where
  frame : ∃ insts iewQueue toCommit log, p' = { p with
    list := { p.list with insts }
    iew := { p.iew with iewQueue, toCommit }
    log }
  others : ∀ j ≠ i, p'.insts j = p.insts j
  steady : (p.insts i).Steady (p'.insts i)

namespace Touches

variable {i : Nat} {p p' p'' : Pipeline}

theorem refl (i : Nat) (p : Pipeline) : Touches i p p :=
  ⟨⟨_, _, _, _, rfl⟩, fun _ _ => rfl, .refl _⟩

theorem trans (h : Touches i p p') (h' : Touches i p' p'') : Touches i p p'' := by
  obtain ⟨_, _, _, _, rfl⟩ := h.frame
  obtain ⟨_, _, _, _, rfl⟩ := h'.frame
  exact ⟨⟨_, _, _, _, rfl⟩, fun j hj => (h'.others j hj).trans (h.others j hj),
    h.steady.trans h'.steady⟩

theorem modifyInst {f : DynInst → DynInst} (hf : ∀ inst, DynInst.Steady inst (f inst)) (i : Nat)
    (p : Pipeline) : Touches i p (p.modifyInst i f) := by
  refine ⟨⟨_, _, _, _, rfl⟩, fun j hj => ?_, ?_⟩
  · rw [Pipeline.modifyInst_insts, Insts.modify_of_ne hj]
  · rw [Pipeline.modifyInst_insts, Insts.modify_self]
    exact hf _

theorem of_insts (hframe : ∃ iewQueue toCommit log, p' = { p with
    iew := { p.iew with iewQueue, toCommit }, log }) : Touches i p p' := by
  obtain ⟨_, _, _, rfl⟩ := hframe
  exact ⟨⟨_, _, _, _, rfl⟩, fun _ _ => rfl, .refl _⟩

theorem rob (h : Touches i p p') : p'.rob = p.rob := by
  obtain ⟨_, _, _, _, rfl⟩ := h.frame
  rfl

theorem all (h : Touches i p p') (j : Nat) : (p.insts j).Steady (p'.insts j) := by
  by_cases hj : j = i
  · subst hj
    exact h.steady
  · rw [h.others j hj]
    exact .refl _

theorem core (h : Touches i p p') (hcore : p.window.Core) : p'.window.Core := by
  have hwindow : p'.window = p.window.setInsts p'.insts := by
    obtain ⟨_, _, _, _, rfl⟩ := h.frame
    rfl
  rw [hwindow]
  exact hcore.insts h.all

end Touches

variable {p : Pipeline} {i : Nat}

theorem redirect_touches (p : Pipeline) (j i : Nat) (r : Redirect) :
    Touches j p (p.redirect i r) := by
  cases r with
  | none => exact .refl j p
  | mispredicted | violation => exact .of_insts ⟨_, _, _, rfl⟩

theorem executeInst_touches (p : Pipeline) (i : Nat) (result : ExecResult) :
    Touches i p (p.executeInst i result) := by
  simp only [Pipeline.executeInst]
  have hissued := Touches.modifyInst Pipeline.steady_setIssued i p
  generalize p.modifyInst i DynInst.setIssued = t at hissued ⊢
  have hpoisoned : Touches i p (if (t.insts i).runahead &&
      ((t.insts i).isNonSpeculative || (t.insts i).isAtomic) then
      t.modifyInst i DynInst.setPoisoned else t) := by
    split
    · exact hissued.trans (.modifyInst Pipeline.steady_setPoisoned i t)
    · exact hissued
  generalize (if (t.insts i).runahead &&
      ((t.insts i).isNonSpeculative || (t.insts i).isAtomic) then
      t.modifyInst i DynInst.setPoisoned else t) = u at hpoisoned ⊢
  have hsend : ∀ v, Touches i p v → Touches i p (v.instToCommit i) :=
    fun v hv => hv.trans (.of_insts ⟨_, _, _, rfl⟩)
  split
  · exact hsend _ (hpoisoned.trans (.modifyInst Pipeline.steady_setExecuted i u))
  · cases result with
    | waits => exact hpoisoned
    | unexecuted => exact hsend _ hpoisoned
    | done fault =>
      have hwrite : Touches i p (if (u.insts i).fault || fault then u else u.writeRegs i) := by
        split
        · exact hpoisoned
        · exact hpoisoned.trans (.of_insts ⟨_, _, _, rfl⟩)
      refine hsend _ (hwrite.trans (.modifyInst (fun inst => ?_) i _))
      exact ⟨rfl, id, fun _ => rfl, id⟩

theorem writeback_touches (p : Pipeline) (i : Nat) (poisoned mispredicted : Bool) :
    Touches i p (writeback p i poisoned mispredicted) := by
  unfold writeback
  split
  · exact .refl i p
  · simp only
    have hpoisoned : Touches i p (if poisoned then p.modifyInst i DynInst.setPoisoned else p) := by
      split
      · exact .modifyInst Pipeline.steady_setPoisoned i p
      · exact .refl i p
    generalize (if poisoned then p.modifyInst i DynInst.setPoisoned else p) = t at hpoisoned ⊢
    have hwrite : Touches i p
        (if (t.insts i).executed || (t.insts i).fault then t else t.writeRegs i) := by
      split
      · exact hpoisoned
      · exact hpoisoned.trans (.of_insts ⟨_, _, _, rfl⟩)
    generalize (if (t.insts i).executed || (t.insts i).fault then t else t.writeRegs i) = u
      at hwrite ⊢
    have hdone : Touches i p
        ((u.modifyInst i DynInst.setExecuted).instToCommit i) :=
      (hwrite.trans (.modifyInst Pipeline.steady_setExecuted i u)).trans
        (.of_insts ⟨_, _, _, rfl⟩)
    split
    · exact hdone.trans (.of_insts ⟨_, _, _, rfl⟩)
    · exact hdone

end Frame

section Local

/-- Everything in IEW. -/
def held (s : Backend) : List Nat := s.inMemory ++ s.inIEW

/-- Not dispatched yet. -/
def undispatched (s : Backend) : List Nat := s.insts ++ s.fromRename ++ s.toIEW

variable {cfg : PipelineParams} {s s' : Backend} {i : Nat}

/-- A step inside IEW, which is about instruction `i`: the instruction stays where it is, moves on
or leaves. -/
structure Local (i : Nat) (s s' : Backend) : Prop where
  touches : Touches i s.pipe s'.pipe
  mem : i ∈ s.held
  held : List.Subperm s'.held s.held
  inIEW : s'.inIEW ⊆ s.inIEW
  undispatched : s'.undispatched.Sublist s.undispatched
  fresh : s.held.Nodup → i ∉ s'.undispatched

theorem inIEW_eq (s : Backend) : s.inIEW = s.instQueue ++ s.undispatched := by
  simp [inIEW, undispatched]

theorem held_eq (s : Backend) : s.held = s.inMemory ++ (s.instQueue ++ s.undispatched) := by
  rw [held, inIEW_eq]

theorem dispatchInst_local {barrier : Bool} (h : s.dispatchInst barrier = some s') :
    ∃ i, Local i s s' := by
  unfold dispatchInst at h
  split at h
  · cases h
  · rename_i i rest hinsts
    have hund : s.undispatched = i :: (rest ++ s.fromRename ++ s.toIEW) := by
      simp [undispatched, hinsts]
    have hmem : i ∈ s.held := by simp [held_eq, hund]
    have hfresh : s.held.Nodup → i ∉ rest ++ s.fromRename ++ s.toIEW := by
      intro hnodup
      rw [held_eq, hund] at hnodup
      have hqueue := (List.nodup_append.mp (List.nodup_append.mp hnodup).2.1).2.1
      exact (List.nodup_cons.mp hqueue).1
    -- the instruction goes
    have hdrop : ∀ pipe, Touches i s.pipe pipe → Local i s { s with pipe, insts := rest } := by
      intro pipe htouches
      have hsub : (rest ++ s.fromRename ++ s.toIEW).Sublist s.undispatched := by
        rw [hund]
        exact List.sublist_cons_self _ _
      refine ⟨htouches, hmem, ?_, ?_, hsub, hfresh⟩
      · rw [held_eq, held_eq]
        exact ((hsub.append_left s.instQueue).append_left s.inMemory).subperm
      · rw [inIEW_eq, inIEW_eq]
        exact (hsub.append_left s.instQueue).subset
    simp only at h
    split at h
    · cases h
      exact ⟨i, hdrop _ (.modifyInst Pipeline.steady_setSquashed i _)⟩
    · split at h
      · cases h
        exact ⟨i, hdrop _ (.modifyInst (fun inst => ((Pipeline.steady_setIssued inst).trans
          (Pipeline.steady_setExecuted _)).trans (Pipeline.steady_setCanCommit _)) i _)⟩
      · cases h
        have hpipe : Touches i s.pipe (if waitsForCommit (s.inst i) barrier then
            s.pipe.modifyInst i DynInst.setCanCommit else s.pipe) := by
          split
          · exact .modifyInst Pipeline.steady_setCanCommit i _
          · exact .refl i _
        generalize (if waitsForCommit (s.inst i) barrier then
            s.pipe.modifyInst i DynInst.setCanCommit else s.pipe) = pipe at hpipe
        have hsame : s.instQueue ++ [i] ++ (rest ++ s.fromRename ++ s.toIEW) =
            s.instQueue ++ s.undispatched := by
          rw [hund]
          simp
        refine ⟨i, hpipe, hmem, ?_, ?_, ?_, hfresh⟩
        · rw [held_eq, held_eq]
          simp only [undispatched] at hsame ⊢
          rw [hsame]
        · rw [inIEW_eq, inIEW_eq]
          simp only [undispatched] at hsame ⊢
          rw [hsame]
          exact List.Subset.refl _
        · rw [hund]
          exact List.sublist_cons_self _ _

/-- What happens to an instruction of the queue. -/
theorem queued_local {pipe : Pipeline} {instQueue inMemory : List Nat} (hi : i ∈ s.instQueue)
    (hpipe : Touches i s.pipe pipe) (hqueue : instQueue = s.instQueue ∧ inMemory = s.inMemory ∨
      instQueue = s.instQueue.erase i ∧ (inMemory = s.inMemory ∨ inMemory = s.inMemory ++ [i])) :
    Local i s { s with pipe, instQueue, inMemory } := by
  have hmem : i ∈ s.held := by simp [held_eq, hi]
  have hfresh : s.held.Nodup → i ∉ s.undispatched := by
    intro hnodup hund
    rw [held_eq] at hnodup
    have hqueue := (List.nodup_append.mp hnodup).2.1
    exact (List.nodup_append.mp hqueue).2.2 i hi i hund rfl
  refine ⟨hpipe, hmem, ?_, ?_, List.Sublist.refl _, hfresh⟩
  · rw [held_eq, held_eq]
    change List.Subperm (inMemory ++ (instQueue ++ s.undispatched)) _
    rcases hqueue with ⟨rfl, rfl⟩ | ⟨rfl, rfl | rfl⟩
    · exact List.Subperm.refl _
    · exact ((List.erase_sublist.append_right _).append_left _).subperm
    · have hperm : (i :: s.instQueue.erase i).Perm s.instQueue :=
        (List.perm_cons_erase hi).symm
      have hsame : s.inMemory ++ [i] ++ (s.instQueue.erase i ++ s.undispatched) =
          s.inMemory ++ ((i :: s.instQueue.erase i) ++ s.undispatched) := by simp
      rw [hsame]
      exact ((hperm.append_right _).append_left _).subperm
  · rw [inIEW_eq, inIEW_eq]
    change instQueue ++ s.undispatched ⊆ _
    rcases hqueue with ⟨rfl, rfl⟩ | ⟨rfl, -⟩
    · exact List.Subset.refl _
    · exact (List.erase_sublist.append_right _).subset

theorem leaveQueue_local (h : s.leaveQueue i = some s') : Local i s s' := by
  unfold leaveQueue at h
  split at h
  · rename_i hguard
    cases h
    exact queued_local hguard.1 (.refl i _) (.inr ⟨rfl, .inl rfl⟩)
  · cases h

theorem execute_local {o : Outcome} {r : Redirect} (h : s.execute i o r = some s') :
    Local i s s' := by
  unfold execute at h
  split at h
  · rename_i hguard
    split at h
    · cases h
      exact queued_local hguard.1 (.modifyInst (fun inst =>
        ((Pipeline.steady_setSquashed inst).trans (Pipeline.steady_setExecuted _)).trans
          (Pipeline.steady_setCanCommit _)) i _) (.inr ⟨rfl, .inl rfl⟩)
    · simp only at h
      generalize (if skips ((s.pipe.executeInst i o.result).insts i) then .done false else o) = o'
        at h
      cases h
      refine queued_local hguard.1
        ((executeInst_touches _ i o.result).trans (redirect_touches _ i i r)) ?_
      cases o' with
      | again | unexecuted => exact .inl ⟨rfl, rfl⟩
      | sent => exact .inr ⟨rfl, .inr rfl⟩
      | done fault => exact .inr ⟨rfl, .inl rfl⟩
  · cases h

theorem dataReturn_local {poisoned mispredicted : Bool}
    (h : s.dataReturn i poisoned mispredicted = some s') : Local i s s' := by
  unfold dataReturn at h
  split at h
  · rename_i hguard
    cases h
    have hpipe := writeback_touches s.pipe i poisoned mispredicted
    have hmem : i ∈ s.held := by
      rcases hguard.1 with hi | hi
      · exact List.mem_append_left _ hi
      · simp [held_eq, hi]
    refine ⟨hpipe, hmem, ?_, List.Subset.refl _, List.Sublist.refl _, fun hnodup hund => ?_⟩
    · exact (List.erase_sublist.append_right _).subperm
    · change i ∈ s.undispatched at hund
      rw [held_eq] at hnodup
      obtain ⟨-, hrest, hmemory⟩ := List.nodup_append.mp hnodup
      rcases hguard.1 with hi | hi
      · exact hmemory i hi i (List.mem_append_right _ hund) rfl
      · exact (List.nodup_append.mp hrest).2.2 i hi i hund rfl
  · cases h

end Local

section Core

variable {cfg : PipelineParams} {s s' : Backend} {l : Label}

theorem follow_pipe (s : Backend) (pipe : Pipeline) (l : Pipeline.Label) :
    (s.follow pipe l).pipe = pipe := by
  cases l <;> rfl

/-- A step is one of another stage, or inside IEW. -/
inductive Moves (cfg : PipelineParams) (s : Backend) : Label → Backend → Prop
  | pipe {l : Pipeline.Label} {pipe : Pipeline} (hallows : s.Allows l)
      (h : s.pipe.step cfg l = some pipe) : Moves cfg s (.pipe l) (s.follow pipe l)
  | iew {l : Label} {i : Nat} {s' : Backend}
      (hphase : s.pipe.phase = .iew ∨ s.pipe.phase = .idle) (h : Local i s s') : Moves cfg s l s'

theorem step_moves (h : s.step cfg l = some s') : Moves cfg s l s' := by
  cases l with
  | pipe l =>
    simp only [step] at h
    split at h
    · rename_i hallows
      obtain ⟨pipe, hpipe, h⟩ := Option.bind_eq_some_iff.mp h
      cases h
      exact .pipe hallows hpipe
    · cases h
  | dispatchInst barrier =>
    simp only [step] at h
    split at h
    · rename_i hphase
      obtain ⟨i, hlocal⟩ := dispatchInst_local h
      exact .iew (.inl hphase) hlocal
    · cases h
  | leaveQueue i =>
    simp only [step] at h
    split at h
    · rename_i hphase
      exact .iew (.inl hphase) (leaveQueue_local h)
    · cases h
  | execute i o r =>
    simp only [step] at h
    split at h
    · rename_i hphase
      exact .iew (.inl hphase) (execute_local h)
    · cases h
  | dataReturn i poisoned mispredicted =>
    simp only [step] at h
    split at h
    · rename_i hphase
      exact .iew (.inr hphase) (dataReturn_local h)
    · cases h

theorem step_core (h : s.step cfg l = some s') (hcore : s.pipe.window.Core) :
    s'.pipe.window.Core := by
  cases step_moves h with
  | pipe hallows hpipe =>
    rw [follow_pipe]
    exact Pipeline.step_core hpipe hcore
  | iew _ hlocal => exact hlocal.touches.core hcore

end Core

end Backend
end Runahead
end Gem5
