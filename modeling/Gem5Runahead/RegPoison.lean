import Gem5Runahead.DrainPoint
import Gem5Runahead.RegState

/-!
# RegPoison

The pipeline with the poison flags of its physical registers. `Pipeline` has no registers and does
not issue; here an instruction has the physical registers that rename gives it, it is poisoned when
it issues with a poisoned source, and it poisons or cures its destinations when it is written back.
The restore cures every register.

Poison is cleared once, but it is set by any runahead instruction that is written back and that the
ROB has not marked squashed yet, and the queue to commit may hold one for several cycles.

* `scheduleInst`, `forward`, `writebackInsts` — where poison comes from.
* `normal_mode_unpoisoned` — when no register is poisoned in normal mode.
* `stale_poison` — a run in which one is.
-/

namespace Gem5
namespace Runahead

/-- The physical registers of each instruction. -/
structure RenamedRegs where
  srcIdx : Nat → List PhysRegId
  destIdx : Nat → List PhysRegId

/-- When the instruction issued, `writer` had last written one of its sources; or the instruction is
a load, and was served by forwarding from the store `writer`. -/
structure PoisonRead where
  seqNum : Nat
  writer : Nat
  poisoned : Bool

structure RegPipeline where
  cpu : Pipeline
  poisonedRegs : Nat → Bool := fun _ => false
  /-- Since the last restore; the code does not keep it. -/
  lastWriter : Nat → Option Nat := fun _ => none
  /-- What has been read so far; the code does not keep it. -/
  reads : List PoisonRead := []

namespace RegPipeline

section Registers

variable (regs : RegParams) (renamed : RenamedRegs)

def regPoisoned (s : RegPipeline) (p : PhysRegId) : Bool :=
  p.cls ≠ .invalid && s.poisonedRegs (regs.poisonIdx p)

/-- The restore writes every register. -/
def clearPoison (s : RegPipeline) : RegPipeline :=
  { s with poisonedRegs := fun _ => false, lastWriter := fun _ => none }

/-- The loop body of `IEW::writebackInsts` over the destinations of instruction `i`. -/
def writebackDest (i : Nat) (s : RegPipeline) (p : PhysRegId) : RegPipeline :=
  if p.isFixedMapping then s
  else
    let inst := s.cpu.insts i
    let idx := regs.flatIndex p
    { s with
      poisonedRegs := if inst.runahead then Function.update s.poisonedRegs idx inst.poisoned
        else s.poisonedRegs
      lastWriter := Function.update s.lastWriter idx (some i) }

def writesBack (inst : DynInst) : Bool := !inst.squashed && inst.executed && !inst.fault

def writebackInst (s : RegPipeline) (i : Nat) : RegPipeline :=
  if writesBack (s.cpu.insts i) then (renamed.destIdx i).foldl (writebackDest regs i) s else s

/-- `IEW::writebackInsts`, as far as the registers are concerned. -/
def writebackInsts (s : RegPipeline) (n : Nat) : RegPipeline :=
  (s.cpu.iew.iewQueue.take n).foldl (writebackInst regs renamed) s

/-- What a step of the pipeline does to the registers. -/
def registers (s : RegPipeline) : Pipeline.Label → RegPipeline
  | .writebackInsts n => s.writebackInsts regs renamed n
  | .finish => if s.cpu.commit.archRestorePrev then s.clearPoison else s
  | _ => s

/-- Who has last written the sources of instruction `i`. -/
def sources (s : RegPipeline) (i : Nat) : List PoisonRead :=
  (renamed.srcIdx i).filterMap fun p =>
    if p.isFixedMapping then none
    else (s.lastWriter (regs.flatIndex p)).map fun w => ⟨i, w, (s.cpu.insts w).poisoned⟩

/-- The instruction is on its way to commit. -/
def Queued (s : RegPipeline) (i : Nat) : Prop :=
  i ∈ s.cpu.iew.iewQueue ∨ i ∈ s.cpu.iew.toCommit.insts ∨ i ∈ s.cpu.commit.fromIEW.insts

instance (s : RegPipeline) (i : Nat) : Decidable (s.Queued i) := inferInstanceAs (Decidable (_ ∨ _))

/-- The instruction waits in the instruction queue; it may have been dispatched in this tick. -/
def InIQ (s : RegPipeline) (i : Nat) : Prop :=
  (i ∈ s.cpu.rob.instList ∨ i ∈ s.cpu.front.fromRename) ∧ (s.cpu.insts i).executed = false ∧
    (s.cpu.insts i).canCommit = false ∧ ¬ s.Queued i

instance (s : RegPipeline) (i : Nat) : Decidable (s.InIQ i) := inferInstanceAs (Decidable (_ ∧ _))

def poisonInst (cpu : Pipeline) (i : Nat) (poisoned : Bool) : Pipeline :=
  cpu.modifyInst i fun inst => if poisoned then inst.setPoisoned else inst

/-- A runahead instruction is poisoned if one of its sources is. -/
def poisonedBySource (s : RegPipeline) (i : Nat) : Bool :=
  (s.cpu.insts i).runahead && (renamed.srcIdx i).any (s.regPoisoned regs)

/-- `InstructionQueue::scheduleReadyInsts` looks at a ready instruction. It is poisoned before the
code looks whether it is squashed, and whether a functional unit is free. -/
def scheduleInst (s : RegPipeline) (i : Nat) (free : Bool) : Option RegPipeline :=
  if s.cpu.phase = .commit ∧ s.InIQ i then
    let cpu := poisonInst s.cpu i (s.poisonedBySource regs renamed i)
    if (s.cpu.insts i).squashed || !free then some { s with cpu }
    else some { s with
      cpu := cpu.modifyInst i DynInst.setIssued
      reads := s.sources regs renamed i ++ s.reads }
  else none

/-- `LSQUnit::read`: the load `i` finds its data in the store queue's entry of `j`, or a part of
it, and then it has to be issued again. -/
def forward (s : RegPipeline) (i j : Nat) (full : Bool) : Option RegPipeline :=
  let load := s.cpu.insts i
  let store := s.cpu.insts j
  if s.cpu.phase = .iew ∧ s.cpu.InFlight i ∧ load.issued = true ∧ load.executed = false ∧
      load.squashed = false ∧ load.isLoad ∧ (store.isStore ∨ store.isAtomic) ∧ j < i ∧
      ¬ (store.runahead = true ∧ load.runahead = false) then
    if store.poisoned && !(s.cpu.inRunahead && load.runahead) then none
    else
      let cpu := poisonInst s.cpu i store.poisoned
      if full then some { s with cpu, reads := ⟨i, j, store.poisoned⟩ :: s.reads }
      else some { s with cpu := cpu.modifyInst i fun inst => { inst with issued := false } }
  else none

end Registers

section System

variable (cfg : PipelineParams) (regs : RegParams) (renamed : RenamedRegs)

inductive Label where
  | cpu (l : Pipeline.Label)
  | scheduleInst (i : Nat) (free : Bool)
  | forward (i j : Nat) (full : Bool)

/-- What the stages of `Pipeline` leave open: only what has been issued executes, only a runahead
instruction is poisoned, what is dispatched has not been executed, and a load that waits for its
data has not been executed either, but for one that was poisoned for missing. -/
def legal (s : RegPipeline) : Pipeline.Label → Bool
  | .execute i _ _ => (s.cpu.insts i).issued
  | .dataReturn i poisoned _ => !poisoned || (s.cpu.insts i).runahead
  | .dispatchNonSpec i => !(s.cpu.insts i).executed
  | .commitInst e => e.request.all fun request => request.complete || !request.sent ||
      s.cpu.rob.instList.head?.all fun head => (s.cpu.insts head).poisoned ||
        !(s.cpu.insts head).executed && !decide (s.Queued head)
  | _ => true

def step (s : RegPipeline) : Label → Option RegPipeline
  | .cpu l =>
    if s.legal l then (s.cpu.step cfg l).map fun cpu => { s.registers regs renamed l with cpu }
    else none
  | .scheduleInst i free => s.scheduleInst regs renamed i free
  | .forward i j full => s.forward i j full

def system : Transition.System RegPipeline Label where
  init s := ∃ pc, s = { cpu := Pipeline.start pc }
  step s l s' := s.step cfg regs renamed l = some s'

end System

section Frame

variable {cfg : PipelineParams} {regs : RegParams} {renamed : RenamedRegs} {s s' : RegPipeline}
  {l : Label}

theorem writebackDest_cpu (i : Nat) (s : RegPipeline) (p : PhysRegId) :
    (writebackDest regs i s p).cpu = s.cpu := by
  unfold writebackDest
  split <;> rfl

/-- What the write of one register keeps, `writebackInsts` keeps. -/
theorem writebackInst_keeps {P : RegPipeline → Prop} {i : Nat} (hs : P s)
    (hdest : ∀ t p, t.cpu = s.cpu → writesBack (s.cpu.insts i) = true → p ∈ renamed.destIdx i →
      P t → P (writebackDest regs i t p)) : P (writebackInst regs renamed s i) := by
  unfold writebackInst
  split
  · rename_i hback
    have hfold : ∀ (l : List PhysRegId) (t : RegPipeline), l ⊆ renamed.destIdx i →
        t.cpu = s.cpu → P t → P (l.foldl (writebackDest regs i) t) := by
      intro l
      induction l with
      | nil => exact fun _ _ _ ht => ht
      | cons p l ih =>
        intro t hl hcpu ht
        refine ih _ (List.subset_of_cons_subset hl) ((writebackDest_cpu i t p).trans hcpu) ?_
        exact hdest t p hcpu hback (hl List.mem_cons_self) ht
    exact hfold _ s (List.Subset.refl _) rfl hs
  · exact hs

theorem writebackInst_cpu (s : RegPipeline) (i : Nat) :
    (writebackInst regs renamed s i).cpu = s.cpu := by
  refine writebackInst_keeps (P := fun t => t.cpu = s.cpu) rfl fun t p _ _ _ ht => ?_
  rw [writebackDest_cpu, ht]

theorem writebackInsts_keeps {P : RegPipeline → Prop} {n : Nat} (hs : P s)
    (hdest : ∀ t i p, t.cpu = s.cpu → i ∈ s.cpu.iew.iewQueue.take n →
      writesBack (s.cpu.insts i) = true → p ∈ renamed.destIdx i → P t →
      P (writebackDest regs i t p)) : P (s.writebackInsts regs renamed n) := by
  have hfold : ∀ (l : List Nat) (t : RegPipeline), l ⊆ s.cpu.iew.iewQueue.take n →
      t.cpu = s.cpu → P t → P (l.foldl (writebackInst regs renamed) t) := by
    intro l
    induction l with
    | nil => exact fun _ _ _ ht => ht
    | cons i l ih =>
      intro t hl hcpu ht
      refine ih _ (List.subset_of_cons_subset hl) ((writebackInst_cpu t i).trans hcpu) ?_
      refine writebackInst_keeps ht fun u p hu hback hp hPu => ?_
      rw [hcpu] at hu hback
      exact hdest u i p hu (hl List.mem_cons_self) hback hp hPu
  exact hfold _ s (List.Subset.refl _) rfl hs

/-- A step of the pipeline, with what it does to the registers. -/
theorem step_cpu {l : Pipeline.Label} (h : s.step cfg regs renamed (.cpu l) = some s') :
    s.legal l = true ∧ ∃ cpu, s.cpu.step cfg l = some cpu ∧
      s' = { s.registers regs renamed l with cpu } := by
  simp only [step] at h
  split at h
  · rename_i hlegal
    obtain ⟨cpu, hcpu, rfl⟩ := Option.map_eq_some_iff.mp h
    exact ⟨hlegal, cpu, hcpu, rfl⟩
  · cases h

/-- What issuing and forwarding do: instruction `i`, which has not been executed, is poisoned if it
is to be. -/
structure Handled (s : RegPipeline) (i : Nat) (poisons : Bool) (s' : RegPipeline) : Prop where
  frame : ∃ insts reads, s' = { s with cpu := s.cpu.setInsts insts, reads }
  other : ∀ j, j ≠ i → s'.cpu.insts j = s.cpu.insts j
  inst : ∃ issued, s'.cpu.insts i = { s.cpu.insts i with
    poisoned := (s.cpu.insts i).poisoned || poisons, issued }
  line : i ∈ s.cpu.window.line
  executed : (s.cpu.insts i).executed = false
  canCommit : (s.cpu.insts i).canCommit = false
  queued : ¬ s.Queued i
  runahead : poisons = true → (s.cpu.insts i).runahead = true

theorem Handled.steady {i : Nat} {poisons : Bool} (h : s.Handled i poisons s') (j : Nat) :
    (s.cpu.insts j).Steady (s'.cpu.insts j) := by
  by_cases hj : j = i
  · obtain ⟨issued, hinst⟩ := h.inst
    rw [hj, hinst]
    exact ⟨rfl, id, id, fun hp => by simp [hp]⟩
  · rw [h.other j hj]
    exact .refl _

theorem poisonInst_inst (cpu : Pipeline) (i : Nat) (poisoned : Bool) :
    (poisonInst cpu i poisoned).insts i =
      { cpu.insts i with poisoned := (cpu.insts i).poisoned || poisoned } := by
  cases poisoned <;> simp [poisonInst, DynInst.setPoisoned]

theorem poisonInst_other {cpu : Pipeline} {i j : Nat} (hj : j ≠ i) (poisoned : Bool) :
    (poisonInst cpu i poisoned).insts j = cpu.insts j :=
  Insts.modify_of_ne hj _

theorem scheduleInst_handled {i : Nat} {free : Bool}
    (h : s.scheduleInst regs renamed i free = some s') :
    s.Handled i (s.poisonedBySource regs renamed i) s' ∧
      (s'.reads = s.reads ∨ s'.reads = s.sources regs renamed i ++ s.reads ∧
        (s.cpu.insts i).squashed = false) := by
  unfold scheduleInst at h
  split at h
  · rename_i hwaits
    obtain ⟨-, hplace, hexecuted, hready, hqueued⟩ := hwaits
    have hline : i ∈ s.cpu.window.line := by
      refine List.mem_append.mpr (hplace.imp_right fun hi => ?_)
      exact List.mem_append_left _ (List.mem_append_left _ (List.mem_append_left _ hi))
    have hrunahead (hp : s.poisonedBySource regs renamed i = true) :
        (s.cpu.insts i).runahead = true := ((Bool.and_eq_true _ _).mp hp).1
    split at h
    · cases h
      exact ⟨⟨⟨_, _, rfl⟩, fun j hj => poisonInst_other hj _, ⟨_, poisonInst_inst ..⟩, hline,
        hexecuted, hready, hqueued, hrunahead⟩, .inl rfl⟩
    · rename_i hissues
      simp only [Bool.or_eq_true, not_or, Bool.not_eq_true] at hissues
      cases h
      refine ⟨⟨⟨_, _, rfl⟩, fun j hj => ?_, ⟨true, ?_⟩, hline, hexecuted, hready, hqueued,
        hrunahead⟩, .inr ⟨rfl, hissues.1⟩⟩
      · exact (Insts.modify_of_ne hj _).trans (poisonInst_other hj _)
      · rw [Pipeline.modifyInst_insts, Insts.modify_self, poisonInst_inst]
        rfl
  · cases h

theorem forward_handled {i j : Nat} {full : Bool} (h : s.forward i j full = some s') :
    s.Handled i (s.cpu.insts j).poisoned s' ∧
      (s'.reads = s.reads ∨ s'.reads = ⟨i, j, (s.cpu.insts j).poisoned⟩ :: s.reads) := by
  unfold forward at h
  simp only at h
  split at h
  · rename_i hload
    obtain ⟨-, ⟨hrob, hready, hqueued⟩, -, hexecuted, -⟩ := hload
    have hline : i ∈ s.cpu.window.line := List.mem_append_left _ hrob
    have hqueued : ¬ s.Queued i := by
      rintro (hq | hq | hq)
      · exact hqueued.1 hq
      · exact hqueued.2.1 hq
      · exact hqueued.2.2 hq
    split at h
    · cases h
    · rename_i hassert
      have hrunahead (hp : (s.cpu.insts j).poisoned = true) :
          (s.cpu.insts i).runahead = true := by
        simp only [hp, Bool.true_and, Bool.not_eq_true', Bool.not_eq_false, Bool.and_eq_true]
          at hassert
        exact hassert.2
      split at h
      · cases h
        exact ⟨⟨⟨_, _, rfl⟩, fun k hk => poisonInst_other hk _, ⟨_, poisonInst_inst ..⟩, hline,
          hexecuted, hready, hqueued, hrunahead⟩, .inr rfl⟩
      · cases h
        refine ⟨⟨⟨_, _, rfl⟩, fun k hk => ?_, ⟨false, ?_⟩, hline, hexecuted, hready, hqueued,
          hrunahead⟩, .inl rfl⟩
        · rw [Pipeline.modifyInst_insts, Insts.modify_of_ne hk, poisonInst_other hk]
        · rw [Pipeline.modifyInst_insts, Insts.modify_self, poisonInst_inst]
  · cases h

theorem Handled.core {i : Nat} {poisons : Bool} (h : s.Handled i poisons s')
    (hs : s.cpu.window.Core) : s'.cpu.window.Core := by
  have hsteady := h.steady
  obtain ⟨⟨insts, _, rfl⟩, -⟩ := h
  exact hs.insts hsteady

theorem Handled.restoring {i : Nat} {poisons : Bool} (h : s.Handled i poisons s')
    (hs : s.cpu.Restoring) : s'.cpu.Restoring := by
  have hsteady := h.steady
  obtain ⟨⟨insts, _, rfl⟩, -⟩ := h
  refine ⟨fun hdue j hj hnot => (hsteady j).squashed (hs.unmarked hdue j hj ?_), hs.now, hs.prev⟩
  exact (hsteady j).runahead.symm.trans hnot

end Frame

end RegPipeline

namespace Pipeline

/-- The thread is not in runahead, and no restore is pending. -/
structure Normal (s : Pipeline) : Prop where
  mode : s.inRunahead = false
  now : s.commit.archRestore = false
  prev : s.commit.archRestorePrev = false

variable {cfg : PipelineParams} {s s' : Pipeline} {l : Label}

/-- Only a restore leads to normal mode. -/
theorem normal_before (hcore : s.window.Core) (hst : s.step cfg l = some s') (h : s'.Normal) :
    s.Normal ∨ l = .finish ∧ s.commit.archRestorePrev = true := by
  obtain ⟨new, -, hdeed⟩ := step_deed hcore hst
  have hnormal : s'.tally.inRunahead = false ∧ s'.tally.archRestore = false ∧
      s'.tally.archRestorePrev = false := ⟨h.mode, h.now, h.prev⟩
  generalize s'.tally = t at hdeed hnormal
  obtain ⟨hmode, hnow, hprev⟩ := hnormal
  cases hdeed with
  | quiet | propagate | process | squashed | commit => exact .inl ⟨hmode, hnow, hprev⟩
  | exit => cases hnow
  | enter => cases hmode
  | finish =>
    cases hold : s.commit.archRestorePrev with
    | true => exact .inr ⟨rfl, rfl⟩
    | false => exact .inl ⟨hmode, hprev, hold⟩

theorem enter_label (hcore : s.window.Core) (hst : s.step cfg l = some s')
    (hmode : s.inRunahead = false) (hmode' : s'.inRunahead = true) : ∃ e, l = .commitInst e := by
  obtain ⟨new, -, hdeed⟩ := step_deed hcore hst
  have hmode' : s'.tally.inRunahead = true := hmode'
  generalize s'.tally = t at hdeed hmode'
  cases hdeed with
  | enter => exact ⟨_, rfl⟩
  | exit => cases hmode'
  | quiet | propagate | process | squashed | commit | finish =>
    exact absurd (hmode.symm.trans hmode') (by simp)

/-- A period begins at a head that can still take effect, in normal mode. -/
theorem enter_head (hcore : s.window.Core) (hst : s.step cfg l = some s')
    (hmode : s.inRunahead = false) (hmode' : s'.inRunahead = true) :
    ∃ head ∈ s.rob.instList, (s.insts head).squashed = false ∧ (s.insts head).runahead = false := by
  obtain ⟨e, rfl⟩ := enter_label hcore hst hmode hmode'
  have hlive : ∀ {n head tail}, s.phase = .commitInsts n → s.rob.instList = head :: tail →
      (s.insts head).squashed = false → ∃ head ∈ s.rob.instList,
        (s.insts head).squashed = false ∧ (s.insts head).runahead = false := by
    intro n head tail hphase hhead hlive
    have hmem : head ∈ s.rob.instList := hhead ▸ List.mem_cons_self
    refine ⟨head, hmem, hlive, ?_⟩
    have hmark := hcore.committing hphase (List.mem_append_left _ hmem) hlive
    change (if (s.insts head).runahead then some (s.markedIn head) else none) =
      if s.inRunahead then some s.runaheadPeriods else none at hmark
    cases hr : (s.insts head).runahead with
    | false => rfl
    | true => simp [hr, hmode] at hmark
  have hinterrupt : (s.afterInterrupt e).inRunahead = false := by
    obtain ⟨_, _, _, _, _, _, _, _, _, heq, -⟩ := afterInterrupt_frame s e
    rw [heq]
    exact hmode
  cases step_effect hst with
  | outside hout =>
    obtain ⟨⟨_, _, _, _, _, _, _, _, rfl⟩, -⟩ := hout
    exact absurd (hmode.symm.trans hmode') (by simp)
  | round hphase hround =>
    cases hround with
    | full => exact absurd (hmode.symm.trans hmode') (by simp)
    | nothing | squashed => exact absurd (hinterrupt.symm.trans hmode') (by simp)
    | wait hhead hl | unexecuted hhead hl | fault hhead _ hl => exact hlive hphase hhead hl
    | success hcommits =>
      obtain ⟨tail, hhead⟩ := hcommits.atHead
      exact hlive hphase hhead hcommits.live
    | notReady hhead _ hu =>
      have hinsts := afterInterrupt_insts s e
      cases lllAtHead_cases hu with
      | waits | again => exact absurd (hinterrupt.symm.trans hmode') (by simp)
      | enter _ _ _ _ _ hl =>
        rw [hinsts] at hl
        exact hlive hphase hhead hl

/-- A period begins with no restore pending. -/
theorem Restoring.enters (hs : s.Restoring) (hcore : s.window.Core)
    (hst : s.step cfg l = some s') (hmode : s.inRunahead = false) (hmode' : s'.inRunahead = true) :
    s.Normal := by
  obtain ⟨head, hmem, hlive, hnormal⟩ := enter_head hcore hst hmode hmode'
  have hnot : ¬ s.Unmarked := by
    intro h
    have hsquashed := h head (List.mem_append_left _ hmem) hnormal
    rw [hlive] at hsquashed
    cases hsquashed
  refine ⟨hmode, ?_, ?_⟩
  · by_contra hdue
    exact hnot (hs.unmarked (.inl (by simpa using hdue)))
  · by_contra hdue
    exact hnot (hs.unmarked (.inr (by simpa using hdue)))

end Pipeline

namespace RegPipeline

section NormalMode

variable {cfg : PipelineParams} {regs : RegParams} {renamed : RenamedRegs} {s s' : RegPipeline}
  {l : Label} {ls : List Label}

/-- How many instructions the step writes back. -/
def Label.written : Label → Nat
  | .cpu (.writebackInsts n) => n
  | _ => 0

/-- No poisoned instruction of an ended period that the ROB has not marked squashed is written back
to a register once the restore is over. -/
def NoStaleWrite (renamed : RenamedRegs) (s : RegPipeline) (l : Label) : Prop :=
  s.cpu.Normal → ∀ i ∈ s.cpu.iew.iewQueue.take l.written,
    writesBack (s.cpu.insts i) = true → (s.cpu.insts i).runahead = true →
    (s.cpu.insts i).poisoned = true → ∀ p ∈ renamed.destIdx i, p.isFixedMapping = true

instance (s : Pipeline) : Decidable s.Normal :=
  decidable_of_iff (s.inRunahead = false ∧ s.commit.archRestore = false ∧
    s.commit.archRestorePrev = false)
    ⟨fun ⟨hmode, hnow, hprev⟩ => ⟨hmode, hnow, hprev⟩, fun h => ⟨h.mode, h.now, h.prev⟩⟩

instance (renamed : RenamedRegs) (s : RegPipeline) (l : Label) :
    Decidable (NoStaleWrite renamed s l) :=
  inferInstanceAs (Decidable (_ → ∀ _ ∈ _, _ → _ → _ → ∀ _ ∈ _, _))

/-- What holds of the pipeline's part, and that poison is for runahead. -/
structure Cured (s : RegPipeline) : Prop where
  core : s.cpu.window.Core
  restoring : s.cpu.Restoring
  unpoisoned : s.cpu.Normal → ∀ r, s.poisonedRegs r = false

theorem registers_unpoisoned {l : Pipeline.Label} (hguard : NoStaleWrite renamed s (.cpu l))
    (hnormal : s.cpu.Normal) (hs : ∀ r, s.poisonedRegs r = false) :
    ∀ r, (s.registers regs renamed l).poisonedRegs r = false := by
  cases l with
  | writebackInsts n =>
    refine writebackInsts_keeps (P := fun t => ∀ r, t.poisonedRegs r = false) hs ?_
    intro t i p hcpu hi hback hp ht r
    unfold writebackDest
    split
    · exact ht r
    · rename_i hfixed
      simp only [hcpu]
      split
      · rename_i hrunahead
        have hpoisoned : (s.cpu.insts i).poisoned = false := by
          by_contra hpoisoned
          exact hfixed (hguard hnormal i hi hback hrunahead (by simpa using hpoisoned) p hp)
        rw [Function.update_apply, hpoisoned]
        split
        · rfl
        · exact ht r
      · exact ht r
  | finish =>
    intro r
    simp only [registers]
    split
    · rfl
    · exact hs r
  | _ => exact hs

theorem step_cured (hst : s.step cfg regs renamed l = some s') (hguard : NoStaleWrite renamed s l)
    (hs : s.Cured) : s'.Cured := by
  have hhandled : ∀ i poisons, s.Handled i poisons s' → s'.Cured := by
    intro i poisons h
    refine ⟨h.core hs.core, h.restoring hs.restoring, ?_⟩
    obtain ⟨⟨insts, reads, rfl⟩, -⟩ := h
    exact fun hnormal => hs.unpoisoned ⟨hnormal.mode, hnormal.now, hnormal.prev⟩
  cases l with
  | cpu l =>
    obtain ⟨-, cpu, hcpu, rfl⟩ := step_cpu hst
    refine ⟨Pipeline.step_core hcpu hs.core, Pipeline.step_restoring hs.core hcpu hs.restoring, ?_⟩
    intro hnormal
    rcases Pipeline.normal_before hs.core hcpu hnormal with hbefore | ⟨rfl, hprev⟩
    · exact registers_unpoisoned hguard hbefore (hs.unpoisoned hbefore)
    · intro r
      simp only [registers, hprev, if_true]
      rfl
  | scheduleInst i free => exact hhandled i _ (scheduleInst_handled hst).1
  | forward i j full => exact hhandled i _ (forward_handled hst).1

theorem start_cured (pc : PCState) : Cured { cpu := Pipeline.start pc } where
  core := Pipeline.start_core pc
  restoring := Pipeline.start_restoring pc
  unpoisoned _ _ := rfl

theorem reaches_cured (h : ((system cfg regs renamed).guard (NoStaleWrite renamed)).Reaches ls s) :
    s.Cured := by
  refine h.invariant ?_ fun s l s' hs ⟨hst, hguard⟩ => step_cured hst hguard hs
  rintro s ⟨pc, rfl⟩
  exact start_cured pc

/-- **No register is poisoned in normal mode once the restore is over, and none when a period
begins, in the runs in which no stale poisoned instruction is written back then.** -/
theorem normal_mode_unpoisoned
    (h : ((system cfg regs renamed).guard (NoStaleWrite renamed)).Reaches ls s) :
    (s.cpu.Normal → ∀ r, s.poisonedRegs r = false) ∧
      ∀ l s', s.step cfg regs renamed l = some s' → s.cpu.inRunahead = false →
        s'.cpu.inRunahead = true → ∀ r, s'.poisonedRegs r = false := by
  have hs := reaches_cured h
  refine ⟨hs.unpoisoned, fun l s' hst hmode hmode' => ?_⟩
  have hhandled : ∀ i poisons, ¬ s.Handled i poisons s' := by
    rintro i poisons ⟨⟨insts, reads, rfl⟩, -⟩
    exact absurd (hmode.symm.trans hmode') (by simp)
  cases l with
  | cpu l =>
    obtain ⟨-, cpu, hcpu, rfl⟩ := step_cpu hst
    have hnormal := hs.restoring.enters hs.core hcpu hmode hmode'
    obtain ⟨e, rfl⟩ := Pipeline.enter_label hs.core hcpu hmode hmode'
    exact hs.unpoisoned hnormal
  | scheduleInst i free => exact absurd (scheduleInst_handled hst).1 (hhandled i _)
  | forward i j full => exact absurd (forward_handled hst).1 (hhandled i _)

end NormalMode

section Scenario

open Pipeline

/-- The ROB marks one instruction a cycle. -/
def narrow : PipelineParams := { eagerExit with squashWidth := 1 }

def eightRegs : RegParams where
  numArch _ := 4
  numPhys _ := 8
  le := by simp

/-- Every instruction reads what the first one writes. -/
def chain : RenamedRegs where
  srcIdx i := if 2 ≤ i then [⟨.int, 1⟩] else []
  destIdx i := [⟨.int, i⟩]

/-- A cycle up to the issue of instructions. -/
def beforeIssue (fetched : List DynInst) (renamed : Nat) (executed : List (Nat × ExecResult))
    (written : Nat) : List Pipeline.Label :=
  .fetchSignals none :: fetched.map (.fetchInst · {}) ++ [.renameInsts renamed, .iewSignals false] ++
    executed.map (fun e => .execute e.1 e.2 .none) ++ [.writebackInsts written]

def cycle (fetched : List DynInst) (renamed : Nat) (executed : List (Nat × ExecResult))
    (written : Nat) (issued : List Nat) (commits : List CommitEnv) : List Label :=
  (beforeIssue fetched renamed executed written).map .cpu ++ issued.map (.scheduleInst · true) ++
    .cpu (.commitTick false false) :: (lateTick commits).map .cpu

/-- Five instructions run ahead of a load. Three of them, poisoned by it, finish in the cycle in which
the period ends, and one is written back a cycle. -/
def restored : List Label :=
  cycle ({ isLoad := true } :: List.replicate 5 {}) 0 [] 0 [] [{}] ++ cycle [] 6 [] 0 [] [{}] ++
    cycle [] 0 [] 0 [1] [{}] ++ cycle [] 0 [(1, .waits)] 0 [] [missed] ++
    [.cpu (.dataReturn 1 false false)] ++ cycle [] 0 [] 1 [2, 3, 4] [{}] ++
    [.cpu .signalExitRunahead] ++
    cycle [] 0 [(2, .done false), (3, .done false), (4, .done false)] 1 [] [] ++
    cycle [] 0 [] 1 [] []

def backlog : List Label := restored ++ (beforeIssue [] 0 [] 1).map .cpu

theorem normal_mode_unpoisoned_restored : ∃ s,
    ((system narrow eightRegs chain).guard (NoStaleWrite chain)).Reaches restored s ∧
      s.cpu.Normal ∧ s.cpu.runaheadPeriods = 1 ∧ ∀ r, s.poisonedRegs r = false := by
  have hrun : (restored.foldlM (fun s l => if NoStaleWrite chain s l then
      s.step narrow eightRegs chain l else none) { cpu := start {} }).any (fun s =>
        decide s.cpu.Normal && decide (s.cpu.runaheadPeriods = 1)) = true := by
    decide +kernel
  obtain ⟨s, hs, h⟩ := (Option.any_eq_true _ _).mp hrun
  simp only [Bool.and_eq_true, decide_eq_true_eq] at h
  have hreach : ((system narrow eightRegs chain).guard (NoStaleWrite chain)).Reaches restored s := by
    refine ⟨_, ⟨{}, rfl⟩, .of_foldlM (fun s l s' hst => ?_) hs⟩
    split at hst
    · rename_i hguard
      exact ⟨hst, hguard⟩
    · cases hst
  exact ⟨s, hreach, h.1, h.2, (normal_mode_unpoisoned hreach).1 h.1⟩

/-- With a ROB that marks one instruction a cycle, the third one is written back after the restore,
and its register stays poisoned. -/
theorem stale_poison : ∃ s, (system narrow eightRegs chain).Reaches backlog s ∧ s.cpu.Normal ∧
    s.poisonedRegs 4 = true := by
  have hrun : (backlog.foldlM (step narrow eightRegs chain) { cpu := start {} }).any (fun s =>
      decide s.cpu.Normal && s.poisonedRegs 4) = true := by
    decide +kernel
  obtain ⟨s, hs, h⟩ := (Option.any_eq_true _ _).mp hrun
  simp only [Bool.and_eq_true, decide_eq_true_eq] at h
  exact ⟨s, ⟨_, ⟨{}, rfl⟩, .of_foldlM (M := system narrow eightRegs chain) (fun _ _ _ h => h) hs⟩,
    h.1, h.2⟩

end Scenario

end RegPipeline

end Runahead
end Gem5
