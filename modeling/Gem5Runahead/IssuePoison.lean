import Gem5Runahead.RegPoison

/-!
# IssuePoison

What poisons an instruction when it issues. The poison flags are addressed by flat index. The
constructor of the register file hands the flat indices out class by class, and gives every
miscellaneous register the flat index 0, which is that of the first integer register. A write of a
miscellaneous register's flag panics, but a read only looks for invalid registers.

* `physRegIds`, `mem_physRegIds` — the flat indices as the constructor hands them out.
* `flatIndex_injective` — no two renamed registers share a poison flag.
* `poisoned_at_issue_iff` — when an instruction is poisoned by its sources alone.
* `misc_source_poisons` — a run in which it is not.
-/

namespace Gem5
namespace Runahead

section RegFile

variable (regs : RegParams)

/-- A loop of `PhysRegFile`'s constructor: the register identifiers of a class, with their flat
indices, and the next flat index. -/
def emplaceClass (ids : List (PhysRegId × Nat) × Nat) (c : RegClassType) :
    List (PhysRegId × Nat) × Nat :=
  (ids.1 ++ (List.range (regs.numPhys c)).map fun i => (⟨c, i⟩, ids.2 + i), ids.2 + regs.numPhys c)

/-- The register identifiers that `PhysRegFile`'s constructor makes. -/
def physRegIds : List (PhysRegId × Nat) :=
  (RegClassType.renamed.foldl (emplaceClass regs) ([], 0)).1 ++
    (List.range (regs.numPhys .misc)).map fun i => (⟨.misc, i⟩, 0)

/-- A renamed register of the file. -/
def InFile (p : PhysRegId) : Prop := p.cls ∈ RegClassType.renamed ∧ p.index < regs.numPhys p.cls

variable {regs} {p q : PhysRegId}

/-- The flat indices of a class are those from the sum of the classes before it on. -/
theorem flatIndex_injective (hp : InFile regs p) (hq : InFile regs q)
    (h : regs.flatIndex p = regs.flatIndex q) : p = q := by
  obtain ⟨c, i⟩ := p
  obtain ⟨d, j⟩ := q
  obtain ⟨hc, hi⟩ := hp
  obtain ⟨hd, hj⟩ := hq
  simp only [RegClassType.renamed, List.mem_cons, List.not_mem_nil, or_false] at hc hd
  have hsum : c = d ∧ i = j := by
    rcases hc with rfl | rfl | rfl | rfl | rfl | rfl <;>
      rcases hd with rfl | rfl | rfl | rfl | rfl | rfl <;>
        simp [RegParams.flatIndex, RegClassType.renamed] at h hi hj ⊢ <;> omega
  rw [hsum.1, hsum.2]

/-- The constructor gives a register the index at which its poison flag is looked up. -/
theorem mem_physRegIds {k : Nat} : (p, k) ∈ physRegIds regs ↔
    k = regs.poisonIdx p ∧
      (InFile regs p ∨ p.cls = .misc ∧ p.index < regs.numPhys .misc) := by
  obtain ⟨c, i⟩ := p
  cases c <;>
    simp [physRegIds, emplaceClass, InFile, RegParams.poisonIdx, RegParams.flatIndex,
      RegClassType.renamed, and_comm, eq_comm, Nat.add_assoc]
  rintro rfl
  exact Iff.rfl

end RegFile

namespace RegPipeline

variable {cfg : PipelineParams} {regs : RegParams} {renamed : RenamedRegs} {s s' : RegPipeline}
  {i : Nat} {free : Bool}

section Issue

/-- A source of the instruction that is neither miscellaneous nor invalid is poisoned. -/
def PoisonedSource (regs : RegParams) (renamed : RenamedRegs) (s : RegPipeline) (i : Nat) : Prop :=
  ∃ p ∈ renamed.srcIdx i, p.isFixedMapping = false ∧ s.poisonedRegs (regs.flatIndex p) = true

/-- The instruction has a miscellaneous source, and it finds the flag of the first integer register
set. -/
def MiscReadsPoison (renamed : RenamedRegs) (s : RegPipeline) (i : Nat) : Prop :=
  (∃ p ∈ renamed.srcIdx i, p.cls = .misc) ∧ s.poisonedRegs 0 = true

/-- Scheduling instruction `i` poisons it exactly for a poisoned source. -/
structure PoisonExact (regs : RegParams) (renamed : RenamedRegs) (s s' : RegPipeline) (i : Nat) :
    Prop where
  poisoned : (s'.cpu.insts i).poisoned = true ↔
    (s.cpu.insts i).poisoned = true ∨ PoisonedSource regs renamed s i
  distinct : ∀ p q, InFile regs p → InFile regs q → p ≠ q → regs.poisonIdx p ≠ regs.poisonIdx q
  misc : (∀ p ∈ renamed.srcIdx i, p.cls = .misc) →
    (s'.cpu.insts i).poisoned = (s.cpu.insts i).poisoned

theorem poisonIdx_renamed {p : PhysRegId} (h : p.cls ∈ RegClassType.renamed) :
    regs.poisonIdx p = regs.flatIndex p := by
  refine if_neg fun hmisc => ?_
  rw [hmisc] at h
  simp [RegClassType.renamed] at h

theorem poisonIdx_injective {p q : PhysRegId} (hp : InFile regs p) (hq : InFile regs q)
    (hne : p ≠ q) : regs.poisonIdx p ≠ regs.poisonIdx q := by
  rw [poisonIdx_renamed hp.1, poisonIdx_renamed hq.1]
  exact fun h => hne (flatIndex_injective hp hq h)

/-- What `regPoisoned` finds for a register of each kind. -/
theorem regPoisoned_iff {p : PhysRegId} : s.regPoisoned regs p = true ↔
    p.isFixedMapping = false ∧ s.poisonedRegs (regs.flatIndex p) = true ∨
      p.cls = .misc ∧ s.poisonedRegs 0 = true := by
  cases hc : p.cls <;> simp [regPoisoned, RegParams.poisonIdx, PhysRegId.isFixedMapping, hc]

theorem poisonedBySource_iff (hrunahead : (s.cpu.insts i).runahead = true) :
    s.poisonedBySource regs renamed i = true ↔
      PoisonedSource regs renamed s i ∨ MiscReadsPoison renamed s i := by
  simp only [poisonedBySource, hrunahead, Bool.true_and, List.any_eq_true, regPoisoned_iff]
  constructor
  · rintro ⟨p, hp, hsource | ⟨hmisc, hzero⟩⟩
    · exact .inl ⟨p, hp, hsource⟩
    · exact .inr ⟨⟨p, hp, hmisc⟩, hzero⟩
  · rintro (⟨p, hp, hsource⟩ | ⟨⟨p, hp, hmisc⟩, hzero⟩)
    · exact ⟨p, hp, .inl hsource⟩
    · exact ⟨p, hp, .inr ⟨hmisc, hzero⟩⟩

/-- Scheduling poisons the instruction, or leaves its flag as it is. -/
theorem scheduleInst_poisoned (h : s.scheduleInst regs renamed i free = some s') :
    (s'.cpu.insts i).poisoned =
      ((s.cpu.insts i).poisoned || s.poisonedBySource regs renamed i) := by
  have hflag : ((poisonInst s.cpu i (s.poisonedBySource regs renamed i)).insts i).poisoned =
      ((s.cpu.insts i).poisoned || s.poisonedBySource regs renamed i) := by
    rw [poisonInst, Pipeline.modifyInst_insts, Insts.modify_self]
    cases s.poisonedBySource regs renamed i <;> simp [DynInst.setPoisoned]
  unfold scheduleInst at h
  split at h
  · simp only at h
    split at h
    · cases h
      exact hflag
    · cases h
      rw [← hflag, Pipeline.modifyInst_insts, Insts.modify_self]
      rfl
  · cases h

/-- **A runahead instruction is poisoned at issue exactly for a poisoned source, unless a
miscellaneous source finds the flag of the first integer register set and is the only reason.** -/
theorem poisoned_at_issue_iff (h : s.scheduleInst regs renamed i free = some s')
    (hrunahead : (s.cpu.insts i).runahead = true) : PoisonExact regs renamed s s' i ↔
      (MiscReadsPoison renamed s i →
        (s.cpu.insts i).poisoned = true ∨ PoisonedSource regs renamed s i) := by
  have hafter : (s'.cpu.insts i).poisoned = true ↔ (s.cpu.insts i).poisoned = true ∨
      PoisonedSource regs renamed s i ∨ MiscReadsPoison renamed s i := by
    rw [scheduleInst_poisoned h, Bool.or_eq_true, poisonedBySource_iff hrunahead]
  constructor
  · intro hexact hmisc
    exact hexact.poisoned.mp (hafter.mpr (.inr (.inr hmisc)))
  · intro hcond
    have hpoisoned : (s'.cpu.insts i).poisoned = true ↔
        (s.cpu.insts i).poisoned = true ∨ PoisonedSource regs renamed s i := by
      rw [hafter]
      constructor
      · rintro (hold | hsource | hmisc)
        · exact .inl hold
        · exact .inr hsource
        · exact hcond hmisc
      · rintro (hold | hsource)
        · exact .inl hold
        · exact .inr (.inl hsource)
    refine ⟨hpoisoned, fun p q hp hq hne => poisonIdx_injective hp hq hne, fun hall => ?_⟩
    have hnone : ¬ PoisonedSource regs renamed s i := by
      rintro ⟨p, hp, hrenamed, -⟩
      simp [PhysRegId.isFixedMapping, hall p hp] at hrenamed
    rw [Bool.eq_iff_iff, hpoisoned, or_iff_left hnone]

end Issue

section Scenario

open Pipeline

/-- A load enters runahead, and is written back poisoned. -/
def poisonedLoad : List Label :=
  cycle [{ isLoad := true }, {}] 0 [] 0 [] [{}] ++ cycle [] 2 [] 0 [] [{}] ++
    cycle [] 0 [] 0 [1] [{}] ++ cycle [] 0 [(1, .waits)] 0 [] [missed] ++
    [.cpu (.dataReturn 1 false false)] ++ (beforeIssue [] 0 [] 1).map .cpu

/-- The instruction after the load reads what the load has written. -/
theorem poisoned_at_issue_iff_chain : ∃ s s', (system narrow eightRegs chain).Reaches poisonedLoad s ∧
    s.step narrow eightRegs chain (.scheduleInst 2 true) = some s' ∧
    (s'.cpu.insts 2).poisoned = true ∧ PoisonExact eightRegs chain s s' 2 := by
  have hrun : (poisonedLoad.foldlM (step narrow eightRegs chain) { cpu := start {} }).any
      (fun s => (s.cpu.insts 2).runahead && s.poisonedRegs 1 &&
        (s.step narrow eightRegs chain (.scheduleInst 2 true)).any fun s' =>
          (s'.cpu.insts 2).poisoned) = true := by
    decide +kernel
  obtain ⟨s, hs, h⟩ := (Option.any_eq_true _ _).mp hrun
  simp only [Bool.and_eq_true] at h
  obtain ⟨⟨hrunahead, hsource⟩, hstep⟩ := h
  obtain ⟨s', hst, hpoisoned⟩ := (Option.any_eq_true _ _).mp hstep
  refine ⟨s, s', ⟨_, ⟨{}, rfl⟩,
    .of_foldlM (M := system narrow eightRegs chain) (fun _ _ _ h => h) hs⟩, hst, hpoisoned, ?_⟩
  refine (poisoned_at_issue_iff hst hrunahead).mpr fun _ => .inr ⟨⟨.int, 1⟩, ?_, rfl, hsource⟩
  simp [chain]

/-- The load writes the first integer register; the instruction after it reads a miscellaneous
register. -/
def readsMisc : RenamedRegs where
  srcIdx i := if i = 2 then [⟨.misc, 3⟩] else []
  destIdx i := [⟨.int, i - 1⟩]

/-- The instruction after the load issues, and is poisoned for its miscellaneous source alone. -/
theorem misc_source_poisons : ∃ s s', (system narrow eightRegs readsMisc).Reaches poisonedLoad s ∧
    s.step narrow eightRegs readsMisc (.scheduleInst 2 true) = some s' ∧
    (s.cpu.insts 2).runahead = true ∧ (s.cpu.insts 2).poisoned = false ∧
    (s'.cpu.insts 2).poisoned = true ∧ ¬ PoisonedSource eightRegs readsMisc s 2 ∧
    ¬ PoisonExact eightRegs readsMisc s s' 2 := by
  have hrun : (poisonedLoad.foldlM (step narrow eightRegs readsMisc) { cpu := start {} }).any
      (fun s => (s.cpu.insts 2).runahead && !(s.cpu.insts 2).poisoned &&
        (s.step narrow eightRegs readsMisc (.scheduleInst 2 true)).any fun s' =>
          (s'.cpu.insts 2).poisoned) = true := by
    decide +kernel
  obtain ⟨s, hs, h⟩ := (Option.any_eq_true _ _).mp hrun
  simp only [Bool.and_eq_true, Bool.not_eq_true'] at h
  obtain ⟨⟨hrunahead, hnot⟩, hstep⟩ := h
  obtain ⟨s', hst, hpoisoned⟩ := (Option.any_eq_true _ _).mp hstep
  have hnone : ¬ PoisonedSource eightRegs readsMisc s 2 := by
    rintro ⟨p, hp, hrenamed, -⟩
    simp only [readsMisc, if_true, List.mem_singleton] at hp
    subst hp
    cases hrenamed
  refine ⟨s, s', ⟨_, ⟨{}, rfl⟩,
    .of_foldlM (M := system narrow eightRegs readsMisc) (fun _ _ _ h => h) hs⟩, hst, hrunahead,
    hnot, hpoisoned, hnone, fun hexact => ?_⟩
  rcases hexact.poisoned.mp hpoisoned with hold | hsource
  · rw [hnot] at hold
    cases hold
  · exact hnone hsource

end Scenario

end RegPipeline

end Runahead
end Gem5
