import Gem5Runahead.ArchRestore

/-!
# MiscRestore

The miscellaneous registers over a runahead period. They are not renamed: an instruction records
what it writes to them and performs the writes when it retires, and runahead instructions retire
too. The checkpoint holds the values at entry, but the restore skips the class.

* `MiscNeutral` — the writes leave the registers as they are.
* `misc_restored_iff` — a period leaves the registers as they were exactly if the recorded writes
  of what retired in it do.
-/

namespace Gem5
namespace Runahead
namespace RegState

variable {PC σ : Type} {cfg : RegParams} {isa : ISA σ} {s s₁ s₂ : RegState PC σ}

/-- Performed on `m`, the writes leave every valid register's value as it is. -/
def MiscNeutral (isa : ISA σ) (m : σ) (writes : List (Nat × RegVal)) : Prop :=
  ∀ i, isa.isValid i = true →
    isa.readMiscReg (performMisc isa m writes) i = isa.readMiscReg m i

/-- **The miscellaneous registers after a period.** The restore succeeds, and every valid register
reads as at entry if and only if the writes that the retired runahead instructions have recorded
leave it so when the ISA performs them, in order, on the state at entry. -/
theorem misc_restored_iff {l : List (Op PC)} (henter : s.enterRunahead cfg isa = some s₁)
    (hrun : (system cfg isa).Run s₁ l s₂) :
    ∃ s₃, s₂.restoreCheckpointState cfg = some s₃ ∧
      ((∀ i, isa.isValid i = true →
          isa.readMiscReg s₃.miscRegs i = isa.readMiscReg s.miscRegs i) ↔
        MiscNeutral isa s.miscRegs (l.flatMap Op.miscWrites)) := by
  obtain ⟨-, -, hmisc, hsaved⟩ := enterRunahead_spec henter
  have hkept := run_kept hrun
  obtain ⟨s₃, hs₃, -, -, -, -, hmisc₃⟩ := @restoreCheckpointState_spec _ _ cfg s₂
    fun c hc hun => by
      rw [hkept.registerCheckpoints]
      exact (hsaved c hc hun).validIdxs
  refine ⟨s₃, hs₃, ?_⟩
  rw [hmisc₃, hkept.miscRegs, hmisc]
  rfl

/-- A runahead instruction that writes 5 to misc register 0 retires. -/
def miscWrite : List (Op Nat) := [.pseudoRetire [(0, 5)] 104, .exitRunahead]

theorem misc_restored_iff_miscWrite : ∃ s₁ s₂ s₃ : RegState Nat (Nat → RegVal),
    atEntry.enterRunahead oneReg plainISA = some s₁ ∧
      (system oneReg plainISA).Run s₁ miscWrite s₂ ∧ s₂.inRunahead = false ∧
      s₂.restoreCheckpointState oneReg = some s₃ ∧
      ((∀ i, plainISA.isValid i = true →
          plainISA.readMiscReg s₃.miscRegs i = plainISA.readMiscReg atEntry.miscRegs i) ↔
        MiscNeutral plainISA atEntry.miscRegs [(0, 5)]) := by
  have hlast : ((atEntry.enterRunahead oneReg plainISA).bind
      (miscWrite.foldlM (step oneReg plainISA))).any (fun s => !s.inRunahead) = true := by decide
  obtain ⟨s₂, hs₂, hexit⟩ := Option.any_eq_true .. |>.mp hlast
  obtain ⟨s₁, henter, hsteps⟩ := Option.bind_eq_some_iff.mp hs₂
  have hrun := Transition.System.Run.of_foldlM
    (M := system oneReg plainISA) (fun _ _ _ h => h) hsteps
  obtain ⟨s₃, hs₃, hiff⟩ := misc_restored_iff henter hrun
  exact ⟨s₁, s₂, s₃, henter, hrun, by simpa using hexit, hs₃, hiff⟩

/-- The speculative write is there after the restore. -/
theorem misc_write_survives : ∃ s₁ s₂ s₃ : RegState Nat (Nat → RegVal),
    atEntry.enterRunahead oneReg plainISA = some s₁ ∧
      (system oneReg plainISA).Run s₁ miscWrite s₂ ∧ s₂.inRunahead = false ∧
      s₂.restoreCheckpointState oneReg = some s₃ ∧ plainISA.isValid 0 = true ∧
      plainISA.readMiscReg s₃.miscRegs 0 ≠ plainISA.readMiscReg atEntry.miscRegs 0 := by
  have hlast : ((atEntry.enterRunahead oneReg plainISA).bind
      (miscWrite.foldlM (step oneReg plainISA))).any
        (fun s => !s.inRunahead && (s.restoreCheckpointState oneReg).any
          (fun t => t.miscRegs 0 ≠ 0)) = true := by decide
  obtain ⟨s₂, hs₂, hlast⟩ := Option.any_eq_true .. |>.mp hlast
  rw [Bool.and_eq_true, Bool.not_eq_true'] at hlast
  obtain ⟨s₁, henter, hsteps⟩ := Option.bind_eq_some_iff.mp hs₂
  obtain ⟨s₃, hs₃, hne⟩ := Option.any_eq_true .. |>.mp hlast.2
  exact ⟨s₁, s₂, s₃, henter, .of_foldlM (fun _ _ _ h => h) hsteps, hlast.1, hs₃, rfl,
    of_decide_eq_true hne⟩

end RegState
end Runahead
end Gem5
