import Gem5Runahead.RegState
import Gem5Runahead.Lib.DeferredWrites
import Mathlib.Algebra.Ring.Int.Defs

/-!
# MiscRegWrites

The writes to miscellaneous registers that an instruction records while it executes and performs
when it retires. `DynInst` keeps the registers and the values in two parallel vectors; the
register is an `int` for the caller and a `short` in the vector.

* `keepsLastValue_iff` — when the retiring instruction performs the last write to each register.
-/

namespace Gem5
namespace Runahead

open DeferredWrites

/-- The conversion of an `int` to a `short`. -/
def toShort (misc_reg : Int) : Int := misc_reg.bmod (2 ^ 16)

def FitsShort (misc_reg : Int) : Prop := -2 ^ 15 ≤ misc_reg ∧ misc_reg < 2 ^ 15

instance (misc_reg : Int) : Decidable (FitsShort misc_reg) :=
  inferInstanceAs (Decidable (_ ∧ _))

theorem toShort_eq_self {misc_reg : Int} (h : FitsShort misc_reg) : toShort misc_reg = misc_reg := by
  obtain ⟨hlow, hhigh⟩ := h
  simp only [toShort, Int.bmod]
  omega

theorem fitsShort_toShort (misc_reg : Int) : FitsShort (toShort misc_reg) := by
  simp only [FitsShort, toShort, Int.bmod]
  omega

/-- The two vectors of misc destinations. -/
structure MiscDest where
  destMiscRegIdx : List Int
  destMiscRegVal : List RegVal
  parallel : destMiscRegIdx.length = destMiscRegVal.length

namespace MiscDest

def empty : MiscDest := ⟨[], [], rfl⟩

/-- `DynInst::setMiscReg`. -/
def setMiscReg (d : MiscDest) (misc_reg : Int) (val : RegVal) : MiscDest :=
  if misc_reg ∈ d.destMiscRegIdx then d
  else {
    destMiscRegIdx := d.destMiscRegIdx ++ [toShort misc_reg]
    destMiscRegVal := d.destMiscRegVal ++ [val]
    parallel := by simp [d.parallel] }

def writes (d : MiscDest) : List (Int × RegVal) := d.destMiscRegIdx.zip d.destMiscRegVal

/-- `DynInst::updateMiscRegs` on an ISA state that `set` writes to. -/
def updateMiscRegs {σ : Type} (set : σ → Int → RegVal → σ) (m : σ) (d : MiscDest) : σ :=
  perform set m d.writes

/-- The destinations after the calls of `setMiscReg` that an instruction makes. -/
def ofCalls (calls : List (Int × RegVal)) : MiscDest :=
  calls.foldl (fun d call => d.setMiscReg call.1 call.2) empty

theorem map_fst_writes (d : MiscDest) : d.writes.map Prod.fst = d.destMiscRegIdx :=
  List.map_fst_zip (Nat.le_of_eq d.parallel)

theorem writes_setMiscReg (d : MiscDest) (misc_reg : Int) (val : RegVal) :
    (d.setMiscReg misc_reg val).writes =
      if misc_reg ∈ d.writes.map Prod.fst then d.writes else d.writes ++ [(toShort misc_reg, val)] := by
  rw [map_fst_writes]
  unfold setMiscReg
  by_cases h : misc_reg ∈ d.destMiscRegIdx
  · rw [if_pos h, if_pos h]
  · rw [if_neg h, if_neg h, writes, List.zip_append d.parallel]
    rfl

theorem ofCalls_concat (calls : List (Int × RegVal)) (call : Int × RegVal) :
    ofCalls (calls ++ [call]) = (ofCalls calls).setMiscReg call.1 call.2 := by
  rw [ofCalls, List.foldl_append, List.foldl_cons, List.foldl_nil, ofCalls]

theorem fitsShort_of_mem_writes {calls : List (Int × RegVal)} :
    ∀ w ∈ (ofCalls calls).writes, FitsShort w.1 := by
  induction calls using List.reverseRecOn with
  | nil => intro w hw; cases hw
  | append_singleton calls call ih =>
    intro w hw
    rw [ofCalls_concat, writes_setMiscReg] at hw
    by_cases h : call.1 ∈ (ofCalls calls).writes.map Prod.fst
    · rw [if_pos h] at hw
      exact ih w hw
    · rw [if_neg h, List.mem_append, List.mem_singleton] at hw
      obtain hw | rfl := hw
      · exact ih w hw
      · exact fitsShort_toShort call.1

/-- On registers that fit, the vectors keep the first call to each. -/
theorem writes_ofCalls {calls : List (Int × RegVal)} (hfit : ∀ call ∈ calls, FitsShort call.1) :
    (ofCalls calls).writes = calls.foldl keepFirst [] := by
  induction calls using List.reverseRecOn with
  | nil => rfl
  | append_singleton calls call ih =>
    have hcall := toShort_eq_self (hfit call (by simp))
    rw [ofCalls_concat, writes_setMiscReg, ih fun c hc => hfit c (by simp [hc]), List.foldl_append,
      List.foldl_cons, List.foldl_nil, keepFirst, hcall]

end MiscDest

section LastValue

/-- What the retiring instruction performs, for the calls it made: one write per register, in
order of first occurrence and with the last value. The ISA state is then the one after the calls
one by one, for every kind of state on which writes to a register overwrite one another. -/
def KeepsLastValue (calls : List (Int × RegVal)) : Prop :=
  KeepsLast calls (MiscDest.ofCalls calls).writes ∧
    ∀ (σ : Type) (set : σ → Int → RegVal → σ), Overwrites set →
      ∀ m, (MiscDest.ofCalls calls).updateMiscRegs set m = perform set m calls

theorem fitsShort_of_keepsLast {calls : List (Int × RegVal)}
    (h : KeepsLast calls (MiscDest.ofCalls calls).writes) : ∀ call ∈ calls, FitsShort call.1 := by
  intro call hcall
  have hmem : call.1 ∈ (MiscDest.ofCalls calls).writes.map Prod.fst := by
    rw [h.1, List.mem_eraseDups]
    exact List.mem_map_of_mem hcall
  obtain ⟨w, hw, hkey⟩ := List.mem_map.mp hmem
  rw [← hkey]
  exact MiscDest.fitsShort_of_mem_writes w hw

/-- **The deferred misc-register writes.** What is performed at retirement is the last write to
each register exactly if every register number fits the vector's element type and the first call
to each register carries the same value as the last. -/
theorem keepsLastValue_iff (calls : List (Int × RegVal)) :
    KeepsLastValue calls ↔ (∀ call ∈ calls, FitsShort call.1) ∧
      ∀ misc_reg, firstValue calls misc_reg = lastValue calls misc_reg := by
  constructor
  · rintro ⟨hlast, -⟩
    have hfit := fitsShort_of_keepsLast hlast
    rw [MiscDest.writes_ofCalls hfit] at hlast
    exact ⟨hfit, keepsLast_keepFirst_iff.mp hlast⟩
  · rintro ⟨hfit, hsame⟩
    have hlast : KeepsLast calls (MiscDest.ofCalls calls).writes := by
      rw [MiscDest.writes_ofCalls hfit]
      exact keepsLast_keepFirst_iff.mpr hsame
    exact ⟨hlast, fun σ set hset m => perform_of_keepsLast hset hlast m⟩

/-- Two writes to register 0, of 1 and of 2: the first one is performed. -/
theorem first_value_kept : (MiscDest.ofCalls [(0, 1), (0, 2)]).writes = [(0, 1)] ∧
    ¬ KeepsLastValue [(0, 1), (0, 2)] := by
  refine ⟨by decide, fun h => ?_⟩
  have hlast := h.1.2 (0, 1) (by decide)
  exact absurd hlast (by decide)

end LastValue

end Runahead
end Gem5
