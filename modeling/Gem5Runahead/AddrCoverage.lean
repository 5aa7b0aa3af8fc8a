import Gem5Runahead.LoadForwarding

/-!
# AddrCoverage

The classification of a store's address range against a load's, for every two ranges within the
address space: also the empty ones of stores that are not executed, which `read` passes over, and
the ranges that end with the last address, where the end that is computed is zero.

* `Classified` — the three answers, by bytes.
* `classified_iff` — when `getAddrRangeCoverage` gives the right one.
-/

namespace Gem5
namespace Runahead

section Coverage

variable {req : LoadRequest} {st : StoreAccess} {size : StoreSize} {isAtomic : Bool}

/-- No byte in common, all of the load's bytes and ready to be forwarded, or something else. -/
def Classified (req : LoadRequest) (st : StoreAccess) (size : StoreSize) (isAtomic : Bool) : Prop :=
  let coverage := getAddrRangeCoverage req st size isAtomic
  (coverage = .noAddrRangeCoverage ↔ ¬ (st.range size).Overlaps req.range) ∧
    (coverage = .fullAddrRangeCoverage ↔
      (st.range size).Covers req.range ∧ CanForward req st isAtomic) ∧
    (coverage = .partialAddrRangeCoverage ↔ (st.range size).Overlaps req.range ∧
      ¬ ((st.range size).Covers req.range ∧ CanForward req st isAtomic))

/-- Neither range ends with the last address, and the store is not an empty one inside the load;
or a range does, and the end of zero happens to compare as the real end would. -/
def EndsCompare (req : LoadRequest) (st : StoreAccess) (size : StoreSize) (isAtomic : Bool) :
    Prop :=
  if req.range.EndsAtTop then
    if (st.range size).EndsAtTop then st.effAddr ≤ req.vaddr
    else req.vaddr < st.effAddr ∧ size = 0 ∨
      st.effAddr ≤ req.vaddr ∧ req.vaddr < (st.range size).endAddr ∧ ¬ CanForward req st isAtomic
  else if (st.range size).EndsAtTop then req.range.endAddr ≤ st.effAddr
  else ¬ (size = 0 ∧ req.vaddr < st.effAddr ∧ st.effAddr < req.range.endAddr)

theorem getAddrRangeCoverage_eq_full_iff :
    getAddrRangeCoverage req st size isAtomic = .fullAddrRangeCoverage ↔
      ((st.range size).start ≤ req.range.start ∧ req.range.endAddr ≤ (st.range size).endAddr) ∧
        CanForward req st isAtomic := by
  unfold getAddrRangeCoverage CanForward
  simp only [st.endAddr_eq]
  by_cases h₁ : (st.range size).start ≤ req.range.start <;>
    by_cases h₂ : req.range.endAddr ≤ (st.range size).endAddr <;>
    by_cases h₃ : req.range.start < (st.range size).endAddr <;>
    by_cases h₄ : (st.range size).start < req.range.endAddr <;>
    cases isAtomic <;> cases req.isLLSC <;> cases st.isMasked <;> simp [h₁, h₂, h₃, h₄]

/-- The three disjunctions test the same thing once the case of full coverage is out. -/
theorem getAddrRangeCoverage_eq_no_iff :
    getAddrRangeCoverage req st size isAtomic = .noAddrRangeCoverage ↔
      ¬ (((st.range size).start ≤ req.range.start ∨ (st.range size).start < req.range.endAddr) ∧
        (req.range.endAddr ≤ (st.range size).endAddr ∨
          req.range.start < (st.range size).endAddr)) := by
  unfold getAddrRangeCoverage
  simp only [st.endAddr_eq]
  by_cases h₁ : (st.range size).start ≤ req.range.start <;>
    by_cases h₂ : req.range.endAddr ≤ (st.range size).endAddr <;>
    by_cases h₃ : req.range.start < (st.range size).endAddr <;>
    by_cases h₄ : (st.range size).start < req.range.endAddr <;>
    cases isAtomic <;> cases req.isLLSC <;> cases st.isMasked <;> simp [h₁, h₂, h₃, h₄]

theorem getAddrRangeCoverage_eq_partial_iff :
    getAddrRangeCoverage req st size isAtomic = .partialAddrRangeCoverage ↔
      getAddrRangeCoverage req st size isAtomic ≠ .noAddrRangeCoverage ∧
        getAddrRangeCoverage req st size isAtomic ≠ .fullAddrRangeCoverage := by
  cases getAddrRangeCoverage req st size isAtomic <;> decide

theorem overlaps_load_iff : (st.range size).Overlaps req.range ↔ 0 < size.val ∧
    st.effAddr.toNat < req.vaddr.toNat + req.size ∧
      req.vaddr.toNat < st.effAddr.toNat + size := by
  rcases Nat.eq_zero_or_pos size.val with hempty | hpos
  · have hnot : ¬ (st.range size).Overlaps req.range := ByteRange.not_overlaps_of_empty hempty
    exact iff_of_false hnot fun h => by omega
  · rw [ByteRange.overlaps_iff (r := st.range size) hpos req.nonempty]
    exact (and_iff_right hpos).symm

theorem covers_load_iff : (st.range size).Covers req.range ↔
    st.effAddr.toNat ≤ req.vaddr.toNat ∧
      req.vaddr.toNat + req.size ≤ st.effAddr.toNat + size :=
  @ByteRange.covers_iff _ (st.range size) req.range req.nonempty

theorem classified_iff_no_and_full : Classified req st size isAtomic ↔
    (getAddrRangeCoverage req st size isAtomic = .noAddrRangeCoverage ↔
        ¬ (st.range size).Overlaps req.range) ∧
      (getAddrRangeCoverage req st size isAtomic = .fullAddrRangeCoverage ↔
        (st.range size).Covers req.range ∧ CanForward req st isAtomic) := by
  refine ⟨fun h => ⟨h.1, h.2.1⟩, fun h => ⟨h.1, h.2, ?_⟩⟩
  rw [getAddrRangeCoverage_eq_partial_iff, Ne, Ne, h.1, h.2, not_not]

/-- **The classification of address ranges.** For every load, of at least one byte, and every
store, of any size, both within the address space: the answer is what the bytes say exactly if
the ends compare. -/
theorem classified_iff (hload : req.range.InMemory) (hstore : (st.range size).InMemory) :
    Classified req st size isAtomic ↔ EndsCompare req st size isAtomic := by
  rw [classified_iff_no_and_full, getAddrRangeCoverage_eq_no_iff, getAddrRangeCoverage_eq_full_iff,
    overlaps_load_iff, covers_load_iff]
  have hn := req.nonempty
  have ha := req.vaddr.isLt
  have hb := st.effAddr.isLt
  have hL : req.vaddr.toNat + req.size ≤ 2 ^ 64 := hload
  have hS : st.effAddr.toNat + size ≤ 2 ^ 64 := hstore
  have hempty : size = 0 ↔ size.val = 0 := Fin.ext_iff
  unfold EndsCompare
  rw [hempty]
  generalize CanForward req st isAtomic = canForward
  by_cases htopL : req.range.EndsAtTop
  · have hendL : req.vaddr.toNat + req.size = 2 ^ 64 := htopL
    rw [if_pos htopL]
    by_cases htopS : (st.range size).EndsAtTop
    · have hendS : st.effAddr.toNat + size = 2 ^ 64 := htopS
      rw [if_pos htopS]
      simp only [BitVec.le_def, BitVec.lt_def, htopL.toNat_endAddr, htopS.toNat_endAddr]
      simp only [LoadRequest.range, StoreAccess.range]
      by_cases hcan : canForward <;> simp only [hcan, and_true, and_false] <;> omega
    · have hendS : st.effAddr.toNat + size ≠ 2 ^ 64 := htopS
      rw [if_neg htopS]
      simp only [BitVec.le_def, BitVec.lt_def, htopL.toNat_endAddr,
        (hstore.fits htopS).toNat_endAddr]
      simp only [LoadRequest.range, StoreAccess.range]
      by_cases hcan : canForward <;>
        simp only [hcan, and_true, and_false, or_false, not_true_eq_false, not_false_eq_true] <;>
        omega
  · have hendL : req.vaddr.toNat + req.size ≠ 2 ^ 64 := htopL
    rw [if_neg htopL]
    by_cases htopS : (st.range size).EndsAtTop
    · have hendS : st.effAddr.toNat + size = 2 ^ 64 := htopS
      rw [if_pos htopS]
      simp only [BitVec.le_def, BitVec.lt_def, (hload.fits htopL).toNat_endAddr,
        htopS.toNat_endAddr]
      simp only [LoadRequest.range, StoreAccess.range]
      by_cases hcan : canForward <;> simp only [hcan, and_true, and_false] <;> omega
    · have hendS : st.effAddr.toNat + size ≠ 2 ^ 64 := htopS
      rw [if_neg htopS]
      simp only [BitVec.le_def, BitVec.lt_def, (hload.fits htopL).toNat_endAddr,
        (hstore.fits htopS).toNat_endAddr]
      simp only [LoadRequest.range, StoreAccess.range, and_true]
      omega

/-- A load from eight bytes below the end of the address space on. -/
def loadAtTop (size : Nat) (h : 0 < size) : LoadRequest where
  vaddr := -8
  size := size
  nonempty := h

def storeAtTop : StoreAccess where
  effAddr := -8
  data := fun _ => 0

/-- A store has the address and the size zero until it executes. -/
def notExecuted : StoreAccess where
  effAddr := 0
  effAddrValid := false
  data := fun _ => 0

theorem classified_iff_top :
    (loadAtTop 8 (by decide)).range.InMemory ∧ (storeAtTop.range 8).InMemory ∧
      (Classified (loadAtTop 8 (by decide)) storeAtTop 8 false ↔
        EndsCompare (loadAtTop 8 (by decide)) storeAtTop 8 false) :=
  have hload : (loadAtTop 8 (by decide)).range.InMemory := by decide
  have hstore : (storeAtTop.range (8 : StoreSize)).InMemory := by decide
  ⟨hload, hstore, classified_iff hload hstore⟩

/-- A store that is not executed covers a load at the end of the address space, and an executed
store there has nothing for a load that it covers. -/
theorem ends_at_top_misjudged :
    (loadAtTop 8 (by decide)).range.InMemory ∧ (loadAtTop 4 (by decide)).range.InMemory ∧
      (notExecuted.range 0).InMemory ∧ (storeAtTop.range 8).InMemory ∧
      getAddrRangeCoverage (loadAtTop 8 (by decide)) notExecuted 0 false = .fullAddrRangeCoverage ∧
      ¬ Classified (loadAtTop 8 (by decide)) notExecuted 0 false ∧
      getAddrRangeCoverage (loadAtTop 4 (by decide)) storeAtTop 8 false = .noAddrRangeCoverage ∧
      ¬ Classified (loadAtTop 4 (by decide)) storeAtTop 8 false := by
  refine ⟨by decide, by decide, by decide, by decide, by decide, fun h => ?_, by decide,
    fun h => ?_⟩
  · have hnone := h.1.mpr (ByteRange.not_overlaps_of_empty rfl)
    exact absurd hnone (by decide)
  · have hfull := h.2.1.mpr ⟨covers_load_iff.mpr (by decide), rfl, rfl, rfl⟩
    exact absurd hfull (by decide)

end Coverage

end Runahead
end Gem5
