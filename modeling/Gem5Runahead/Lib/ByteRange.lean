import Mathlib.Data.BitVec
import Mathlib.Tactic.Common

/-!
# Lib.ByteRange

Ranges of bytes in a memory with machine addresses. A range is its first address and its size; its
bytes are counted on beyond the last address, so nothing wraps here. A machine computes the end of
a range modulo the size of the memory, and the end it computes is the right one as long as the
range stays below the last address (`Fits`).

* `Overlaps`, `Covers` — by bytes; `overlaps_iff`, `covers_iff` — by bounds.
* `endAddr` — the end as a machine computes it; `Fits.toNat_endAddr`, `EndsAtTop.toNat_endAddr`.
-/

structure ByteRange (w : Nat) where
  start : BitVec w
  size : Nat
deriving DecidableEq

namespace ByteRange

variable {w : Nat} {r r' : ByteRange w} {x : Nat}

instance : Membership Nat (ByteRange w) where
  mem r x := r.start.toNat ≤ x ∧ x < r.start.toNat + r.size

theorem mem_iff : x ∈ r ↔ r.start.toNat ≤ x ∧ x < r.start.toNat + r.size := Iff.rfl

/-- Some byte is in both. -/
def Overlaps (r r' : ByteRange w) : Prop := ∃ x, x ∈ r ∧ x ∈ r'

/-- Every byte of `r'` is in `r`. -/
def Covers (r r' : ByteRange w) : Prop := ∀ x ∈ r', x ∈ r

theorem overlaps_iff (h : 0 < r.size) (h' : 0 < r'.size) : r.Overlaps r' ↔
    r.start.toNat < r'.start.toNat + r'.size ∧ r'.start.toNat < r.start.toNat + r.size := by
  constructor
  · rintro ⟨x, hx, hx'⟩
    rw [mem_iff] at hx hx'
    omega
  · rintro ⟨h₁, h₂⟩
    refine ⟨max r.start.toNat r'.start.toNat, ?_, ?_⟩ <;> rw [mem_iff] <;> omega

theorem not_overlaps_of_empty (h : r.size = 0) : ¬ r.Overlaps r' := by
  rintro ⟨x, hx, -⟩
  rw [mem_iff] at hx
  omega

theorem covers_iff (h' : 0 < r'.size) : r.Covers r' ↔ r.start.toNat ≤ r'.start.toNat ∧
    r'.start.toNat + r'.size ≤ r.start.toNat + r.size := by
  constructor
  · intro hcov
    have hfirst := hcov r'.start.toNat (by rw [mem_iff]; omega)
    have hlast := hcov (r'.start.toNat + r'.size - 1) (by rw [mem_iff]; omega)
    rw [mem_iff] at hfirst hlast
    omega
  · intro hb x hx
    rw [mem_iff] at hx ⊢
    omega

theorem Covers.overlaps (h : r.Covers r') (h' : 0 < r'.size) : r.Overlaps r' :=
  have hx : r'.start.toNat ∈ r' := by rw [mem_iff]; omega
  ⟨r'.start.toNat, h _ hx, hx⟩

/-- One past the last byte, as a machine computes it. -/
def endAddr (r : ByteRange w) : BitVec w := r.start + BitVec.ofNat w r.size

/-- The range does not reach the end of the memory. -/
def Fits (r : ByteRange w) : Prop := r.start.toNat + r.size < 2 ^ w

instance (r : ByteRange w) : Decidable r.Fits := inferInstanceAs (Decidable (_ < _))

theorem toNat_endAddr (r : ByteRange w) :
    r.endAddr.toNat = (r.start.toNat + r.size) % 2 ^ w := by
  simp [endAddr, BitVec.toNat_add]

theorem Fits.toNat_endAddr (h : r.Fits) : r.endAddr.toNat = r.start.toNat + r.size := by
  rw [ByteRange.toNat_endAddr, Nat.mod_eq_of_lt h]

/-- Every byte of the range is in the memory. -/
def InMemory (r : ByteRange w) : Prop := r.start.toNat + r.size ≤ 2 ^ w

instance (r : ByteRange w) : Decidable r.InMemory := inferInstanceAs (Decidable (_ ≤ _))

/-- The range ends with the last address: the end computed for it is zero. -/
def EndsAtTop (r : ByteRange w) : Prop := r.start.toNat + r.size = 2 ^ w

instance (r : ByteRange w) : Decidable r.EndsAtTop := inferInstanceAs (Decidable (_ = _))

theorem EndsAtTop.toNat_endAddr (h : r.EndsAtTop) : r.endAddr.toNat = 0 := by
  rw [ByteRange.toNat_endAddr, h, Nat.mod_self]

theorem InMemory.fits (h : r.InMemory) (htop : ¬ r.EndsAtTop) : r.Fits :=
  Nat.lt_of_le_of_ne h htop

end ByteRange
