import Gem5Runahead.Lib.ByteRange
import Mathlib.Data.List.Flatten

/-!
# Lib.Tiling

A list of byte ranges that tiles an interval: none is empty, the first starts where the interval
does, each of the others where the one before it ends, and the last ends where the interval does.

* `Tiles.append` — tilings of adjacent intervals.
* `Tiles.mem_iff`, `Tiles.pairwise` — the tiles cover the interval, in order and disjoint.
* `Tiles.offsets` — counted from the start of the interval, their bytes are counted once each.
-/

namespace ByteRange

variable {w : Nat} {l l' : List (ByteRange w)} {a b c : Nat}

inductive Tiles : Nat → Nat → List (ByteRange w) → Prop
  | nil (a : Nat) : Tiles a a []
  | cons {r : ByteRange w} {b : Nat} {l : List (ByteRange w)} : 0 < r.size →
      Tiles (r.start.toNat + r.size) b l → Tiles r.start.toNat b (r :: l)

/-- `Tiles.cons` for a tile that is given by its bounds. -/
theorem Tiles.cons_of {r : ByteRange w} {size : Nat} (hstart : r.start.toNat = a)
    (hsize : r.size = size) (hpos : 0 < size) (h : Tiles (a + size) b l) : Tiles a b (r :: l) := by
  subst hstart hsize
  exact .cons hpos h

theorem Tiles.le (h : Tiles a b l) : a ≤ b := by
  induction h with
  | nil a => exact Nat.le_refl a
  | cons hpos htiles ih => omega

theorem Tiles.append (h : Tiles a b l) (h' : Tiles b c l') : Tiles a c (l ++ l') := by
  induction h with
  | nil a => exact h'
  | cons hpos htiles ih => exact .cons hpos (ih h')

/-- The bytes of the tiles, one after the other. -/
theorem Tiles.bytes (h : Tiles a b l) :
    l.flatMap (fun r => List.range' r.start.toNat r.size) = List.range' a (b - a) := by
  induction h with
  | nil a => rw [Nat.sub_self, List.flatMap_nil, List.range'_zero]
  | @cons r b l hpos htiles ih =>
    have hle := htiles.le
    rw [List.flatMap_cons, ih, List.range'_append_1,
      show r.size + (b - (r.start.toNat + r.size)) = b - r.start.toNat by omega]

theorem Tiles.mem_iff (h : Tiles a b l) {x : Nat} : (∃ r ∈ l, x ∈ r) ↔ a ≤ x ∧ x < b := by
  have hx : x ∈ l.flatMap (fun r => List.range' r.start.toNat r.size) ↔
      x ∈ List.range' a (b - a) := by
    rw [h.bytes]
  rw [List.mem_flatMap, List.mem_range'_1] at hx
  have hle := h.le
  constructor
  · rintro ⟨r, hr, hmem⟩
    have := hx.mp ⟨r, hr, List.mem_range'_1.mpr hmem⟩
    omega
  · intro hbounds
    obtain ⟨r, hr, hmem⟩ := hx.mpr (by omega)
    exact ⟨r, hr, List.mem_range'_1.mp hmem⟩

theorem Tiles.le_start (h : Tiles a b l) : ∀ r ∈ l, a ≤ r.start.toNat := by
  induction h with
  | nil a => intro r hr; cases hr
  | cons hpos htiles ih =>
    intro r hr
    rcases List.mem_cons.mp hr with rfl | hr
    · exact Nat.le_refl _
    · have := ih r hr
      omega

theorem Tiles.pairwise (h : Tiles a b l) :
    l.Pairwise fun r r' => r.start.toNat + r.size ≤ r'.start.toNat := by
  induction h with
  | nil a => exact .nil
  | cons hpos htiles ih => exact .cons htiles.le_start ih

theorem Tiles.pos (h : Tiles a b l) : ∀ r ∈ l, 0 < r.size := by
  induction h with
  | nil a => intro r hr; cases hr
  | cons hpos htiles ih =>
    intro r hr
    rcases List.mem_cons.mp hr with rfl | hr
    · exact hpos
    · exact ih r hr

/-- A first part of the tiles tiles a first part of the interval. -/
theorem Tiles.of_append (h : Tiles a b (l ++ l')) : ∃ c, Tiles a c l ∧ Tiles c b l' := by
  induction l generalizing a with
  | nil => exact ⟨a, .nil a, h⟩
  | cons r l ih =>
    cases h with
    | cons hpos htiles =>
      obtain ⟨c, hl, hl'⟩ := ih htiles
      exact ⟨c, .cons hpos hl, hl'⟩

theorem Tiles.offsets (h : Tiles a b l) :
    l.flatMap (fun r => List.range' (r.start.toNat - a) r.size) = List.range (b - a) := by
  have hbytes := congrArg (List.map (· - a)) h.bytes
  rw [List.map_flatMap, List.map_sub_range' (Nat.le_refl a), Nat.sub_self,
    ← List.range_eq_range'] at hbytes
  rw [← hbytes]
  exact List.flatMap_congr fun r hr => (List.map_sub_range' (h.le_start r hr) _).symm

end ByteRange
