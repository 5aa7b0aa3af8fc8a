import Mathlib.Algebra.Ring.Nat
import Mathlib.Data.List.Basic
import Mathlib.Tactic.Common

/-!
# Lib.DelayLine

A delay line of counts, the newest first. Every count says how many things come out of the line at
a time; what entered one step later comes out one step later.

* `dues` — when each thing comes out, the first one first; `top` is for the newest count.
-/

namespace DelayLine

def dues : Nat → List Nat → List Nat
  | _, [] => []
  | top, n :: l => dues (top - 1) l ++ List.replicate n top

variable {top n t : Nat} {l : List Nat}

@[simp] theorem dues_nil : dues top [] = [] := rfl

@[simp] theorem dues_zero_cons : dues top (0 :: l) = dues (top - 1) l := by simp [dues]

theorem length_dues : (dues top l).length = l.sum := by
  induction l generalizing top with
  | nil => rfl
  | cons n l ih =>
    rw [dues, List.length_append, List.length_replicate, List.sum_cons, ih, Nat.add_comm]

/-- One thing more enters. -/
theorem dues_modifyHead (hl : l ≠ []) : dues top (l.modifyHead (· + 1)) = dues top l ++ [top] := by
  cases l with
  | nil => exact absurd rfl hl
  | cons n l => rw [List.modifyHead_cons, dues, dues, List.replicate_succ', List.append_assoc]

/-- What comes out next stands at the end of the line. -/
theorem dues_concat : dues top (l ++ [n]) = List.replicate n (top - l.length) ++ dues top l := by
  induction l generalizing top with
  | nil => simp [dues]
  | cons m l ih =>
    rw [List.cons_append, dues, dues, ih, List.append_assoc, List.length_cons, Nat.sub_sub,
      Nat.add_comm 1]

theorem lt_of_mem_dues (ht : t ∈ dues top l) : top < t + l.length := by
  induction l generalizing top with
  | nil => exact absurd ht List.not_mem_nil
  | cons n l ih =>
    rw [List.length_cons]
    rcases List.mem_append.mp ht with ht | ht
    · have := ih ht
      omega
    · have := List.eq_of_mem_replicate ht
      omega

end DelayLine
