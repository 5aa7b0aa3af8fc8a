import Mathlib.Algebra.BigOperators.Group.List.Basic
import Mathlib.Algebra.Ring.Nat
import Mathlib.Data.List.Nodup

/-!
# Lib.Dependents

Producers, each with a list of the consumers that wait for it.

* `pending` — for how many of the producers that are still there a consumer waits.
* `pending_erase`, `pending_addDependent` — a producer is done, a consumer comes.
-/

namespace Dependents

variable {κ : Type*} [DecidableEq κ] {live : List κ} {deps deps' : κ → List κ} {i j p : κ}

def pending (live : List κ) (deps : κ → List κ) (i : κ) : Nat :=
  (live.map fun p => (deps p).count i).sum

@[simp] theorem pending_nil : pending [] deps i = 0 := rfl

theorem pending_cons : pending (p :: live) deps i = (deps p).count i + pending live deps i := by
  simp [pending]

theorem pending_pos_iff : 0 < pending live deps i ↔ ∃ p ∈ live, i ∈ deps p := by
  induction live with
  | nil => simp
  | cons q live ih =>
    rw [pending_cons, Nat.add_pos_iff_pos_or_pos, ih, List.count_pos_iff]
    simp

theorem pending_eq_zero_iff : pending live deps i = 0 ↔ ∀ p ∈ live, i ∉ deps p := by
  rw [← Nat.le_zero, ← Nat.not_lt, pending_pos_iff]
  simp

theorem pending_congr (h : ∀ p ∈ live, (deps p).count i = (deps' p).count i) :
    pending live deps i = pending live deps' i := by
  rw [pending, pending, List.map_congr_left h]

/-- The consumer does not wait any longer for a producer that is done. -/
theorem pending_erase (h : p ∈ live) :
    pending live deps i = (deps p).count i + pending (live.erase p) deps i :=
  (List.sum_map_erase (fun p => (deps p).count i) h).symm

/-- A producer that is gone is not waited for. -/
theorem pending_le_of_sublist {live' : List κ} (h : live'.Sublist live) :
    pending live' deps i ≤ pending live deps i := by
  induction h with
  | slnil => exact Nat.le_refl _
  | cons p _ ih =>
    rw [pending_cons]
    exact Nat.le_trans ih (Nat.le_add_left _ _)
  | cons_cons p _ ih =>
    rw [pending_cons, pending_cons]
    exact Nat.add_le_add_left ih _

/-- Producers leave that the consumer does not wait for. -/
theorem pending_filter {f : κ → Bool} (h : ∀ p ∈ live, f p = false → i ∉ deps p) :
    pending (live.filter f) deps i = pending live deps i := by
  induction live with
  | nil => rfl
  | cons q live ih =>
    have hlive := ih fun p hp => h p (List.mem_cons_of_mem q hp)
    cases hq : f q with
    | true => rw [List.filter_cons_of_pos hq, pending_cons, pending_cons, hlive]
    | false =>
      have hzero : (deps q).count i = 0 := List.count_eq_zero.mpr (h q List.mem_cons_self hq)
      rw [List.filter_cons_of_neg (by simp [hq]), pending_cons, hlive, hzero, Nat.zero_add]

def addDependent (deps : κ → List κ) (producers : List κ) (j : κ) (p : κ) : List κ :=
  if p ∈ producers then deps p ++ [j] else deps p

theorem pending_addDependent_of_ne {producers : List κ} (h : i ≠ j) :
    pending live (addDependent deps producers j) i = pending live deps i := by
  refine pending_congr fun p _ => ?_
  rw [addDependent]
  split
  · rw [List.count_append, List.count_singleton, if_neg (by simpa using Ne.symm h), Nat.add_zero]
  · rfl

/-- A consumer that is new waits for all the producers that it was added to. -/
theorem pending_addDependent_self {producers : List κ} (hnew : ∀ p ∈ live, j ∉ deps p)
    (hlive : live.Nodup) (hprod : producers.Nodup) (hsub : ∀ p ∈ producers, p ∈ live) :
    pending live (addDependent deps producers j) j = producers.length := by
  have hcount : ∀ p ∈ live, (addDependent deps producers j p).count j =
      if p ∈ producers then 1 else 0 := fun p hp => by
    have hzero : (deps p).count j = 0 := List.count_eq_zero.mpr (hnew p hp)
    rw [addDependent]
    split
    · rw [List.count_append, List.count_singleton_self, hzero]
    · exact hzero
  rw [pending, List.map_congr_left hcount]
  have hsum : (live.map fun p => if p ∈ producers then 1 else 0).sum =
      (live.filter (· ∈ producers)).length := by
    rw [← List.countP_eq_length_filter]
    clear hcount hnew hsub hlive
    induction live with
    | nil => rfl
    | cons q live ih => by_cases hq : q ∈ producers <;> simp [hq, ih, Nat.add_comm]
  rw [hsum]
  refine List.Perm.length_eq ((List.perm_ext_iff_of_nodup (hlive.filter _) hprod).mpr fun p => ?_)
  simp only [List.mem_filter, decide_eq_true_eq]
  exact ⟨fun h => h.2, fun h => ⟨hsub p h, h⟩⟩

end Dependents
