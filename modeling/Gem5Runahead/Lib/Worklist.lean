import Mathlib.Data.List.Basic
import Mathlib.Tactic.Common

/-!
# Lib.Worklist

A worklist search. Visiting an item may fail, and otherwise yields the keys it adds to those done
so far, and more items, which join the list at its end.

* `run` — with fuel; `run_todo_eq_nil` says how much of it empties the list.
* `Visits` — the items that a search comes to, with the keys done by then.
* `run_invariant` — what every visit keeps holds at the end.
* `exists_run_iff` — a search ends without failing if no visit of it fails.
* `visits_of_mem` — a search that ends has visited every item of its list.
-/

structure Worklist (κ α : Type*) where
  done : List κ
  todo : List α

namespace Worklist

variable {κ α : Type*} (visit : List κ → α → Option (List κ × List α))

/-- The first item of the list is visited. -/
def step (w : Worklist κ α) : Option (Worklist κ α) :=
  match w.todo with
  | [] => some w
  | a :: rest => do
    let (keys, items) ← visit w.done a
    return ⟨w.done ++ keys, rest ++ items⟩

def run : Nat → Worklist κ α → Option (Worklist κ α)
  | 0, w => some w
  | n + 1, w => do run n (← w.step visit)

/-- The search comes to item `a` with the keys `done`. -/
def Visits (w : Worklist κ α) (done : List κ) (a : α) : Prop :=
  ∃ n rest, run visit n w = some ⟨done, a :: rest⟩

variable {visit} {w w' v : Worklist κ α} {done keys : List κ} {a : α} {rest items : List α}
  {n m : Nat}

section Steps

/-- A step from a list that is not empty visits its first item. -/
theorem step_cases (h : step visit w = some w') : w.todo = [] ∧ w' = w ∨
    ∃ a rest keys items, w.todo = a :: rest ∧ visit w.done a = some (keys, items) ∧
      w' = ⟨w.done ++ keys, rest ++ items⟩ := by
  unfold step at h
  split at h
  · rename_i hnil
    exact .inl ⟨hnil, (Option.some.inj h).symm⟩
  · rename_i a rest hcons
    obtain ⟨⟨keys, items⟩, hvisit, hw'⟩ := Option.bind_eq_some_iff.mp h
    exact .inr ⟨a, rest, keys, items, hcons, hvisit, (Option.some.inj hw').symm⟩

theorem run_succ (h : step visit w = some v) : run visit (n + 1) w = run visit n v := by
  simp [run, h]

theorem run_add (n m : Nat) (w : Worklist κ α) :
    run visit (n + m) w = (run visit n w).bind (run visit m) := by
  induction n generalizing w with
  | zero => simp [run]
  | succ n ih =>
    rw [Nat.add_right_comm]
    cases hstep : step visit w with
    | none => simp [run, hstep]
    | some v => rw [run_succ hstep, run_succ hstep, ih]

/-- With an empty list nothing happens any more. -/
theorem run_of_todo_nil (h : w.todo = []) (n : Nat) : run visit n w = some w := by
  induction n with
  | zero => rfl
  | succ n ih =>
    have hstep : step visit w = some w := by simp [step, h]
    rw [run_succ hstep, ih]

end Steps

section Runs

/-- Every visit takes its item off the list, and what it adds to the list comes out of a weight
that the new keys take away: so the list gets empty. -/
theorem run_todo_eq_nil {weight : List κ → Nat}
    (hweight : ∀ done a keys items, visit done a = some (keys, items) →
      items.length + weight (done ++ keys) ≤ weight done)
    (hrun : run visit n w = some w') (hn : w.todo.length + weight w.done ≤ n) : w'.todo = [] := by
  induction n generalizing w with
  | zero =>
    cases hrun
    rw [← List.length_eq_zero_iff]
    omega
  | succ n ih =>
    obtain ⟨v, hv, hrest⟩ := Option.bind_eq_some_iff.mp hrun
    rcases step_cases hv with ⟨hnil, rfl⟩ | ⟨a, rest, keys, items, htodo, hvisit, rfl⟩
    · rw [run_of_todo_nil hnil] at hrest
      rw [← Option.some.inj hrest]
      exact hnil
    · refine ih hrest ?_
      have := hweight _ a keys items hvisit
      rw [htodo] at hn
      simp only [List.length_append, List.length_cons] at hn ⊢
      omega

theorem Visits.of_step (hstep : step visit w = some v) (h : Visits visit v done a) :
    Visits visit w done a := by
  obtain ⟨n, rest, hrun⟩ := h
  exact ⟨n + 1, rest, (run_succ hstep).trans hrun⟩

/-- The invariant rule: a property that every visit of the search keeps. -/
theorem run_invariant {I : Worklist κ α → Prop} (hrun : run visit n w = some w') (hw : I w)
    (hstep : ∀ done a rest keys items, Visits visit w done a → I ⟨done, a :: rest⟩ →
      visit done a = some (keys, items) → I ⟨done ++ keys, rest ++ items⟩) : I w' := by
  induction n generalizing w with
  | zero =>
    cases hrun
    exact hw
  | succ n ih =>
    obtain ⟨v, hv, hrest⟩ := Option.bind_eq_some_iff.mp hrun
    rcases step_cases hv with ⟨-, rfl⟩ | ⟨a, rest, keys, items, htodo, hvisit, rfl⟩
    · exact ih hrest hw hstep
    · have hfirst : Visits visit w w.done a := ⟨0, rest, by rw [run, ← htodo]⟩
      refine ih hrest (hstep _ a rest keys items hfirst (by rwa [← htodo]) hvisit) ?_
      exact fun done b rest' keys' items' hvisits => hstep done b rest' keys' items' (hvisits.of_step hv)

/-- A search that ends has visited what was on its list. -/
theorem visits_of_mem (hrun : run visit n w = some w') (hnil : w'.todo = []) (ha : a ∈ w.todo) :
    ∃ done, Visits visit w done a ∧ (visit done a).isSome := by
  induction n generalizing w with
  | zero =>
    cases hrun
    rw [hnil] at ha
    cases ha
  | succ n ih =>
    obtain ⟨v, hv, hrest⟩ := Option.bind_eq_some_iff.mp hrun
    rcases step_cases hv with ⟨hempty, -⟩ | ⟨b, rest, keys, items, htodo, hvisit, rfl⟩
    · rw [hempty] at ha
      cases ha
    · rw [htodo] at ha
      rcases List.mem_cons.mp ha with rfl | ha
      · refine ⟨w.done, ⟨0, rest, ?_⟩, by simp [hvisit]⟩
        rw [run, ← htodo]
      · obtain ⟨done, hvisits, hsome⟩ := ih hrest (List.mem_append_left _ ha)
        exact ⟨done, hvisits.of_step hv, hsome⟩

/-- What a visit puts on the list of a search that ends is visited later. -/
theorem Visits.later (hrun : run visit n w = some w') (hnil : w'.todo = [])
    (h : Visits visit w done a) :
    ∃ keys items, visit done a = some (keys, items) ∧
      ∀ b ∈ items, ∃ done', Visits visit w done' b ∧ (visit done' b).isSome := by
  obtain ⟨m, rest, hm⟩ := h
  have hend : ∃ k, run visit k ⟨done, a :: rest⟩ = some w' := by
    refine ⟨n, ?_⟩
    have hlong := @run_add _ _ visit n m w
    rw [Nat.add_comm, run_add, hm, hrun, Option.bind_some, Option.bind_some,
      run_of_todo_nil hnil] at hlong
    exact hlong
  obtain ⟨k, hk⟩ := hend
  cases k with
  | zero =>
    cases hk
    cases hnil
  | succ k =>
    obtain ⟨v, hv, hk'⟩ := Option.bind_eq_some_iff.mp hk
    rcases step_cases hv with ⟨hempty, -⟩ | ⟨a', rest', keys, items, htodo, hvisit, rfl⟩
    · cases hempty
    · cases htodo
      refine ⟨keys, items, hvisit, fun b hb => ?_⟩
      obtain ⟨done', ⟨j, rest'', hj⟩, hsome⟩ :=
        visits_of_mem hk' hnil (List.mem_append_right _ hb)
      refine ⟨done', ⟨m + (j + 1), rest'', ?_⟩, hsome⟩
      rw [run_add, hm, Option.bind_some, run_succ hv, hj]

/-- A search fails only in a visit. -/
theorem exists_run (h : ∀ done a, Visits visit w done a → (visit done a).isSome) (n : Nat) :
    ∃ w', run visit n w = some w' := by
  induction n generalizing w with
  | zero => exact ⟨w, rfl⟩
  | succ n ih =>
    cases htodo : w.todo with
    | nil => exact ⟨w, run_of_todo_nil htodo _⟩
    | cons a rest =>
      have hhead : Visits visit w w.done a := ⟨0, rest, by rw [run, ← htodo]⟩
      obtain ⟨⟨keys, items⟩, hvisit⟩ := Option.isSome_iff_exists.mp (h _ _ hhead)
      have hstep : step visit w = some ⟨w.done ++ keys, rest ++ items⟩ := by
        simp [step, htodo, hvisit]
      rw [run_succ hstep]
      exact ih fun done a hvisits => h done a (hvisits.of_step hstep)

end Runs

end Worklist
