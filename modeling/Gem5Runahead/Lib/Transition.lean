import Mathlib.Data.List.Induction
import Mathlib.Order.WellFounded
import Mathlib.Tactic.Common

/-!
# Lib.Transition

Labelled transition systems and their finite runs.

* `System` — the initial states and the labelled step relation.
* `Run`    — `M.Run s l t`: the labels `l`, oldest first, take `s` to `t`.
* `Reaches` — a run from an initial state.
* `guard`  — the same system with only the steps a condition on state and label allows.
* `Run.of_rank` — the rule for progress: runs that lower a rank lead to the goal.

An invariant is proved once per system from its step lemma: `Reaches.invariant` for a property
of states, `Reaches.history` for a property of the labels so far and the state together.
-/

namespace Transition

/-- A transition system with states `σ` and labels `α`. -/
structure System (σ : Type*) (α : Type*) where
  init : σ → Prop
  step : σ → α → σ → Prop

namespace System

section Runs

variable {σ α : Type*} {M : System σ α} {s t u : σ} {a : α} {l l' : List α}

inductive Run (M : System σ α) : σ → List α → σ → Prop where
  | nil {s : σ} : Run M s [] s
  | snoc {s t u : σ} {l : List α} {a : α} :
      Run M s l t → M.step t a u → Run M s (l ++ [a]) u

theorem Run.single (h : M.step s a t) : M.Run s [a] t := .snoc .nil h

theorem Run.trans (h : M.Run s l t) (h' : M.Run t l' u) : M.Run s (l ++ l') u := by
  induction h' with
  | nil => simpa using h
  | snoc _ hstep ih =>
    rw [← List.append_assoc]
    exact .snoc ih hstep

theorem Run.mono {N : System σ α} (hstep : ∀ s a t, M.step s a t → N.step s a t)
    (h : M.Run s l t) : N.Run s l t := by
  induction h with
  | nil => exact .nil
  | snoc _ hst ih => exact .snoc ih (hstep _ _ _ hst)

theorem Run.of_snoc (h : M.Run s (l ++ [a]) u) : ∃ t, M.Run s l t ∧ M.step t a u := by
  generalize hl : l ++ [a] = l' at h
  cases h with
  | nil => simp at hl
  | snoc hr hst =>
    obtain ⟨rfl, ha⟩ := List.append_inj' hl rfl
    obtain rfl : a = _ := List.singleton_inj.mp ha
    exact ⟨_, hr, hst⟩

theorem Run.of_append (h : M.Run s (l ++ l') u) : ∃ t, M.Run s l t ∧ M.Run t l' u := by
  induction l' using List.reverseRecOn generalizing u with
  | nil => exact ⟨u, by simpa using h, .nil⟩
  | append_singleton l' a ih =>
    rw [← List.append_assoc] at h
    obtain ⟨v, hv, hst⟩ := h.of_snoc
    obtain ⟨t, ht, hr⟩ := ih hv
    exact ⟨t, ht, .snoc hr hst⟩

/-- The invariant rule for a run from any state: a property kept by the labels of a run. -/
theorem Run.keeps {I : σ → Prop} {p : α → Prop} (h : M.Run s l t) (hl : ∀ a ∈ l, p a)
    (hstep : ∀ s a u, p a → I s → M.step s a u → I u) (hs : I s) : I t := by
  induction h with
  | nil => exact hs
  | @snoc t u l a _ hst ih =>
    refine hstep t a u (hl a (by simp)) (ih fun b hb => hl b (by simp [hb])) hst

/-- The ranking rule: if from each state with `I` that is not in `Q` a run leads to a state with
`I` that is in `Q` or has a smaller rank, then from each state with `I` a run leads into `Q`. -/
theorem Run.of_rank {I Q : σ → Prop} {β : Type*} [LT β] [WellFoundedLT β] (rank : σ → β)
    (hstep : ∀ s, I s → ¬ Q s → ∃ l t, M.Run s l t ∧ I t ∧ (Q t ∨ rank t < rank s)) {s : σ}
    (hs : I s) : ∃ l t, M.Run s l t ∧ I t ∧ Q t := by
  induction hb : rank s using WellFoundedLT.induction generalizing s with
  | ind b ih =>
    subst hb
    by_cases hq : Q s
    · exact ⟨[], s, .nil, hs, hq⟩
    · obtain ⟨l, t, hrun, ht, hqt | hlt⟩ := hstep s hs hq
      · exact ⟨l, t, hrun, ht, hqt⟩
      · obtain ⟨l', u, hrun', hu⟩ := ih (rank t) hlt ht rfl
        exact ⟨l ++ l', u, hrun.trans hrun', hu⟩

/-- A partial function that takes only steps of `M` runs `M`. -/
theorem Run.of_foldlM {f : σ → α → Option σ} (hf : ∀ s a t, f s a = some t → M.step s a t)
    (h : l.foldlM f s = some t) : M.Run s l t := by
  induction l generalizing s with
  | nil =>
    cases h
    exact .nil
  | cons a l ih =>
    obtain ⟨u, hu, hl⟩ := Option.bind_eq_some_iff.mp h
    exact (Run.single (hf s a u hu)).trans (ih hl)

/-- A run from an initial state. -/
def Reaches (M : System σ α) (l : List α) (t : σ) : Prop := ∃ s, M.init s ∧ M.Run s l t

theorem Reaches.start (h : M.init s) : M.Reaches [] s := ⟨s, h, .nil⟩

theorem Reaches.snoc (h : M.Reaches l t) (hstep : M.step t a u) : M.Reaches (l ++ [a]) u := by
  obtain ⟨s, hs, hr⟩ := h
  exact ⟨s, hs, .snoc hr hstep⟩

theorem Reaches.of_snoc (h : M.Reaches (l ++ [a]) u) : ∃ t, M.Reaches l t ∧ M.step t a u := by
  obtain ⟨s, hs, hr⟩ := h
  obtain ⟨t, hr, hst⟩ := hr.of_snoc
  exact ⟨t, ⟨s, hs, hr⟩, hst⟩

/-- The invariant rule with the history: a property of the labels so far and the state that
holds at the start and is kept by every step holds at the end of every run. -/
theorem Reaches.history {I : List α → σ → Prop} (h : M.Reaches l t)
    (hinit : ∀ s, M.init s → I [] s)
    (hstep : ∀ l s a u, I l s → M.step s a u → I (l ++ [a]) u) : I l t := by
  obtain ⟨s, hs, hr⟩ := h
  induction hr with
  | nil => exact hinit _ hs
  | snoc _ hst ih => exact hstep _ _ _ _ ih hst

/-- The invariant rule for a property of states. -/
theorem Reaches.invariant {I : σ → Prop} (h : M.Reaches l t) (hinit : ∀ s, M.init s → I s)
    (hstep : ∀ s a u, I s → M.step s a u → I u) : I t :=
  h.history (I := fun _ s => I s) hinit fun _ s a u => hstep s a u

/-- The steps of `M` that the condition `G` on the state before and the label allows. -/
def guard (M : System σ α) (G : σ → α → Prop) : System σ α where
  init := M.init
  step s a t := M.step s a t ∧ G s a

theorem Run.guard_mono {G G' : σ → α → Prop} (hG : ∀ s a, G s a → G' s a)
    (h : (M.guard G).Run s l t) : (M.guard G').Run s l t := by
  refine h.mono ?_
  rintro s a t ⟨hst, hg⟩
  exact ⟨hst, hG s a hg⟩

theorem Reaches.guard_mono {G G' : σ → α → Prop} (hG : ∀ s a, G s a → G' s a)
    (h : (M.guard G).Reaches l t) : (M.guard G').Reaches l t := by
  obtain ⟨s, hs, hr⟩ := h
  exact ⟨s, hs, hr.guard_mono hG⟩

theorem Reaches.of_guard {G : σ → α → Prop} (h : (M.guard G).Reaches l t) : M.Reaches l t := by
  obtain ⟨s, hs, hr⟩ := h
  refine ⟨s, hs, hr.mono ?_⟩
  rintro s a t ⟨hst, -⟩
  exact hst

end Runs

end System
end Transition
