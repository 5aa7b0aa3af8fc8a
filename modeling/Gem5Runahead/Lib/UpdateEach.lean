import Mathlib.Data.List.Basic
import Mathlib.Logic.Function.Basic
import Mathlib.Tactic.Common

/-!
# Lib.UpdateEach

Loops in the `Option` monad: a map updated at one key after another, and what every round keeps.

* `updateEach` — updates a map at the keys of a list, one by one; each new value depends on the
  old value at its key. `updateEach_mem` and `updateEach_not_mem` say what the map then holds,
  `updateEach_isSome` when there is one.
* `foldlM_rel` — a reflexive and transitive relation that every round keeps holds of the loop.
-/

section UpdateEach

variable {κ β : Type*} [DecidableEq κ] {f : κ → β → Option β} {l : List κ} {m m' : κ → β} {k : κ}

def updateEach (f : κ → β → Option β) (l : List κ) (m : κ → β) : Option (κ → β) :=
  l.foldlM (fun m k => (f k (m k)).map (Function.update m k)) m

theorem updateEach_cons (f : κ → β → Option β) (k : κ) (l : List κ) (m : κ → β) :
    updateEach f (k :: l) m =
      (f k (m k)).bind fun b => updateEach f l (Function.update m k b) := by
  simp only [updateEach, List.foldlM_cons]
  cases f k (m k) <;> rfl

theorem updateEach_not_mem (h : updateEach f l m = some m') (hk : k ∉ l) : m' k = m k := by
  induction l generalizing m with
  | nil =>
    cases h
    rfl
  | cons a l ih =>
    rw [updateEach_cons] at h
    obtain ⟨b, -, h⟩ := Option.bind_eq_some_iff.mp h
    rw [List.mem_cons, not_or] at hk
    rw [ih h hk.2, Function.update_of_ne hk.1]

theorem updateEach_mem (h : updateEach f l m = some m') (hl : l.Nodup) (hk : k ∈ l) :
    f k (m k) = some (m' k) := by
  induction l generalizing m with
  | nil => cases hk
  | cons a l ih =>
    rw [updateEach_cons] at h
    obtain ⟨b, hb, h⟩ := Option.bind_eq_some_iff.mp h
    obtain ⟨hal, hl⟩ := List.nodup_cons.mp hl
    rcases List.mem_cons.mp hk with rfl | hk
    · rw [updateEach_not_mem h hal, Function.update_self, hb]
    · have hne : k ≠ a := fun hka => hal (hka ▸ hk)
      have hrest := ih h hl hk
      rw [Function.update_of_ne hne] at hrest
      exact hrest

/-- The loop comes to its end when every key can be updated. -/
theorem updateEach_isSome (hl : l.Nodup) (h : ∀ k ∈ l, (f k (m k)).isSome) :
    (updateEach f l m).isSome := by
  induction l generalizing m with
  | nil => rfl
  | cons a l ih =>
    obtain ⟨hal, hl⟩ := List.nodup_cons.mp hl
    obtain ⟨b, hb⟩ := Option.isSome_iff_exists.mp (h a List.mem_cons_self)
    rw [updateEach_cons, hb, Option.bind_some]
    refine ih hl fun k hk => ?_
    have hne : k ≠ a := fun hka => hal (hka ▸ hk)
    rw [Function.update_of_ne hne]
    exact h k (List.mem_cons_of_mem a hk)

end UpdateEach

section Fold

variable {α β : Type*} {R : β → β → Prop} {f : β → α → Option β} {l : List α} {s t : β}

theorem foldlM_rel (hrefl : ∀ s, R s s) (htrans : ∀ s t u, R s t → R t u → R s u)
    (hf : ∀ s a t, f s a = some t → R s t) (h : l.foldlM f s = some t) : R s t := by
  induction l generalizing s with
  | nil =>
    cases h
    exact hrefl _
  | cons a l ih =>
    obtain ⟨u, hu, hl⟩ := Option.bind_eq_some_iff.mp h
    exact htrans s u t (hf s a u hu) (ih hl)

end Fold
