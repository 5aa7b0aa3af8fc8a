import Mathlib.Tactic.Common

/-!
# Lib.While

A loop whose body may fail, with fuel.

* `loop` — `none` if the body fails or the fuel runs out.
* `loop_spec` — the invariant rule: enough fuel ends the loop, and the invariant holds then.
-/

namespace While

variable {σ : Type*} (done : σ → Bool) (body : σ → Option σ)

def loop : Nat → σ → Option σ
  | 0, _ => none
  | n + 1, s => if done s then some s else body s >>= loop n

variable {done body} {s : σ} {I : σ → Prop} {size : σ → Nat} {n : Nat}

/-- A body that does not fail keeps the invariant and makes the state smaller. -/
theorem loop_spec (hs : I s) (hn : size s < n)
    (hbody : ∀ s, I s → done s = false → ∃ t, body s = some t ∧ I t ∧ size t < size s) :
    ∃ t, loop done body n s = some t ∧ I t ∧ done t = true := by
  induction n generalizing s with
  | zero => exact absurd hn (Nat.not_lt_zero _)
  | succ n ih =>
    cases hdone : done s with
    | true => exact ⟨s, by simp [loop, hdone], hs, hdone⟩
    | false =>
      obtain ⟨u, hstep, hu, hsize⟩ := hbody s hs hdone
      obtain ⟨t, hloop, ht⟩ := ih hu (by omega)
      exact ⟨t, by simp [loop, hdone, hstep, hloop], ht⟩

end While
