import Mathlib.Data.List.Induction
import Mathlib.Tactic.Common

/-!
# Lib.WriteLog

A log of partial writes to a keyed store. Every entry writes some of the keys or clears the
whole store; `contents` is what a reader of the log finds under each key: the value written
last since the last clear, if there is one.

* `contents_put` / `contents_clear` — the effect of one more entry.
* `isSome_of_cover` — two logs that clear together, one of which writes a key whenever the other
  writes a related key: what is present in the one is present in the other.
-/

namespace WriteLog

inductive Entry (κ β : Type*) where
  /-- Writes the keys at which `f` is `some`. -/
  | put (f : κ → Option β)
  | clear

section Contents

variable {κ β : Type*}

def Entry.apply : Entry κ β → (κ → Option β) → κ → Option β
  | .put f, m, k => (f k).or (m k)
  | .clear, _, _ => none

/-- What the log holds under each key; the oldest entry is the head of the list. -/
def contents (l : List (Entry κ β)) : κ → Option β :=
  l.foldl (fun m e => e.apply m) fun _ => none

@[simp] theorem contents_nil (k : κ) : contents ([] : List (Entry κ β)) k = none := rfl

theorem contents_concat (l : List (Entry κ β)) (e : Entry κ β) :
    contents (l ++ [e]) = e.apply (contents l) := by
  simp [contents]

@[simp] theorem contents_put (l : List (Entry κ β)) (f : κ → Option β) (k : κ) :
    contents (l ++ [.put f]) k = (f k).or (contents l k) := by
  simp [contents_concat, Entry.apply]

@[simp] theorem contents_clear (l : List (Entry κ β)) (k : κ) :
    contents (l ++ [.clear]) k = none := by
  simp [contents_concat, Entry.apply]

end Contents

section Cover

variable {α κ κ' β β' : Type*}

/-- `r k k'` relates a key of one log to a key of the other: every `put` that writes `k` in the
first is matched by one that writes `k'` in the second, and clears are matched by clears. -/
def Covers (r : κ → κ' → Prop) : Entry κ β → Entry κ' β' → Prop
  | .put f, .put g => ∀ k k', r k k' → (f k).isSome → (g k').isSome
  | .clear, .clear => True
  | _, _ => False

theorem isSome_of_cover {r : κ → κ' → Prop} {e : α → Entry κ β} {e' : α → Entry κ' β'}
    {l : List α} (h : ∀ a ∈ l, Covers r (e a) (e' a)) {k : κ} {k' : κ'} (hk : r k k') :
    (contents (l.map e) k).isSome → (contents (l.map e') k').isSome := by
  induction l using List.reverseRecOn with
  | nil => simp
  | append_singleton l a ih =>
    have ha := h a (by simp)
    have ih := ih fun x hx => h x (by simp [hx])
    rw [List.map_append, List.map_append, List.map_singleton, List.map_singleton]
    cases he : e a <;> cases he' : e' a <;> simp only [he, he', Covers] at ha
    · rename_i f g
      simp only [contents_put, Option.isSome_or, Bool.or_eq_true]
      exact Or.imp (ha k k' hk) ih
    · simp

end Cover

end WriteLog
