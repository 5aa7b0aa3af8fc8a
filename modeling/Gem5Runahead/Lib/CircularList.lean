import Mathlib.Data.List.Nodup
import Mathlib.Data.List.Rotate
import Mathlib.Tactic.Common

/-!
# Lib.CircularList

A circular list read through an index that goes round.

* `CircularList.read` — the element at the index; the index moves on.
* `CircularList.view` — the elements from the index on, once round.
* `CircularList.search` — reads until it meets an element that is not passed over, or the first one
  again.
* `search_spec` — the search finds the first such element of the view, if there is one.
-/

structure CircularList (α : Type*) where
  items : List α := []
  idx : Nat := 0

namespace CircularList

variable {α : Type*} {r r' : CircularList α} {a b : α} {l : List α}

def read (r : CircularList α) : Option (α × CircularList α) := do
  let a ← r.items[r.idx]?
  return (a, { r with idx := if r.idx + 1 = r.items.length then 0 else r.idx + 1 })

def view (r : CircularList α) : List α := r.items.rotate r.idx

/-- The index is one of the list, if there is one. -/
def InRange (r : CircularList α) : Prop := r.items ≠ [] → r.idx < r.items.length

@[simp] theorem length_view (r : CircularList α) : r.view.length = r.items.length :=
  List.length_rotate ..

@[simp] theorem mem_view : a ∈ r.view ↔ a ∈ r.items := List.mem_rotate

theorem nodup_view : r.view.Nodup ↔ r.items.Nodup := List.nodup_rotate

/-- Reading moves the first element of the view to its end. -/
theorem read_eq_some (hr : r.InRange) (hview : r.view = a :: l) :
    ∃ r', r.read = some (a, r') ∧ r'.items = r.items ∧ r'.InRange ∧ r'.view = l ++ [a] := by
  have hne : r.items ≠ [] := by
    intro hnil
    rw [view, hnil] at hview
    simp at hview
  have hlt := hr hne
  have hget : r.items[r.idx]? = some a := by
    have hhead := congrArg List.head? hview
    rw [view, List.rotate_eq_drop_append_take (Nat.le_of_lt hlt), List.head?_append,
      List.head?_drop] at hhead
    rw [List.getElem?_eq_getElem hlt] at hhead ⊢
    simpa using hhead
  refine ⟨{ r with idx := if r.idx + 1 = r.items.length then 0 else r.idx + 1 }, ?_, rfl, ?_, ?_⟩
  · simp [read, hget]
  · intro _
    simp only
    split <;> omega
  · have hnext : r.items.rotate (r.idx + 1) = l ++ [a] := by
      rw [← List.rotate_rotate]
      change r.view.rotate 1 = l ++ [a]
      rw [hview]
      simp
    rw [view]
    simp only
    split
    · rename_i hend
      rw [List.rotate_zero, ← hnext, hend, List.rotate_length]
    · exact hnext

section Search

variable [DecidableEq α]

/-- The loop of the search, after `cur` has been read. `none` for want of fuel. -/
def searchFrom (passed : α → Bool) (start : α) :
    Nat → α → CircularList α → Option (Option α × CircularList α)
  | 0, _, _ => none
  | n + 1, cur, r =>
    if passed cur then do
      let (next, r) ← r.read
      if next = start then return (none, r) else searchFrom passed start n next r
    else some (some cur, r)

def search (passed : α → Bool) (r : CircularList α) : Option (Option α × CircularList α) := do
  let (start, r) ← r.read
  searchFrom passed start r.items.length start r

variable {passed : α → Bool} {start cur : α} {front : List α} {n : Nat}

/-- The loop, when `cur` has been read and `front` before it: the view goes on with `l`, and then
goes round. -/
theorem searchFrom_spec (hr : r.InRange) (hnodup : (front ++ cur :: l).Nodup)
    (hview : r.view = l ++ (front ++ [cur])) (hstart : (front ++ [cur]).head? = some start)
    (hfront : ∀ a ∈ front, passed a = true) (hn : l.length < n) :
    ∃ found r', searchFrom passed start n cur r = some (found, r') ∧ r'.items = r.items ∧
      r'.InRange ∧ (∀ a, found = some a → a ∈ r.items ∧ passed a = false) ∧
      (found = none → ∀ a ∈ r.items, passed a = true) := by
  induction l generalizing n cur front r with
  | nil =>
    cases n with
    | zero => exact absurd hn (Nat.not_lt_zero _)
    | succ n =>
      rw [List.nil_append] at hview
      have hmem : ∀ a, a ∈ r.items ↔ a ∈ front ∨ a = cur := by
        intro a
        rw [← mem_view, hview]
        simp
      by_cases hcur : passed cur = true
      · obtain ⟨rest, hrest⟩ : ∃ rest, r.view = start :: rest := by
          rw [hview]
          exact ⟨_, (List.cons_head?_tail hstart).symm⟩
        obtain ⟨r', hread, hitems, hrange, -⟩ := read_eq_some hr hrest
        refine ⟨none, r', ?_, hitems, hrange, fun a ha => (by cases ha), fun _ a ha => ?_⟩
        · simp [searchFrom, hcur, hread]
        · rcases (hmem a).mp ha with ha | rfl
          · exact hfront a ha
          · exact hcur
      · refine ⟨some cur, r, ?_, rfl, hr, fun a ha => ?_, fun hnone => (by cases hnone)⟩
        · simp [searchFrom, hcur]
        · cases ha
          exact ⟨(hmem cur).mpr (.inr rfl), by simpa using hcur⟩
  | cons b l ih =>
    cases n with
    | zero => exact absurd hn (Nat.not_lt_zero _)
    | succ n =>
      by_cases hcur : passed cur = true
      · obtain ⟨r', hread, hitems, hrange, hview'⟩ := read_eq_some (l := l ++ (front ++ [cur])) hr
          (by rw [hview, List.cons_append])
        have hne : b ≠ start := by
          rintro rfl
          have hmem : b ∈ front ++ [cur] := List.mem_of_mem_head? hstart
          have happ : front ++ cur :: b :: l = (front ++ [cur]) ++ b :: l := by simp
          rw [happ] at hnodup
          exact (List.nodup_append.mp hnodup).2.2 b hmem b List.mem_cons_self rfl
        have hstart' : ((front ++ [cur]) ++ [b]).head? = some start := by
          rw [List.head?_append, hstart]
          rfl
        obtain ⟨found, r'', hsearch, hitems', hrange', hfound, hnone⟩ := @ih r' b (front ++ [cur]) n
          hrange (by simpa using hnodup) (by rw [hview']; simp) hstart'
          (fun a ha => by
            rcases List.mem_append.mp ha with ha | ha
            · exact hfront a ha
            · rw [List.mem_singleton.mp ha]
              exact hcur)
          (by simp only [List.length_cons] at hn; omega)
        rw [hitems] at hitems' hfound hnone
        refine ⟨found, r'', ?_, hitems', hrange', hfound, hnone⟩
        simp [searchFrom, hcur, hread, hne, hsearch]
      · refine ⟨some cur, r, ?_, rfl, hr, fun a ha => ?_, fun hnone => (by cases hnone)⟩
        · simp [searchFrom, hcur]
        · cases ha
          refine ⟨?_, by simpa using hcur⟩
          rw [← mem_view, hview]
          simp

/-- The search of a list that is not empty ends, and it finds an element that is not passed over if
there is one. -/
theorem search_spec (hr : r.InRange) (hne : r.items ≠ []) (hnodup : r.items.Nodup) :
    ∃ found r', r.search passed = some (found, r') ∧ r'.items = r.items ∧ r'.InRange ∧
      (∀ a, found = some a → a ∈ r.items ∧ passed a = false) ∧
      (found = none → ∀ a ∈ r.items, passed a = true) := by
  obtain ⟨a, l, hview⟩ : ∃ a l, r.view = a :: l := by
    refine List.exists_cons_of_ne_nil fun hnil => hne ?_
    exact List.length_eq_zero_iff.mp (by rw [← length_view, hnil]; rfl)
  obtain ⟨r', hread, hitems, hrange, hview'⟩ := read_eq_some hr hview
  have hlength : l.length < r'.items.length := by
    rw [hitems, ← length_view, hview]
    exact Nat.lt_succ_self _
  have hsearch := @searchFrom_spec _ r' l _ passed a a [] r'.items.length hrange
    (by rw [List.nil_append, ← hview]; exact nodup_view.mpr hnodup) (by simpa using hview') rfl
    (fun _ hmem => absurd hmem List.not_mem_nil) hlength
  rw [hitems] at hsearch
  obtain ⟨found, r'', hfrom, hrest⟩ := hsearch
  refine ⟨found, r'', ?_, hrest⟩
  simp only [search, hread, Option.bind_eq_bind, Option.bind_some, hitems]
  exact hfrom

end Search

end CircularList
