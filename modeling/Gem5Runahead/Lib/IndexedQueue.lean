import Mathlib.Data.List.DropRight
import Mathlib.Tactic.Common

/-!
# Lib.IndexedQueue

A queue whose elements keep their index for life: the front has index `head`, a push at the back
takes the index `endIdx`, and popping the front moves `head`. An iterator is an index.

* `get?` and one lemma for each operation: `get?_modify`, `get?_pushBack`, `get?_map`; for the
  two that pop, what is read afterwards was there before (`get?_of_dropFront`, `get?_of_dropBack`)
  and what the popping test rejects is still there (`get?_dropFront`, `get?_dropBack`).
* `count` — how many elements pass a test, and what each operation does to it.
-/

structure IndexedQueue (α : Type*) where
  head : Nat
  items : List α

namespace IndexedQueue

section Reading

variable {α : Type*} {q : IndexedQueue α} {i j : Nat} {a b : α}

/-- One past the index of the last element. -/
def endIdx (q : IndexedQueue α) : Nat := q.head + q.items.length

def get? (q : IndexedQueue α) (i : Nat) : Option α :=
  if q.head ≤ i then q.items[i - q.head]? else none

def modify (q : IndexedQueue α) (i : Nat) (f : α → α) : IndexedQueue α :=
  if q.head ≤ i then { q with items := q.items.modify (i - q.head) f } else q

def pushBack (q : IndexedQueue α) (a : α) : IndexedQueue α := { q with items := q.items ++ [a] }

def map (q : IndexedQueue α) (f : α → α) : IndexedQueue α := { q with items := q.items.map f }

/-- Pops the front as long as it passes the test. -/
def dropFront (q : IndexedQueue α) (p : α → Bool) : IndexedQueue α where
  head := q.head + (q.items.takeWhile p).length
  items := q.items.dropWhile p

/-- Pops the back as long as it passes the test. -/
def dropBack (q : IndexedQueue α) (p : α → Bool) : IndexedQueue α :=
  { q with items := q.items.rdropWhile p }

theorem get?_add (q : IndexedQueue α) (k : Nat) : q.get? (q.head + k) = q.items[k]? := by
  simp [get?]

theorem lt_of_get? (h : q.get? i = some a) : q.head ≤ i ∧ i < q.endIdx := by
  unfold get? at h
  split at h
  · rename_i hle
    have := (List.getElem?_eq_some_iff.mp h).1
    exact ⟨hle, by unfold endIdx; omega⟩
  · cases h

theorem get?_of_lt (hh : q.head ≤ i) (hi : i < q.endIdx) : ∃ a, q.get? i = some a := by
  have hlt : i - q.head < q.items.length := by unfold endIdx at hi; omega
  exact ⟨q.items[i - q.head], by rw [get?, if_pos hh, List.getElem?_eq_getElem hlt]⟩

theorem mem_items (h : q.get? i = some a) : a ∈ q.items := by
  unfold get? at h
  split at h
  · exact List.mem_of_getElem? h
  · cases h

theorem exists_get? (h : a ∈ q.items) : ∃ i, q.get? i = some a := by
  obtain ⟨k, hk⟩ := List.mem_iff_getElem?.mp h
  exact ⟨q.head + k, by rw [get?_add, hk]⟩

@[simp] theorem modify_head (q : IndexedQueue α) (i : Nat) (f : α → α) :
    (q.modify i f).head = q.head := by
  unfold modify; split <;> rfl

@[simp] theorem modify_endIdx (q : IndexedQueue α) (i : Nat) (f : α → α) :
    (q.modify i f).endIdx = q.endIdx := by
  unfold modify endIdx; split <;> simp

theorem get?_modify (q : IndexedQueue α) (i j : Nat) (f : α → α) :
    (q.modify i f).get? j = if j = i then (q.get? j).map f else q.get? j := by
  unfold modify
  by_cases hi : q.head ≤ i
  · rw [if_pos hi]
    by_cases hj : q.head ≤ j
    · simp only [get?, hj, if_true, List.getElem?_modify]
      by_cases he : j = i
      · subst he; simp
      · have hne : i - q.head ≠ j - q.head := by omega
        simp [he, hne]
    · have hne : j ≠ i := by omega
      simp [get?, hj, hne]
  · rw [if_neg hi]
    by_cases he : j = i
    · subst he; simp [get?, hi]
    · rw [if_neg he]

theorem modify_modify (q : IndexedQueue α) (i : Nat) (f g : α → α) :
    (q.modify i f).modify i g = q.modify i fun a => g (f a) := by
  unfold modify
  by_cases hi : q.head ≤ i
  · have hmod := List.modify_modify_eq f g (i - q.head) q.items
    simp only [hi, if_true, hmod]
    rfl
  · simp only [hi, if_false]

/-- Only the element at the index matters. -/
theorem modify_congr {f g : α → α} (h : ∀ a, q.get? i = some a → f a = g a) :
    q.modify i f = q.modify i g := by
  unfold modify
  by_cases hi : q.head ≤ i
  · simp only [get?, hi, if_true] at h ⊢
    congr 1
    refine List.ext_getElem? fun k => ?_
    rw [List.getElem?_modify, List.getElem?_modify]
    cases hk : q.items[k]? with
    | none => rfl
    | some a =>
      by_cases he : i - q.head = k
      · subst he
        simp [h a hk]
      · simp [he]
  · simp only [hi, if_false]

@[simp] theorem pushBack_head (q : IndexedQueue α) (a : α) : (q.pushBack a).head = q.head := rfl

@[simp] theorem pushBack_endIdx (q : IndexedQueue α) (a : α) :
    (q.pushBack a).endIdx = q.endIdx + 1 := by
  simp [pushBack, endIdx, Nat.add_assoc]

theorem get?_pushBack (q : IndexedQueue α) (a : α) (i : Nat) :
    (q.pushBack a).get? i = if i = q.endIdx then some a else q.get? i := by
  by_cases hi : q.head ≤ i
  · obtain ⟨k, rfl⟩ := Nat.exists_eq_add_of_le hi
    have h1 : (q.pushBack a).get? (q.head + k) = (q.items ++ [a])[k]? := get?_add (q.pushBack a) k
    rw [h1, get?_add, List.getElem?_append]
    unfold endIdx
    by_cases hk : k < q.items.length
    · rw [if_pos hk, if_neg (by omega)]
    · rw [if_neg hk]
      by_cases he : k = q.items.length
      · subst he; simp
      · rw [if_neg (by omega), List.getElem?_eq_none (by simp; omega),
          List.getElem?_eq_none (by omega)]
  · have hne : i ≠ q.endIdx := by unfold endIdx; omega
    simp [get?, pushBack, hi, hne]

@[simp] theorem map_head (q : IndexedQueue α) (f : α → α) : (q.map f).head = q.head := rfl

@[simp] theorem map_endIdx (q : IndexedQueue α) (f : α → α) : (q.map f).endIdx = q.endIdx := by
  simp [map, endIdx]

theorem get?_map (q : IndexedQueue α) (f : α → α) (i : Nat) :
    (q.map f).get? i = (q.get? i).map f := by
  by_cases hi : q.head ≤ i <;> simp [get?, map, hi]

@[simp] theorem dropFront_endIdx (q : IndexedQueue α) (p : α → Bool) :
    (q.dropFront p).endIdx = q.endIdx := by
  have := congrArg List.length (List.takeWhile_append_dropWhile (p := p) (l := q.items))
  simp only [List.length_append] at this
  simp only [dropFront, endIdx]
  omega

theorem dropFront_get? (q : IndexedQueue α) (p : α → Bool) (i : Nat) :
    (q.dropFront p).get? i = if (q.dropFront p).head ≤ i then q.get? i else none := by
  by_cases hi : (q.dropFront p).head ≤ i
  · have hh : q.head + (q.items.takeWhile p).length ≤ i := hi
    have hsplit : q.items[i - q.head]? =
        (q.items.takeWhile p ++ q.items.dropWhile p)[i - q.head]? := by
      rw [List.takeWhile_append_dropWhile]
    rw [if_pos hi, get?, if_pos hi, get?, if_pos (by omega), hsplit,
      List.getElem?_append_right (by omega)]
    simp only [dropFront]
    congr 1
    omega
  · rw [if_neg hi, get?, if_neg hi]

theorem get?_of_dropFront {p : α → Bool} (h : (q.dropFront p).get? i = some a) :
    q.get? i = some a := by
  rw [dropFront_get?] at h
  split at h
  · exact h
  · cases h

theorem get?_dropFront {p : α → Bool} (h : q.get? i = some a) (hp : p a = false) :
    (q.dropFront p).get? i = some a := by
  rw [dropFront_get?, if_pos]
  · exact h
  · by_contra hlt
    have hle := (lt_of_get? h).1
    have hk : i - q.head < (q.items.takeWhile p).length := by
      simp only [dropFront] at hlt; omega
    have hget : (q.items.takeWhile p)[i - q.head]? = some a := by
      rw [get?, if_pos hle, ← List.takeWhile_append_dropWhile (p := p) (l := q.items),
        List.getElem?_append_left hk] at h
      exact h
    have := List.mem_takeWhile_imp (List.mem_of_getElem? hget)
    rw [hp] at this
    cases this

/-- The new front fails the popping test. -/
theorem dropFront_front {p : α → Bool}
    (h : (q.dropFront p).get? (q.dropFront p).head = some a) : p a = false := by
  have hfront : (q.items.dropWhile p)[0]? = some a := by
    rw [← Nat.add_zero (q.dropFront p).head, get?_add] at h
    exact h
  cases hp : p a with
  | false => rfl
  | true =>
    have hne : 0 < (q.items.dropWhile p).length := (List.getElem?_eq_some_iff.mp hfront).1
    have hnot := List.dropWhile_get_zero_not p q.items hne
    rw [List.get_eq_getElem, (List.getElem?_eq_some_iff.mp hfront).2] at hnot
    exact absurd hp hnot

/-- What is not popped bounds the head from above. -/
theorem dropFront_head_le {p : α → Bool} (hh : q.head ≤ i) (hi : i ≤ q.endIdx)
    (h : ∀ a, q.get? i = some a → p a = false) : (q.dropFront p).head ≤ i := by
  by_cases he : i = q.endIdx
  · rw [he, ← dropFront_endIdx q p]
    exact Nat.le_add_right _ _
  · obtain ⟨a, hget⟩ := get?_of_lt hh (by omega)
    exact (lt_of_get? (get?_dropFront hget (h a hget))).1

@[simp] theorem dropBack_head (q : IndexedQueue α) (p : α → Bool) :
    (q.dropBack p).head = q.head := rfl

theorem dropBack_append (q : IndexedQueue α) (p : α → Bool) :
    (q.dropBack p).items ++ q.items.rtakeWhile p = q.items := by
  simp only [dropBack, List.rdropWhile, List.rtakeWhile]
  rw [← List.reverse_append, List.takeWhile_append_dropWhile, List.reverse_reverse]

theorem get?_of_dropBack {p : α → Bool} (h : (q.dropBack p).get? i = some a) :
    q.get? i = some a := by
  have hl : q.head ≤ i := (lt_of_get? h).1
  rw [get?, dropBack_head, if_pos hl] at h
  rw [get?, if_pos hl, ← dropBack_append q p]
  exact (List.getElem?_append_left (List.getElem?_eq_some_iff.mp h).1).trans h

theorem get?_dropBack {p : α → Bool} (h : q.get? i = some a) (hp : p a = false) :
    (q.dropBack p).get? i = some a := by
  have hl := (lt_of_get? h)
  unfold get? at h ⊢
  rw [if_pos hl.1, ← dropBack_append q p] at h
  rw [dropBack_head, if_pos hl.1]
  by_cases hk : i - q.head < (q.dropBack p).items.length
  · rw [List.getElem?_append_left hk] at h
    exact h
  · rw [List.getElem?_append_right (by omega)] at h
    have := List.mem_rtakeWhile_imp (List.mem_of_getElem? h)
    rw [hp] at this
    cases this

/-- What is not popped bounds the end from below. -/
theorem le_dropBack_endIdx {p : α → Bool} (hi : i ≤ q.endIdx) (hh : q.head ≤ i)
    (h : ∀ j a, q.get? j = some a → j + 1 = i → p a = false) : i ≤ (q.dropBack p).endIdx := by
  by_cases he : i = q.head
  · subst he; unfold endIdx; rw [dropBack_head]; omega
  · obtain ⟨a, hget⟩ := get?_of_lt (q := q) (i := i - 1) (by omega) (by omega)
    have := (lt_of_get? (get?_dropBack hget (h _ a hget (by omega)))).2
    omega

end Reading

section Count

variable {α : Type*} {q : IndexedQueue α} {i : Nat} {a : α} {p : α → Bool}

def count (q : IndexedQueue α) (p : α → Bool) : Nat := q.items.countP p

theorem count_modify (h : q.get? i = some a) (f : α → α) :
    (q.modify i f).count p + (p a).toNat = q.count p + (p (f a)).toNat := by
  have hl := lt_of_get? h
  rw [get?, if_pos hl.1] at h
  obtain ⟨hk, rfl⟩ := List.getElem?_eq_some_iff.mp h
  have hsplit : q.items.countP p = (q.items.take (i - q.head) ++
      q.items[i - q.head] :: q.items.drop (i - q.head + 1)).countP p := by
    rw [← List.drop_eq_getElem_cons hk, List.take_append_drop]
  rw [count, count, modify, if_pos hl.1, hsplit, List.modify_eq_take_cons_drop hk]
  simp only [List.countP_append, List.countP_cons]
  cases p q.items[i - q.head] <;> cases p (f q.items[i - q.head]) <;> simp <;> omega

theorem count_pushBack (q : IndexedQueue α) (a : α) (p : α → Bool) :
    (q.pushBack a).count p = q.count p + (p a).toNat := by
  simp only [count, pushBack, List.countP_append, List.countP_singleton]
  cases p a <;> rfl

theorem count_map {f : α → α} (h : ∀ a, p (f a) = p a) : (q.map f).count p = q.count p := by
  simp only [count, map, List.countP_map]
  exact List.countP_congr fun a _ => by simp [h]

theorem count_dropFront {c : α → Bool} (h : ∀ a, c a = true → p a = false) :
    (q.dropFront c).count p = q.count p := by
  have h0 : (q.items.takeWhile c).countP p = 0 :=
    List.countP_eq_zero.mpr fun a ha => by simp [h a (List.mem_takeWhile_imp ha)]
  have := congrArg (List.countP p) (List.takeWhile_append_dropWhile (p := c) (l := q.items))
  rw [List.countP_append, h0, Nat.zero_add] at this
  exact this

theorem count_dropBack {c : α → Bool} (h : ∀ a, c a = true → p a = false) :
    (q.dropBack c).count p = q.count p := by
  have h0 : (q.items.rtakeWhile c).countP p = 0 :=
    List.countP_eq_zero.mpr fun a ha => by simp [h a (List.mem_rtakeWhile_imp ha)]
  have := congrArg (List.countP p) (dropBack_append q c)
  rw [List.countP_append, h0] at this
  exact this

end Count

end IndexedQueue
