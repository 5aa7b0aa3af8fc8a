import Mathlib.Data.List.Basic
import Mathlib.Tactic.Common

/-!
# Lib.Arena

Objects that are allocated and freed by hand. A pointer is the index of its cell. A freed cell
keeps its last value, but it cannot be read any more: `get?` is `none`, so an algorithm that goes
through a dangling pointer, or frees twice, is stuck.

* `alloc`, `get?`, `put`, `free` — the operations.
* `NoLive`, `OneLive` — which pointers can be read.
-/

structure Cell (α : Type*) where
  val : α
  freed : Bool := false

abbrev Arena (α : Type*) := List (Cell α)

namespace Arena

variable {α : Type*} {h : Arena α} {r r' : Nat} {a b : α} {c : Cell α}

def get? (h : Arena α) (r : Nat) : Option α :=
  match h[r]? with
  | some ⟨a, false⟩ => some a
  | _ => none

/-- The new cell is the one behind the last. -/
def alloc (h : Arena α) (a : α) : Arena α := h ++ [⟨a, false⟩]

def put (h : Arena α) (r : Nat) (a : α) : Arena α := h.modify r fun c => { c with val := a }

def free (h : Arena α) (r : Nat) : Arena α := h.modify r fun c => { c with freed := true }

theorem free_ne_nil (hr : h.get? r = some a) : h.free r ≠ [] := by
  intro hnil
  rw [free, ← List.length_eq_zero_iff, List.length_modify, List.length_eq_zero_iff] at hnil
  rw [hnil] at hr
  cases hr

theorem get?_eq_some : h.get? r = some a ↔ h[r]? = some (Cell.mk a false) := by
  unfold get?
  split
  · rename_i b hb
    rw [hb]
    simp
  · rename_i hne
    constructor
    · intro hnone
      cases hnone
    · intro heq
      exact absurd heq (hne a)

theorem put_cell (h : Arena α) (r r' : Nat) (a : α) :
    (h.put r a)[r']? = if r = r' then h[r']?.map fun c => { c with val := a } else h[r']? := by
  rw [put, List.getElem?_modify]
  split
  · rfl
  · cases h[r']? <;> rfl

theorem put_put (h : Arena α) (r : Nat) (a b : α) : (h.put r a).put r b = h.put r b := by
  refine List.ext_getElem? fun r' => ?_
  rw [put_cell, put_cell, put_cell]
  split
  · cases h[r']? <;> rfl
  · rfl

theorem free_cell (h : Arena α) (r r' : Nat) :
    (h.free r)[r']? = if r = r' then h[r']?.map fun c => { c with freed := true }
      else h[r']? := by
  rw [free, List.getElem?_modify]
  split
  · rfl
  · cases h[r']? <;> rfl

theorem put_self (hr : h.get? r = some a) : h.put r a = h := by
  refine List.ext_getElem? fun r' => ?_
  rw [put_cell]
  split
  · rename_i hrr
    subst hrr
    rw [get?_eq_some.mp hr]
    rfl
  · rfl

/-- Nothing can be read. -/
def NoLive (h : Arena α) : Prop := ∀ r, h.get? r = none

/-- Only `r` can be read. -/
structure OneLive (h : Arena α) (r : Nat) (a : α) : Prop where
  get : h.get? r = some a
  only : ∀ r' b, h.get? r' = some b → r' = r

/-- What has been freed satisfies `p`. -/
def Freed (p : α → Prop) (h : Arena α) : Prop :=
  ∀ (r : Nat) (a : α), h[r]? = some (Cell.mk a true) → p a

theorem get?_put (hr : h.get? r = some a) : (h.put r b).get? r = some b := by
  rw [get?_eq_some] at hr ⊢
  rw [put_cell, if_pos rfl, hr]
  rfl

theorem get?_put_of_ne (hr : r ≠ r') : (h.put r b).get? r' = h.get? r' := by
  rw [get?, get?, put_cell, if_neg hr]

theorem get?_free_self : (h.free r).get? r = none := by
  rw [get?, free_cell, if_pos rfl]
  cases h[r]? <;> rfl

theorem get?_free_of_ne (hr : r ≠ r') : (h.free r).get? r' = h.get? r' := by
  rw [get?, get?, free_cell, if_neg hr]

theorem get?_alloc_self : (h.alloc a).get? h.length = some a := by
  rw [get?_eq_some, alloc, List.getElem?_append_right (Nat.le_refl _), Nat.sub_self]
  rfl

theorem get?_alloc_of_lt (hr : r < h.length) : (h.alloc a).get? r = h.get? r := by
  rw [get?, get?, alloc, List.getElem?_append_left hr]

theorem get?_alloc (hr : (h.alloc a).get? r = some b) :
    h.get? r = some b ∨ r = h.length ∧ b = a := by
  rcases Nat.lt_trichotomy r h.length with hlt | rfl | hgt
  · rw [get?_alloc_of_lt hlt] at hr
    exact .inl hr
  · rw [get?_alloc_self] at hr
    exact .inr ⟨rfl, (Option.some.inj hr).symm⟩
  · rw [get?_eq_some, alloc, List.getElem?_eq_none (by simp; omega)] at hr
    cases hr

theorem OneLive.put (ho : h.OneLive r a) : (h.put r b).OneLive r b := by
  refine ⟨get?_put ho.get, fun r' b' hr' => ?_⟩
  by_cases hne : r = r'
  · exact hne.symm
  · rw [get?_put_of_ne hne] at hr'
    exact ho.only r' b' hr'

theorem OneLive.free (ho : h.OneLive r a) : (h.free r).NoLive := by
  intro r'
  by_cases hne : r = r'
  · subst hne
    exact get?_free_self
  · rw [get?_free_of_ne hne]
    by_contra hsome
    obtain ⟨b, hb⟩ := Option.ne_none_iff_exists'.mp hsome
    exact hne (ho.only r' b hb).symm

theorem NoLive.alloc (hn : h.NoLive) (a : α) : (h.alloc a).OneLive h.length a := by
  refine ⟨get?_alloc_self, fun r' b hr' => ?_⟩
  rcases get?_alloc hr' with hold | ⟨hr, -⟩
  · rw [hn r'] at hold
    cases hold
  · exact hr

theorem OneLive.eq (ho : h.OneLive r a) (hr : h.get? r' = some b) : r' = r ∧ b = a := by
  obtain rfl := ho.only r' b hr
  rw [ho.get] at hr
  exact ⟨rfl, (Option.some.inj hr).symm⟩

variable {p : α → Prop}

theorem Freed.put (hf : Freed p h) (hr : h.get? r = some a) (b : α) : Freed p (h.put r b) := by
  intro r' a' hcell
  rw [put_cell] at hcell
  split at hcell
  · rename_i hrr
    subst hrr
    rw [get?_eq_some.mp hr] at hcell
    cases hcell
  · exact hf r' a' hcell

theorem Freed.free (hf : Freed p h) (hr : h.get? r = some a) (ha : p a) :
    Freed p (h.free r) := by
  intro r' a' hcell
  rw [free_cell] at hcell
  split at hcell
  · rename_i hrr
    subst hrr
    rw [get?_eq_some.mp hr] at hcell
    cases hcell
    exact ha
  · exact hf r' a' hcell

theorem Freed.alloc (hf : Freed p h) (a : α) : Freed p (h.alloc a) := by
  intro r a' hcell
  rcases Nat.lt_trichotomy r h.length with hlt | rfl | hgt
  · rw [Arena.alloc, List.getElem?_append_left hlt] at hcell
    exact hf r a' hcell
  · rw [Arena.alloc, List.getElem?_append_right (Nat.le_refl _), Nat.sub_self] at hcell
    cases hcell
  · rw [Arena.alloc, List.getElem?_eq_none (by simp; omega)] at hcell
    cases hcell

end Arena
