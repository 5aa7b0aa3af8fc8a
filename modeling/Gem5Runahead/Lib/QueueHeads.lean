import Mathlib.Data.List.Sort
import Mathlib.Data.Set.Basic
import Mathlib.Tactic.Common

/-!
# Lib.QueueHeads

A list of the heads of a family of sorted queues, the least head first. Every queue of the classes
that are covered has an entry, if it is not empty.

* `QueueHeads` — the list is right for the classes of a set.
* `remove`, `unlisted`, `change`, `insert`, `close` — a class leaves the set and comes back.
* `le_of_mem` — what comes after an entry is not less than its head.
* `pairwise_orderedInsert` — an entry that is put where it belongs keeps the list ordered.
-/

structure QueueHeads {κ α ε : Type*} [LinearOrder α] (cls : ε → κ) (head : ε → α) (s : Set κ)
    (queue : κ → List α) (order : List ε) : Prop where
  sorted : ∀ c, (queue c).Pairwise (· ≤ ·)
  nodup : (order.map cls).Nodup
  ordered : order.Pairwise (head · ≤ head ·)
  covered : ∀ e ∈ order, cls e ∈ s
  top : ∀ e ∈ order, (queue (cls e)).head? = some (head e)
  listed : ∀ c ∈ s, queue c ≠ [] → c ∈ order.map cls

namespace QueueHeads

variable {κ α ε : Type*} [LinearOrder α] {cls : ε → κ} {head : ε → α} {s : Set κ}
  {queue : κ → List α} {order order' passed rest : List ε} {c : κ} {e : ε} {a : α} {l : List α}

theorem empty : QueueHeads cls head Set.univ (fun _ => ([] : List α)) [] :=
  ⟨fun _ => .nil, .nil, .nil, fun _ h => absurd h List.not_mem_nil,
    fun _ h => absurd h List.not_mem_nil, fun _ _ h => absurd rfl h⟩

theorem head_cons (h : QueueHeads cls head s queue order) (he : e ∈ order) :
    ∃ q, queue (cls e) = head e :: q :=
  ⟨_, (List.cons_head?_tail (h.top e he)).symm⟩

/-- The classes from an entry on have nothing that is less than the head of the entry. -/
theorem le_of_mem (h : QueueHeads cls head s queue (passed ++ e :: rest)) {e' : ε}
    (he' : e' ∈ e :: rest) (ha : a ∈ queue (cls e')) : head e ≤ a := by
  have hle : head e ≤ head e' := by
    have hrest := (List.pairwise_append.mp h.ordered).2.1
    rcases List.mem_cons.mp he' with rfl | he'
    · exact le_refl _
    · exact (List.pairwise_cons.mp hrest).1 e' he'
  obtain ⟨q, hq⟩ := h.head_cons (List.mem_append_right passed he')
  have hsorted := h.sorted (cls e')
  rw [hq] at ha hsorted
  refine hle.trans ?_
  rcases List.mem_cons.mp ha with rfl | ha
  · exact le_refl _
  · exact (List.pairwise_cons.mp hsorted).1 a ha

theorem remove (h : QueueHeads cls head s queue (passed ++ e :: rest)) :
    QueueHeads cls head (s \ {cls e}) queue (passed ++ rest) := by
  have hsub : List.Sublist (passed ++ rest) (passed ++ e :: rest) :=
    (List.sublist_cons_self e rest).append_left passed
  have hperm : (passed ++ e :: rest).Perm (e :: (passed ++ rest)) := List.perm_middle
  have hnodup := ((hperm.map cls).nodup_iff).mp h.nodup
  rw [List.map_cons, List.nodup_cons] at hnodup
  refine ⟨h.sorted, hnodup.2, h.ordered.sublist hsub, fun e' he' => ?_,
    fun e' he' => h.top e' (hsub.subset he'), fun c hc hne => ?_⟩
  · refine ⟨h.covered e' (hsub.subset he'), fun heq => hnodup.1 ?_⟩
    exact List.mem_map.mpr ⟨e', he', heq⟩
  · have hmem := (hperm.map cls).mem_iff.mp (h.listed c hc.1 hne)
    rcases List.mem_cons.mp hmem with heq | hmem
    · exact absurd heq hc.2
    · exact hmem

/-- A class with an empty queue has no entry. -/
theorem unlisted (h : QueueHeads cls head s queue order) (hc : queue c = []) :
    QueueHeads cls head (s \ {c}) queue order := by
  refine ⟨h.sorted, h.nodup, h.ordered, fun e he => ⟨h.covered e he, fun heq => ?_⟩, h.top,
    fun d hd => h.listed d hd.1⟩
  have htop := h.top e he
  rw [heq, hc] at htop
  cases htop

theorem change [DecidableEq κ] (h : QueueHeads cls head (s \ {c}) queue order)
    (hl : l.Pairwise (· ≤ ·)) :
    QueueHeads cls head (s \ {c}) (Function.update queue c l) order := by
  have hother : ∀ d ∈ s \ {c}, Function.update queue c l d = queue d :=
    fun d hd => Function.update_of_ne hd.2 ..
  refine ⟨fun d => ?_, h.nodup, h.ordered, h.covered, fun e he => ?_, fun d hd hne => ?_⟩
  · by_cases hd : d = c
    · subst hd
      simpa using hl
    · rw [Function.update_of_ne hd]
      exact h.sorted d
  · rw [hother _ (h.covered e he)]
    exact h.top e he
  · rw [hother d hd] at hne
    exact h.listed d hd hne

theorem insert (h : QueueHeads cls head (s \ {cls e}) queue order) (he : cls e ∈ s)
    (htop : (queue (cls e)).head? = some (head e)) (hperm : order'.Perm (e :: order))
    (hordered : order'.Pairwise (head · ≤ head ·)) : QueueHeads cls head s queue order' := by
  refine ⟨h.sorted, ?_, hordered, fun e' he' => ?_, fun e' he' => ?_, fun c hc hne => ?_⟩
  · rw [(hperm.map cls).nodup_iff, List.map_cons, List.nodup_cons]
    refine ⟨fun hmem => ?_, h.nodup⟩
    obtain ⟨e', he', heq⟩ := List.mem_map.mp hmem
    exact (h.covered e' he').2 heq
  · rcases List.mem_cons.mp (hperm.mem_iff.mp he') with rfl | he'
    · exact he
    · exact (h.covered e' he').1
  · rcases List.mem_cons.mp (hperm.mem_iff.mp he') with rfl | he'
    · exact htop
    · exact h.top e' he'
  · rw [(hperm.map cls).mem_iff, List.map_cons, List.mem_cons]
    by_cases heq : c = cls e
    · exact .inl heq
    · exact .inr (h.listed c ⟨hc, heq⟩ hne)

/-- A class comes back with an empty queue. -/
theorem close (h : QueueHeads cls head (s \ {c}) queue order) (hc : queue c = []) :
    QueueHeads cls head s queue order := by
  refine ⟨h.sorted, h.nodup, h.ordered, fun e he => (h.covered e he).1, h.top,
    fun d hd hne => h.listed d ⟨hd, ?_⟩ hne⟩
  rintro rfl
  exact hne hc

end QueueHeads

section Ordered

variable {α ε : Type*} [LinearOrder α] {head : ε → α} {r : ε → ε → Prop} [DecidableRel r]
  {e : ε} {l passed : List ε}

theorem pairwise_orderedInsert (hle : ∀ x, r e x → head e ≤ head x)
    (hge : ∀ x, ¬ r e x → head x ≤ head e) (hl : l.Pairwise (head · ≤ head ·)) :
    (l.orderedInsert r e).Pairwise (head · ≤ head ·) := by
  induction l with
  | nil => exact List.pairwise_singleton _ _
  | cons x l ih =>
    rw [List.pairwise_cons] at hl
    rw [List.orderedInsert_cons]
    split
    · rename_i hr
      refine List.pairwise_cons.mpr ⟨fun y hy => ?_, List.pairwise_cons.mpr hl⟩
      rcases List.mem_cons.mp hy with rfl | hy
      · exact hle y hr
      · exact (hle x hr).trans (hl.1 y hy)
    · rename_i hr
      refine List.pairwise_cons.mpr ⟨fun y hy => ?_, ih hl.2⟩
      rcases List.mem_cons.mp ((List.perm_orderedInsert r e l).mem_iff.mp hy) with rfl | hy
      · exact hge x hr
      · exact hl.1 y hy

/-- The same after a part of the list that is passed by. -/
theorem pairwise_append_orderedInsert (hle : ∀ x, r e x → head e ≤ head x)
    (hge : ∀ x, ¬ r e x → head x ≤ head e) (hl : (passed ++ l).Pairwise (head · ≤ head ·))
    (hpassed : ∀ x ∈ passed, head x ≤ head e) :
    (passed ++ l.orderedInsert r e).Pairwise (head · ≤ head ·) := by
  obtain ⟨hp, hrest, hall⟩ := List.pairwise_append.mp hl
  refine List.pairwise_append.mpr ⟨hp, pairwise_orderedInsert hle hge hrest, fun x hx y hy => ?_⟩
  rcases List.mem_cons.mp ((List.perm_orderedInsert r e l).mem_iff.mp hy) with rfl | hy
  · exact hpassed x hx
  · exact hall x hx y hy

end Ordered
