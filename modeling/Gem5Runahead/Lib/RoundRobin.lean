import Mathlib.Algebra.BigOperators.Group.List.Basic
import Mathlib.Algebra.Ring.Nat
import Mathlib.Logic.Function.Basic
import Mathlib.Tactic.Common

/-!
# Lib.RoundRobin

Queues served in turn, one element at a time. A pointer goes round a list of queues, and the list
is written from the pointer on: a move of the pointer takes the first queue of the list to its
back. Queues that are not ready or empty are passed over. The loop counts what is left in the ready
queues and what it may still take, and ends when one of the two counts is zero.

* `serve` — the loop.
* `serve_spec` — what it takes and leaves; `serve_total` — it ends.
-/

namespace RoundRobin

variable {ι α : Type*}

def Idle (ready : ι → Bool) (q : ι → List α) (t : ι) : Prop := ready t = false ∨ q t = []

/-- The elements in the ready queues. -/
def available (ready : ι → Bool) (q : ι → List α) (order : List ι) : Nat :=
  ((order.filter ready).map fun t => (q t).length).sum

section Available

variable {ready : ι → Bool} {q : ι → List α} {order : List ι} {t : ι}

theorem available_perm {order' : List ι} (h : order.Perm order') :
    available ready q order = available ready q order' :=
  ((h.filter ready).map _).sum_eq

theorem available_pos_ne_idle (h : 0 < available ready q order) :
    ∃ pre t post, order = pre ++ t :: post ∧ (∀ u ∈ pre, Idle ready q u) ∧ ¬Idle ready q t := by
  induction order with
  | nil => simp [available] at h
  | cons u order ih =>
    by_cases hu : Idle ready q u
    · have hrest : 0 < available ready q order := by
        rcases hu with hready | hempty
        · simpa [available, List.filter_cons, hready] using h
        · by_cases hready : ready u = true
          · simpa [available, List.filter_cons, hready, hempty] using h
          · simpa [available, List.filter_cons, hready] using h
      obtain ⟨pre, t, post, rfl, hpre, ht⟩ := ih hrest
      refine ⟨u :: pre, t, post, rfl, ?_, ht⟩
      intro v hv
      rcases List.mem_cons.mp hv with rfl | hv
      · exact hu
      · exact hpre v hv
    · exact ⟨[], u, order, rfl, by simp, hu⟩

theorem not_idle (h : ¬Idle ready q t) : ready t = true ∧ ∃ a as, q t = a :: as := by
  obtain ⟨hready, hq⟩ := not_or.mp h
  exact ⟨by simpa using hready, List.exists_cons_of_ne_nil hq⟩

end Available

section Serve

variable [DecidableEq ι]

/-- `none` stands for a loop that has not ended after `fuel` tests of its condition. -/
def serve (ready : ι → Bool) :
    Nat → List ι → Nat → Nat → (ι → List α) → Option (List (ι × α) × (ι → List α))
  | 0, _, _, _, _ => none
  | fuel + 1, order, available, budget, q =>
    if available = 0 ∨ budget = 0 then some ([], q)
    else
      match order with
      | [] => none
      | t :: rest =>
        match if ready t then q t else [] with
        | [] => serve ready fuel (rest ++ [t]) available budget q
        | a :: as =>
          (serve ready fuel (rest ++ [t]) (available - 1) (budget - 1)
            (Function.update q t as)).map fun r => ((t, a) :: r.1, r.2)

/-- What was taken from the queue `t`. -/
def ofQueue (t : ι) (l : List (ι × α)) : List α :=
  (l.filter fun x => x.1 = t).map Prod.snd

variable {ready : ι → Bool} {q q' : ι → List α} {order pre post : List ι} {t : ι} {a : α}
  {as : List α} {fuel n budget : Nat} {l : List (ι × α)}

theorem serve_end (h : n = 0 ∨ budget = 0) :
    serve ready (fuel + 1) order n budget q = some ([], q) := by
  unfold serve
  exact if_pos h

theorem serve_idle (h : ¬(n = 0 ∨ budget = 0)) (ht : Idle ready q t) :
    serve ready (fuel + 1) (t :: post) n budget q =
      serve ready fuel (post ++ [t]) n budget q := by
  have hfront : (if ready t then q t else []) = [] := by
    rcases ht with hready | hempty
    · rw [hready, if_neg Bool.false_ne_true]
    · rw [hempty, ite_self]
  simp only [serve, if_neg h, hfront]

theorem serve_take (h : ¬(n = 0 ∨ budget = 0)) (hready : ready t = true) (hq : q t = a :: as) :
    serve ready (fuel + 1) (t :: post) n budget q =
      (serve ready fuel (post ++ [t]) (n - 1) (budget - 1) (Function.update q t as)).map
        fun r => ((t, a) :: r.1, r.2) := by
  simp only [serve, if_neg h, hready, hq, if_true]

/-- The pointer passes over idle queues. -/
theorem serve_skip (h : ¬(n = 0 ∨ budget = 0)) (hpre : ∀ t ∈ pre, Idle ready q t) :
    serve ready (fuel + pre.length) (pre ++ post) n budget q =
      serve ready fuel (post ++ pre) n budget q := by
  induction pre generalizing post with
  | nil => simp
  | cons t pre ih =>
    have hrest := @ih (post ++ [t]) fun u hu => hpre u (List.mem_cons_of_mem t hu)
    rw [List.append_assoc, List.singleton_append] at hrest
    rw [List.cons_append, List.length_cons, ← Nat.add_assoc,
      serve_idle h (hpre t List.mem_cons_self), List.append_assoc, hrest]

/-- Taking one element leaves one less. -/
theorem available_take (hnodup : (t :: post).Nodup) (hready : ready t = true)
    (hq : q t = a :: as) :
    available ready (Function.update q t as) (post ++ [t]) + 1 =
      available ready q (t :: post) := by
  obtain ⟨hmem, -⟩ := List.nodup_cons.mp hnodup
  have hpost : ((post.filter ready).map fun u => (Function.update q t as u).length) =
      (post.filter ready).map fun u => (q u).length := by
    refine List.map_congr_left fun u hu => ?_
    have hne : u ≠ t := fun h => hmem (h ▸ (List.mem_filter.mp hu).1)
    rw [Function.update_of_ne hne]
  rw [available_perm List.perm_append_comm, List.singleton_append]
  simp only [available, List.filter_cons_of_pos hready, List.map_cons, List.sum_cons, hpost, hq,
    Function.update_self, List.length_cons]
  omega

theorem serve_succ {r : List (ι × α) × (ι → List α)}
    (h : serve ready fuel order n budget q = some r) :
    serve ready (fuel + 1) order n budget q = some r := by
  induction fuel generalizing order n budget q r with
  | zero => cases h
  | succ fuel ih =>
    by_cases hend : n = 0 ∨ budget = 0
    · rw [serve_end hend] at h ⊢
      exact h
    cases order with
    | nil =>
      rw [serve, if_neg hend] at h
      cases h
    | cons t rest =>
      by_cases ht : Idle ready q t
      · rw [serve_idle hend ht] at h ⊢
        exact ih h
      · obtain ⟨hready, a, as, hq⟩ := not_idle ht
        rw [serve_take hend hready hq] at h ⊢
        obtain ⟨r', hr, rfl⟩ := Option.map_eq_some_iff.mp h
        rw [ih hr, Option.map_some]

/-- More fuel changes nothing. -/
theorem serve_mono {r : List (ι × α) × (ι → List α)} {fuel' : Nat} (hle : fuel ≤ fuel')
    (h : serve ready fuel order n budget q = some r) :
    serve ready fuel' order n budget q = some r := by
  induction hle with
  | refl => exact h
  | step _ ih => exact serve_succ ih

/-- The loop ends: within one round of the pointer it takes an element, as long as one is left. -/
theorem serve_total (hnodup : order.Nodup) (hn : n = available ready q order)
    (hfuel : n * order.length < fuel) : ∃ r, serve ready fuel order n budget q = some r := by
  induction n generalizing order budget q fuel with
  | zero =>
    obtain ⟨fuel, rfl⟩ := Nat.exists_eq_add_of_lt hfuel
    exact ⟨_, serve_end (.inl rfl)⟩
  | succ n ih =>
    by_cases hb : budget = 0
    · obtain ⟨fuel, rfl⟩ : ∃ k, fuel = k + 1 := ⟨fuel - 1, by omega⟩
      exact ⟨_, serve_end (.inr hb)⟩
    obtain ⟨pre, t, post, rfl, hpre, ht⟩ :=
      @available_pos_ne_idle _ _ ready q order (by omega)
    obtain ⟨hready, a, as, hq⟩ := not_idle ht
    have hgo : ¬(n + 1 = 0 ∨ budget = 0) := by omega
    have hperm : (pre ++ t :: post).Perm (t :: post ++ pre) := List.perm_append_comm
    have hnodup' := hperm.nodup_iff.mp hnodup
    rw [List.cons_append] at hnodup'
    have hlen : (pre ++ t :: post).length = pre.length + (post.length + 1) := by simp
    rw [hlen, Nat.add_one_mul] at hfuel
    obtain ⟨k, rfl⟩ : ∃ k, fuel = k + 1 + pre.length := ⟨fuel - 1 - pre.length, by omega⟩
    rw [serve_skip hgo hpre, List.cons_append, serve_take hgo hready hq]
    have havail : n = available ready (Function.update q t as) (post ++ pre ++ [t]) := by
      have htake := available_take hnodup' hready hq
      have hsame := @available_perm _ _ ready q _ _ hperm
      rw [List.cons_append] at hsame
      omega
    obtain ⟨r, hr⟩ := @ih _ _ k (budget - 1)
      ((List.perm_append_singleton t (post ++ pre)).nodup_iff.mpr hnodup') havail (by
        have : (post ++ pre ++ [t]).length = pre.length + (post.length + 1) := by
          simp only [List.length_append, List.length_singleton]
          omega
        rw [this]
        omega)
    rw [Nat.add_sub_cancel, hr]
    exact ⟨_, rfl⟩

theorem ofQueue_cons_self : ofQueue t ((t, a) :: l) = a :: ofQueue t l := by
  simp [ofQueue]

theorem ofQueue_cons_of_ne {u : ι} (h : u ≠ t) : ofQueue t ((u, a) :: l) = ofQueue t l := by
  simp [ofQueue, h]

theorem mem_ofQueue : a ∈ ofQueue t l ↔ (t, a) ∈ l := by
  simp [ofQueue]

/-- Elements that tell their queue are taken once if no queue holds one twice. -/
theorem map_snd_nodup {f : α → ι} (hf : ∀ x ∈ l, f x.2 = x.1) (hl : ∀ t, (ofQueue t l).Nodup) :
    (l.map Prod.snd).Nodup := by
  induction l with
  | nil => exact List.nodup_nil
  | cons x l ih =>
    obtain ⟨t, a⟩ := x
    have htail : ∀ u, (ofQueue u l).Nodup := by
      intro u
      by_cases hu : t = u
      · have hcons := hl u
        rw [← hu, ofQueue_cons_self] at hcons
        exact hu ▸ (List.nodup_cons.mp hcons).2
      · rw [← ofQueue_cons_of_ne hu]
        exact hl u
    refine List.nodup_cons.mpr ⟨fun hmem => ?_, ih (fun x hx => hf x (by simp [hx])) htail⟩
    obtain ⟨⟨u, b⟩, hx, hb⟩ := List.mem_map.mp hmem
    obtain rfl : b = a := hb
    have hu : f b = u := hf (u, b) (List.mem_cons_of_mem _ hx)
    have ht : f b = t := hf (t, b) List.mem_cons_self
    obtain rfl : u = t := hu.symm.trans ht
    have hcons := hl u
    rw [ofQueue_cons_self] at hcons
    exact (List.nodup_cons.mp hcons).1 (mem_ofQueue.mpr hx)

/-- What a loop that has ended has done: it has taken from the fronts of ready queues, as many
elements as there were, or as many as it might. -/
structure Served (ready : ι → Bool) (order : List ι) (n budget : Nat) (q : ι → List α)
    (l : List (ι × α)) (q' : ι → List α) : Prop where
  queue : ∀ t, q t = ofQueue t l ++ q' t
  ready : ∀ x ∈ l, x.1 ∈ order ∧ ready x.1 = true
  length : l.length = min n budget

theorem serve_spec (hnodup : order.Nodup) (hn : n = available ready q order)
    (h : serve ready fuel order n budget q = some (l, q')) :
    Served ready order n budget q l q' := by
  induction fuel generalizing order n budget q l q' with
  | zero => cases h
  | succ fuel ih =>
    by_cases hend : n = 0 ∨ budget = 0
    · rw [serve_end hend] at h
      obtain ⟨rfl, rfl⟩ := Prod.mk.inj (Option.some.inj h)
      refine ⟨fun _ => rfl, by simp, ?_⟩
      rw [List.length_nil]
      omega
    cases order with
    | nil =>
      rw [serve, if_neg hend] at h
      cases h
    | cons t rest =>
      have hperm : (rest ++ [t]).Perm (t :: rest) := List.perm_append_singleton t rest
      have hnodup' := hperm.nodup_iff.mpr hnodup
      by_cases ht : Idle ready q t
      · rw [serve_idle hend ht] at h
        obtain ⟨hqueue, hready, hlength⟩ :=
          ih hnodup' (hn.trans (available_perm hperm.symm)) h
        exact ⟨hqueue, fun x hx => ⟨hperm.mem_iff.mp (hready x hx).1, (hready x hx).2⟩, hlength⟩
      · obtain ⟨hready, a, as, hq⟩ := not_idle ht
        rw [serve_take hend hready hq] at h
        obtain ⟨⟨l, q''⟩, hr, heq⟩ := Option.map_eq_some_iff.mp h
        obtain ⟨rfl, rfl⟩ := Prod.mk.inj heq
        have htake := available_take hnodup hready hq
        obtain ⟨hqueue, hreadys, hlength⟩ := ih hnodup' (by omega) hr
        refine ⟨fun u => ?_, fun x hx => ?_, ?_⟩
        · have hu := hqueue u
          by_cases hut : u = t
          · subst hut
            rw [Function.update_self] at hu
            rw [hq, ofQueue_cons_self, hu, List.cons_append]
          · rw [Function.update_of_ne hut] at hu
            rw [ofQueue_cons_of_ne (Ne.symm hut), hu]
        · rcases List.mem_cons.mp hx with rfl | hx
          · exact ⟨List.mem_cons_self, hready⟩
          · exact ⟨hperm.mem_iff.mp (hreadys x hx).1, (hreadys x hx).2⟩
        · rw [List.length_cons, hlength]
          omega

end Serve
end RoundRobin
