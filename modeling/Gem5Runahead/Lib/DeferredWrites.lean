import Mathlib.Data.List.Induction
import Mathlib.Data.List.Nodup
import Mathlib.Tactic.Common

/-!
# Lib.DeferredWrites

Keyed writes that are recorded first and performed later. A record holds one write per key, in
the order in which the keys came up; it can keep the first value called for or the last one.

* `keepsLast_iff` — the record that replaces values is the only one that keeps the last.
* `perform_of_keepsLast` — performing such a record is performing all the calls.
* `keepsLast_keepFirst_iff` — when keeping the first value is as good.
-/

namespace DeferredWrites

variable {κ β σ : Type*} [DecidableEq κ] {calls dest : List (κ × β)} {call : κ × β} {k : κ}

section Record

def firstValue (calls : List (κ × β)) (k : κ) : Option β := (calls.find? (·.1 = k)).map Prod.snd

def lastValue (calls : List (κ × β)) (k : κ) : Option β :=
  (calls.reverse.find? (·.1 = k)).map Prod.snd

/-- Records a call unless there is one to its key. -/
def keepFirst (dest : List (κ × β)) (call : κ × β) : List (κ × β) :=
  if call.1 ∈ dest.map Prod.fst then dest else dest ++ [call]

/-- Records a call in the place of the one to its key, if there is one. -/
def upsert (dest : List (κ × β)) (call : κ × β) : List (κ × β) :=
  if call.1 ∈ dest.map Prod.fst then dest.map fun d => if d.1 = call.1 then call else d
  else dest ++ [call]

/-- One write per key, in order of first occurrence, each with the last value called for. -/
def KeepsLast (calls writes : List (κ × β)) : Prop :=
  writes.map Prod.fst = (calls.map Prod.fst).eraseDups ∧
    ∀ w ∈ writes, lastValue calls w.1 = some w.2

theorem firstValue_concat : firstValue (calls ++ [call]) k =
    (firstValue calls k).or (if call.1 = k then some call.2 else none) := by
  simp only [firstValue, List.find?_append, List.find?_singleton]
  cases calls.find? (·.1 = k) with
  | some w => rfl
  | none => by_cases h : call.1 = k <;> simp [h]

theorem lastValue_concat : lastValue (calls ++ [call]) k =
    if call.1 = k then some call.2 else lastValue calls k := by
  simp only [lastValue, List.reverse_append, List.reverse_singleton, List.singleton_append,
    List.find?_cons]
  by_cases h : call.1 = k <;> simp [h]

theorem firstValue_eq_none_iff : firstValue calls k = none ↔ k ∉ calls.map Prod.fst := by
  simp only [firstValue, Option.map_eq_none_iff, List.find?_eq_none, List.mem_map,
    decide_eq_true_eq, not_exists, not_and]

theorem lastValue_eq_none_iff : lastValue calls k = none ↔ k ∉ calls.map Prod.fst := by
  simp only [lastValue, Option.map_eq_none_iff, List.find?_eq_none, List.mem_reverse, List.mem_map,
    decide_eq_true_eq, not_exists, not_and]

theorem map_fst_keepFirst : (keepFirst dest call).map Prod.fst =
    if call.1 ∈ dest.map Prod.fst then dest.map Prod.fst else dest.map Prod.fst ++ [call.1] := by
  unfold keepFirst
  by_cases h : call.1 ∈ dest.map Prod.fst
  · rw [if_pos h, if_pos h]
  · rw [if_neg h, if_neg h, List.map_append, List.map_singleton]

theorem map_fst_upsert : (upsert dest call).map Prod.fst =
    if call.1 ∈ dest.map Prod.fst then dest.map Prod.fst else dest.map Prod.fst ++ [call.1] := by
  unfold upsert
  by_cases h : call.1 ∈ dest.map Prod.fst
  · rw [if_pos h, if_pos h, List.map_map]
    refine List.map_congr_left fun d _ => ?_
    by_cases hd : d.1 = call.1
    · simp [hd]
    · simp [hd]
  · rw [if_neg h, if_neg h, List.map_append, List.map_singleton]

theorem eraseDups_concat (l : List κ) (k : κ) :
    (l ++ [k]).eraseDups = if k ∈ l.eraseDups then l.eraseDups else l.eraseDups ++ [k] := by
  rw [List.eraseDups_append]
  by_cases h : k ∈ l
  · simp [List.removeAll, h]
  · simp [List.removeAll, h, List.eraseDups_cons]

theorem nodup_eraseDups (l : List κ) : l.eraseDups.Nodup := by
  induction l using List.reverseRecOn with
  | nil => exact List.nodup_nil
  | append_singleton l k ih =>
    rw [eraseDups_concat]
    by_cases h : k ∈ l.eraseDups
    · rw [if_pos h]
      exact ih
    · rw [if_neg h]
      exact List.concat_eq_append ▸ ih.concat h

theorem map_fst_foldl_keepFirst :
    (calls.foldl keepFirst []).map Prod.fst = (calls.map Prod.fst).eraseDups := by
  induction calls using List.reverseRecOn with
  | nil => rfl
  | append_singleton calls call ih =>
    rw [List.foldl_append, List.foldl_cons, List.foldl_nil, map_fst_keepFirst, ih,
      List.map_append, List.map_singleton, eraseDups_concat]

theorem map_fst_foldl_upsert :
    (calls.foldl upsert []).map Prod.fst = (calls.map Prod.fst).eraseDups := by
  induction calls using List.reverseRecOn with
  | nil => rfl
  | append_singleton calls call ih =>
    rw [List.foldl_append, List.foldl_cons, List.foldl_nil, map_fst_upsert, ih,
      List.map_append, List.map_singleton, eraseDups_concat]

theorem firstValue_of_mem_foldl_keepFirst :
    ∀ w ∈ calls.foldl keepFirst [], firstValue calls w.1 = some w.2 := by
  induction calls using List.reverseRecOn with
  | nil => intro w hw; cases hw
  | append_singleton calls call ih =>
    intro w hw
    rw [List.foldl_append, List.foldl_cons, List.foldl_nil, keepFirst] at hw
    rw [firstValue_concat]
    by_cases hc : call.1 ∈ (calls.foldl keepFirst []).map Prod.fst
    · rw [if_pos hc] at hw
      rw [ih w hw, Option.some_or]
    · rw [if_neg hc, List.mem_append, List.mem_singleton] at hw
      obtain hw | rfl := hw
      · rw [ih w hw, Option.some_or]
      · rw [map_fst_foldl_keepFirst, List.mem_eraseDups] at hc
        rw [firstValue_eq_none_iff.mpr hc, Option.none_or, if_pos rfl]

theorem lastValue_of_mem_foldl_upsert :
    ∀ w ∈ calls.foldl upsert [], lastValue calls w.1 = some w.2 := by
  induction calls using List.reverseRecOn with
  | nil => intro w hw; cases hw
  | append_singleton calls call ih =>
    intro w hw
    rw [List.foldl_append, List.foldl_cons, List.foldl_nil, upsert] at hw
    rw [lastValue_concat]
    by_cases hc : call.1 ∈ (calls.foldl upsert []).map Prod.fst
    · rw [if_pos hc, List.mem_map] at hw
      obtain ⟨d, hd, rfl⟩ := hw
      by_cases hk : d.1 = call.1
      · rw [if_pos hk, if_pos rfl]
      · rw [if_neg hk, if_neg (Ne.symm hk), ih d hd]
    · rw [if_neg hc, List.mem_append, List.mem_singleton] at hw
      obtain hw | rfl := hw
      · have hne : call.1 ≠ w.1 := fun h => hc (h ▸ List.mem_map_of_mem hw)
        rw [if_neg hne, ih w hw]
      · rw [if_pos rfl]

omit [DecidableEq κ] in
/-- A list of writes is given by its keys and what each of them is mapped to. -/
theorem eq_of_map_fst {f : κ → Option β} {l l' : List (κ × β)}
    (hkeys : l.map Prod.fst = l'.map Prod.fst) (hl : ∀ w ∈ l, f w.1 = some w.2)
    (hl' : ∀ w ∈ l', f w.1 = some w.2) : l = l' := by
  induction l generalizing l' with
  | nil =>
    cases l' with
    | nil => rfl
    | cons w' l' => cases hkeys
  | cons w l ih =>
    cases l' with
    | nil => cases hkeys
    | cons w' l' =>
      rw [List.map_cons, List.map_cons, List.cons.injEq] at hkeys
      have hval : some w.2 = some w'.2 := by
        rw [← hl w List.mem_cons_self, ← hl' w' List.mem_cons_self, hkeys.1]
      rw [Prod.ext hkeys.1 (Option.some.inj hval),
        ih hkeys.2 (fun x hx => hl x (List.mem_cons_of_mem _ hx))
          fun x hx => hl' x (List.mem_cons_of_mem _ hx)]

theorem keepsLast_iff {writes : List (κ × β)} :
    KeepsLast calls writes ↔ writes = calls.foldl upsert [] := by
  constructor
  · rintro ⟨hkeys, hlast⟩
    exact eq_of_map_fst (hkeys.trans map_fst_foldl_upsert.symm) hlast lastValue_of_mem_foldl_upsert
  · rintro rfl
    exact ⟨map_fst_foldl_upsert, lastValue_of_mem_foldl_upsert⟩

theorem keepsLast_keepFirst_iff :
    KeepsLast calls (calls.foldl keepFirst []) ↔ ∀ k, firstValue calls k = lastValue calls k := by
  constructor
  · rintro ⟨hkeys, hlast⟩ k
    by_cases hk : k ∈ calls.map Prod.fst
    · rw [← List.mem_eraseDups, ← hkeys, List.mem_map] at hk
      obtain ⟨w, hw, rfl⟩ := hk
      rw [hlast w hw, firstValue_of_mem_foldl_keepFirst w hw]
    · rw [firstValue_eq_none_iff.mpr hk, lastValue_eq_none_iff.mpr hk]
  · intro h
    refine ⟨map_fst_foldl_keepFirst, fun w hw => ?_⟩
    rw [← h, firstValue_of_mem_foldl_keepFirst w hw]

end Record

section Perform

/-- The writes are performed in order. -/
def perform (set : σ → κ → β → σ) (m : σ) (writes : List (κ × β)) : σ :=
  writes.foldl (fun m w => set m w.1 w.2) m

/-- A write undoes the one before it to the same key, and does not interfere with other keys. -/
structure Overwrites (set : σ → κ → β → σ) : Prop where
  again : ∀ m k a b, set (set m k a) k b = set m k b
  comm : ∀ m k a k' b, k ≠ k' → set (set m k a) k' b = set (set m k' b) k a

variable {set : σ → κ → β → σ} (hset : Overwrites set)
include hset

omit [DecidableEq κ] in
theorem perform_set_comm {v : β} (hk : k ∉ dest.map Prod.fst) (m : σ) :
    perform set (set m k v) dest = set (perform set m dest) k v := by
  induction dest generalizing m with
  | nil => rfl
  | cons d dest ih =>
    rw [List.map_cons, List.mem_cons, not_or] at hk
    show perform set (set (set m k v) d.1 d.2) dest = set (perform set (set m d.1 d.2) dest) k v
    rw [hset.comm _ _ _ _ _ hk.1, ih hk.2]

theorem perform_replace (hnodup : (dest.map Prod.fst).Nodup) (hk : call.1 ∈ dest.map Prod.fst)
    (m : σ) : perform set m (dest.map fun d => if d.1 = call.1 then call else d) =
      set (perform set m dest) call.1 call.2 := by
  induction dest generalizing m with
  | nil => cases hk
  | cons d dest ih =>
    rw [List.map_cons, List.nodup_cons] at hnodup
    rw [List.map_cons]
    by_cases hd : d.1 = call.1
    · rw [if_pos hd]
      have hrest : (dest.map fun d => if d.1 = call.1 then call else d) = dest := by
        refine (List.map_congr_left fun e he => if_neg fun h => ?_).trans (List.map_id dest)
        exact hnodup.1 (hd ▸ h ▸ List.mem_map_of_mem he)
      have hnot : call.1 ∉ dest.map Prod.fst := hd ▸ hnodup.1
      show perform set (set m call.1 call.2) (dest.map _) =
        set (perform set (set m d.1 d.2) dest) call.1 call.2
      rw [hrest, hd, perform_set_comm hset hnot, perform_set_comm hset hnot, hset.again]
    · rw [if_neg hd]
      rw [List.map_cons, List.mem_cons] at hk
      exact ih hnodup.2 (hk.resolve_left (Ne.symm hd)) (set m d.1 d.2)

theorem perform_upsert (hnodup : (dest.map Prod.fst).Nodup) (m : σ) :
    perform set m (upsert dest call) = set (perform set m dest) call.1 call.2 := by
  unfold upsert
  by_cases hk : call.1 ∈ dest.map Prod.fst
  · rw [if_pos hk, perform_replace hset hnodup hk]
  · rw [if_neg hk, perform, List.foldl_append, List.foldl_cons, List.foldl_nil, perform]

theorem perform_foldl_upsert (m : σ) :
    perform set m (calls.foldl upsert []) = perform set m calls := by
  induction calls using List.reverseRecOn with
  | nil => rfl
  | append_singleton calls call ih =>
    have hnodup : ((calls.foldl upsert []).map Prod.fst).Nodup := by
      rw [map_fst_foldl_upsert]
      exact nodup_eraseDups _
    rw [List.foldl_append, List.foldl_cons, List.foldl_nil, perform_upsert hset hnodup, ih,
      perform, perform, List.foldl_append, List.foldl_cons, List.foldl_nil]

theorem perform_of_keepsLast {writes : List (κ × β)} (h : KeepsLast calls writes) (m : σ) :
    perform set m writes = perform set m calls := by
  rw [keepsLast_iff.mp h, perform_foldl_upsert hset]

end Perform

end DeferredWrites
