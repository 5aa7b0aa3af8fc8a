import Mathlib.Data.List.TakeWhile
import Mathlib.Order.MinMax

/-!
# Lib.UndoLog

A state that is changed in stamped steps, and a log of how to undo the changes, newest first. A
step can be squashed, which undoes it and all later ones, and it can be made final, which drops
its entries from the log.

* `takeWhile_eq_filter` / `dropWhile_eq_filter` — the ends of an ordered log are parts of it.
* `Journal` — rewinding the log down to a stamp gives the state right after the youngest step up
  to that stamp.
* `Journal.record` / `Journal.squash` / `Journal.commit` — the three operations keep it.
-/

namespace UndoLog

section Ends

variable {α : Type*} {p : α → Bool} {l : List α}

theorem takeWhile_eq_filter (h : l.Pairwise fun a b => p b = true → p a = true) :
    l.takeWhile p = l.filter p := by
  induction l with
  | nil => rfl
  | cons a l ih =>
    obtain ⟨ha, hl⟩ := List.pairwise_cons.mp h
    by_cases hp : p a = true
    · rw [List.takeWhile_cons_of_pos hp, List.filter_cons_of_pos hp, ih hl]
    · have hnone : l.filter p = [] := by
        rw [List.filter_eq_nil_iff]
        exact fun b hb hpb => hp (ha b hb hpb)
      rw [List.takeWhile_cons_of_neg hp, List.filter_cons_of_neg hp, hnone]

theorem dropWhile_eq_filter (h : l.Pairwise fun a b => p b = true → p a = true) :
    l.dropWhile p = l.filter (!p ·) := by
  induction l with
  | nil => rfl
  | cons a l ih =>
    obtain ⟨ha, hl⟩ := List.pairwise_cons.mp h
    by_cases hp : p a = true
    · rw [List.dropWhile_cons_of_pos hp, List.filter_cons_of_neg (by simpa using hp), ih hl]
    · have hall : (a :: l).filter (!p ·) = a :: l := by
        rw [List.filter_eq_self]
        intro b hb
        rcases List.mem_cons.mp hb with rfl | hb
        · simpa using hp
        · simpa using fun hpb => hp (ha b hb hpb)
      rw [List.dropWhile_cons_of_neg hp, hall]

end Ends

section Journal

variable {M E : Type*}

/-- Undoes the entries of a log. -/
def rewind (undo : M → E → M) (m : M) (log : List E) : M := log.foldl undo m

theorem rewind_append (undo : M → E → M) (m : M) (log log' : List E) :
    rewind undo m (log ++ log') = rewind undo (rewind undo m log) log' := List.foldl_append

/-- The state right after the youngest step up to stamp `n`, from the states after the steps. -/
def stateAt (start : M) (steps : List (Nat × M)) (n : Nat) : M :=
  (steps.find? (·.1 ≤ n)).elim start Prod.snd

variable {undo : M → E → M} {stamp : E → Nat} {start m : M} {steps : List (Nat × M)}
  {log : List E} {final n : Nat}

/-- The steps up to `final` cannot be undone any more. -/
structure Journal (undo : M → E → M) (stamp : E → Nat) (start : M) (steps : List (Nat × M))
    (final : Nat) (m : M) (log : List E) : Prop where
  ordered : log.Pairwise fun a b => stamp b ≤ stamp a
  pending : ∀ e ∈ log, final < stamp e
  rewound : ∀ n, final ≤ n →
    rewind undo m (log.filter (n < stamp ·)) = stateAt start steps n

theorem Journal.empty (undo : M → E → M) (stamp : E → Nat) (m : M) (final : Nat) :
    Journal undo stamp m [] final m [] where
  ordered := .nil
  pending _ he := absurd he List.not_mem_nil
  rewound _ _ := rfl

theorem Journal.takeWhile_eq (h : Journal undo stamp start steps final m log) (n : Nat) :
    log.takeWhile (n < stamp ·) = log.filter (n < stamp ·) := by
  refine takeWhile_eq_filter (h.ordered.imp fun hab hb => ?_)
  rw [decide_eq_true_eq] at hb ⊢
  exact hb.trans_le hab

theorem Journal.dropWhile_eq (h : Journal undo stamp start steps final m log) (n : Nat) :
    log.dropWhile (n < stamp ·) = log.filter (stamp · ≤ n) := by
  rw [dropWhile_eq_filter (h.ordered.imp fun hab hb => ?_)]
  · simp only [← decide_not, Nat.not_lt]
  · rw [decide_eq_true_eq] at hb ⊢
    exact hb.trans_le hab

theorem Journal.ordered_reverse (h : Journal undo stamp start steps final m log) (n : Nat) :
    log.reverse.Pairwise fun a b => decide (stamp b ≤ n) = true → decide (stamp a ≤ n) = true := by
  rw [List.pairwise_reverse]
  refine h.ordered.imp fun hab hb => ?_
  rw [decide_eq_true_eq] at hb ⊢
  exact hab.trans hb

theorem Journal.reverse_dropWhile_eq (h : Journal undo stamp start steps final m log) (n : Nat) :
    (log.reverse.dropWhile (stamp · ≤ n)).reverse = log.filter (n < stamp ·) := by
  rw [dropWhile_eq_filter (h.ordered_reverse n), List.filter_reverse, List.reverse_reverse]
  simp only [← decide_not, Nat.not_le]

/-- A new step, whose log entries undo it. -/
theorem Journal.record {m' : M} {new : List E} (h : Journal undo stamp start steps final m log)
    (hstamp : ∀ e ∈ new, stamp e = n) (hlog : ∀ e ∈ log, stamp e < n) (hfinal : final < n)
    (hundo : rewind undo m' new = m) :
    Journal undo stamp start ((n, m') :: steps) final m' (new ++ log) where
  ordered := by
    rw [List.pairwise_append]
    refine ⟨List.pairwise_of_forall_mem_list fun a ha b hb => ?_, h.ordered, fun a ha b hb => ?_⟩
    · exact (hstamp b hb).le.trans (hstamp a ha).ge
    · exact (hlog b hb).le.trans (hstamp a ha).ge
  pending e he := by
    rcases List.mem_append.mp he with he | he
    · exact hfinal.trans_eq (hstamp e he).symm
    · exact h.pending e he
  rewound k hk := by
    rw [List.filter_append]
    by_cases hn : n ≤ k
    · have hnew : new.filter (k < stamp ·) = [] := by
        rw [List.filter_eq_nil_iff]
        intro e he
        simpa [hstamp e he] using hn
      have hold : log.filter (k < stamp ·) = [] := by
        rw [List.filter_eq_nil_iff]
        intro e he
        simpa using (hlog e he).le.trans hn
      rw [hnew, hold]
      simp [stateAt, rewind, hn]
    · have hnew : new.filter (k < stamp ·) = new := by
        rw [List.filter_eq_self]
        intro e he
        simpa [hstamp e he] using hn
      rw [hnew, rewind_append, hundo, h.rewound k hk]
      simp [stateAt, hn]

/-- What the undo of all steps after `n` gives. A final step stays even if it is after `n`. -/
theorem Journal.rewind_eq (h : Journal undo stamp start steps final m log) (n : Nat) :
    rewind undo m (log.filter (n < stamp ·)) = stateAt start steps (max n final) := by
  rw [← h.rewound _ (le_max_right n final)]
  congr 1
  refine List.filter_congr fun e he => ?_
  have hpending := h.pending e he
  rw [decide_eq_decide]
  omega

theorem stateAt_filter {k : Nat} (hk : k ≤ n) :
    stateAt start (steps.filter (·.1 ≤ n)) k = stateAt start steps k := by
  have hfind : (steps.filter (·.1 ≤ n)).find? (·.1 ≤ k) = steps.find? (·.1 ≤ k) := by
    rw [List.find?_filter]
    congr 1
    funext x
    rw [decide_eq_decide, decide_eq_true_eq, decide_eq_true_eq]
    omega
  rw [stateAt, hfind, stateAt]

theorem stateAt_filter_ge {k : Nat} (hk : n ≤ k) :
    stateAt start (steps.filter (·.1 ≤ n)) k = stateAt start steps n := by
  have hfind : (steps.filter (·.1 ≤ n)).find? (·.1 ≤ k) = steps.find? (·.1 ≤ n) := by
    rw [List.find?_filter]
    congr 1
    funext x
    rw [decide_eq_decide, decide_eq_true_eq, decide_eq_true_eq]
    omega
  rw [stateAt, hfind, stateAt]

/-- The steps after `n` are undone. -/
theorem Journal.squash (h : Journal undo stamp start steps final m log) (n : Nat) :
    Journal undo stamp start (steps.filter (·.1 ≤ max n final)) final
      (rewind undo m (log.filter (n < stamp ·))) (log.filter (stamp · ≤ n)) where
  ordered := h.ordered.filter _
  pending e he := h.pending e (List.mem_filter.mp he).1
  rewound k hk := by
    by_cases hn : n ≤ k
    · have hnone : (log.filter (stamp · ≤ n)).filter (k < stamp ·) = [] := by
        rw [List.filter_eq_nil_iff]
        intro e he
        have hle := (List.mem_filter.mp he).2
        rw [decide_eq_true_eq] at hle ⊢
        omega
      rw [hnone, stateAt_filter_ge (max_le hn hk)]
      exact h.rewind_eq n
    · -- the entries above `k` are those above `n` and then those between
      have hsplit : log.filter (k < stamp ·) =
          log.filter (n < stamp ·) ++ (log.filter (stamp · ≤ n)).filter (k < stamp ·) := by
        rw [← h.takeWhile_eq n, ← h.dropWhile_eq n]
        conv_lhs => rw [← List.takeWhile_append_dropWhile (p := (n < stamp ·)) (l := log)]
        rw [List.filter_append, List.filter_eq_self.mpr]
        intro e he
        have hlt := List.mem_takeWhile_imp he
        rw [decide_eq_true_eq] at hlt ⊢
        omega
      rw [← rewind_append, ← hsplit, h.rewound k hk, stateAt_filter]
      omega

/-- The steps up to `n` are final. -/
theorem Journal.commit (h : Journal undo stamp start steps final m log) (n : Nat) :
    Journal undo stamp start steps (max final n) m (log.filter (n < stamp ·)) where
  ordered := h.ordered.filter _
  pending e he := by
    obtain ⟨he, hlt⟩ := List.mem_filter.mp he
    exact max_lt (h.pending e he) (decide_eq_true_eq.mp hlt)
  rewound k hk := by
    rw [← h.rewound k ((le_max_left _ _).trans hk), List.filter_filter]
    congr 1
    refine List.filter_congr fun e _ => ?_
    rw [← Bool.decide_and, decide_eq_decide]
    omega

end Journal

end UndoLog
