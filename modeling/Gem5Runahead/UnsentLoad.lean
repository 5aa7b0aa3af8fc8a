import Gem5Runahead.NoLoadLeftBehind

/-!
# UnsentLoad

The search for an unsent load under a limit. The caller gives the limit in instructions of the
ROB; the loop counts it down for the loads it takes into account, those that are not poisoned, and
looks at the limit only after it has taken one.

* `unsentValidLoad_eq` — which loads the loop looks at.
* `honoursLimit_iff` — when its result is the youngest unsent load within the limit, and when the
  DynamicDelayed policy leaves runahead for the reasons it gives.
-/

namespace Gem5
namespace Runahead

section Youngest

/-- A load the loop takes into account. -/
def validLoad (insts : Insts) (i : Nat) : Bool := (insts i).isLoad && !(insts i).poisoned

/-- The first `limit` instructions, or all of them. -/
def window (l : List Nat) (limit : Int) : List Nat :=
  if limit = -1 then l else l.take limit.toNat

/-- `r` is the youngest unsent load of the window, 0 if there is none. -/
def IsYoungestUnsent (insts : Insts) (window : List Nat) (r : Nat) : Prop :=
  (r = 0 ↔ ∀ i ∈ window, unsent insts i = false) ∧
    (r ≠ 0 → r ∈ window ∧ unsent insts r = true ∧ ∀ i ∈ window, unsent insts i = true → i ≤ r)

/-- The loads that the loop looks at. -/
def examined (insts : Insts) (l : List Nat) (limit : Int) : List Nat :=
  if limit = -1 then l.filter (validLoad insts)
  else (l.filter (validLoad insts)).take (max 1 limit).toNat

/-- Every unsent load that the loop looks at is in the window. -/
def InWindow (insts : Insts) (l : List Nat) (limit : Int) : Prop :=
  ∀ i ∈ examined insts l limit, (insts i).executed = false → i ∈ window l limit

variable {insts : Insts} {l w : List Nat} {limit : Int}

theorem unsent_eq (i : Nat) : unsent insts i = (validLoad insts i && !(insts i).executed) := rfl

theorem unsentValidLoad_eq (l : List Nat) : ∀ (limit : Int) (youngest : Nat),
    ROB.unsentValidLoad insts l limit youngest =
      (((l.filter (validLoad insts)).take (max 1 limit).toNat).filter
        fun i => !(insts i).executed).getLastD youngest := by
  induction l with
  | nil =>
    intro limit youngest
    rw [List.filter_nil, List.take_nil, List.filter_nil, ROB.unsentValidLoad, List.getLastD_nil]
  | cons a l ih =>
    intro limit youngest
    rw [ROB.unsentValidLoad]
    by_cases hvalid : validLoad insts a = true
    · have hskip : (!(insts a).isLoad || (insts a).poisoned) = false := by
        simpa [validLoad] using hvalid
      have hlimit : (max 1 limit).toNat = (limit - 1).toNat + 1 := by omega
      rw [if_neg (by rw [hskip]; decide), List.filter_cons_of_pos hvalid, hlimit, List.take_succ_cons]
      by_cases hstop : limit - 1 ≤ 0
      · have hzero : (limit - 1).toNat = 0 := by omega
        rw [if_pos hstop, hzero, List.take_zero]
        cases hexecuted : (insts a).executed <;> simp [hexecuted]
      · have hmore : (max 1 (limit - 1)).toNat = (limit - 1).toNat := by omega
        rw [if_neg hstop, ih, hmore, List.filter_cons]
        cases hexecuted : (insts a).executed with
        | true => rfl
        | false => exact List.getLastD_cons.symm
    · have hskip : (!(insts a).isLoad || (insts a).poisoned) = true := by
        simp only [validLoad, Bool.and_eq_true, Bool.not_eq_true', not_and] at hvalid
        cases hload : (insts a).isLoad with
        | false => rfl
        | true =>
          rw [Bool.not_true, Bool.false_or]
          exact Bool.not_eq_false _ |>.mp (hvalid hload)
      rw [if_pos hskip, List.filter_cons_of_neg hvalid, ih]

theorem findUnsentValidLoad_eq (rob : ROB) : rob.findUnsentValidLoad insts limit =
    ((examined insts rob.instList limit).filter fun i => !(insts i).executed).getLastD 0 := by
  rw [ROB.findUnsentValidLoad, unsentValidLoad_eq, examined]
  by_cases hall : limit = -1
  · have hlength := List.length_filter_le (validLoad insts) rob.instList
    rw [if_pos hall, if_pos hall, List.take_of_length_le (by omega)]
  · rw [if_neg hall, if_neg hall]

theorem le_getLastD {l : List Nat} {d : Nat} (hsorted : (d :: l).Pairwise (· < ·)) :
    ∀ i ∈ d :: l, i ≤ l.getLastD d := by
  induction l generalizing d with
  | nil =>
    intro i hi
    exact Nat.le_of_eq (List.mem_singleton.mp hi)
  | cons a l ih =>
    intro i hi
    obtain ⟨hd, hl⟩ := List.pairwise_cons.mp hsorted
    rw [List.getLastD_cons]
    rcases List.mem_cons.mp hi with rfl | hi
    · exact Nat.le_trans (Nat.le_of_lt (hd a List.mem_cons_self)) (ih hl a List.mem_cons_self)
    · exact ih hl i hi

theorem getLastD_mem {l : List Nat} {d : Nat} (hne : l.getLastD d ≠ d) : l.getLastD d ∈ l :=
  (List.mem_cons.mp List.getLastD_mem_cons).resolve_left hne

theorem getLastD_eq_zero_iff {l : List Nat} (hsorted : (0 :: l).Pairwise (· < ·)) :
    l.getLastD 0 = 0 ↔ l = [] := by
  constructor
  · intro hzero
    refine List.eq_nil_iff_forall_not_mem.mpr fun i hi => ?_
    have hle := le_getLastD hsorted i (List.mem_cons_of_mem 0 hi)
    have hpos := (List.pairwise_cons.mp hsorted).1 i hi
    omega
  · rintro rfl
    rfl

theorem Pairwise.filter_cons {p : Nat → Bool} {d : Nat} (h : (d :: l).Pairwise (· < ·)) :
    (d :: l.filter p).Pairwise (· < ·) := by
  obtain ⟨hd, hl⟩ := List.pairwise_cons.mp h
  exact List.pairwise_cons.mpr ⟨fun i hi => hd i (List.mem_of_mem_filter hi), hl.filter p⟩

theorem isYoungestUnsent_iff (hsorted : (0 :: w).Pairwise (· < ·)) {r : Nat} :
    IsYoungestUnsent insts w r ↔ r = (w.filter (unsent insts)).getLastD 0 := by
  have hsorted' := Pairwise.filter_cons (p := unsent insts) hsorted
  have hnone : (w.filter (unsent insts)).getLastD 0 = 0 ↔ ∀ i ∈ w, unsent insts i = false := by
    rw [getLastD_eq_zero_iff hsorted', List.filter_eq_nil_iff]
    exact forall₂_congr fun _ _ => by rw [Bool.not_eq_true]
  have hle : ∀ i ∈ w, unsent insts i = true → i ≤ (w.filter (unsent insts)).getLastD 0 :=
    fun i hi hu => le_getLastD hsorted' i (List.mem_cons_of_mem 0 (List.mem_filter.mpr ⟨hi, hu⟩))
  constructor
  · rintro ⟨hzero, hyoungest⟩
    by_cases hr : r = 0
    · rw [hr, eq_comm]
      exact hnone.mpr (hzero.mp hr)
    · obtain ⟨hmem, hunsent, hmax⟩ := hyoungest hr
      have hne : (w.filter (unsent insts)).getLastD 0 ≠ 0 := fun h => by
        rw [hnone.mp h r hmem] at hunsent
        cases hunsent
      obtain ⟨hmem', hunsent'⟩ := List.mem_filter.mp (getLastD_mem hne)
      exact Nat.le_antisymm (hle r hmem hunsent) (hmax _ hmem' hunsent')
  · rintro rfl
    refine ⟨hnone, fun hne => ?_⟩
    obtain ⟨hmem, hunsent⟩ := List.mem_filter.mp (getLastD_mem hne)
    exact ⟨hmem, hunsent, hle⟩

/-- A first part with the same last element is the whole. -/
theorem eq_of_getLastD_eq {a b : List Nat} (hfront : a <+: b)
    (hsorted : (0 :: b).Pairwise (· < ·)) (h : a.getLastD 0 = b.getLastD 0) : a = b := by
  obtain ⟨rest, rfl⟩ := hfront
  cases rest with
  | nil => rw [List.append_nil]
  | cons x rest =>
    exfalso
    have hx : x ≤ (a ++ x :: rest).getLastD 0 := le_getLastD hsorted x (by simp)
    rw [← h] at hx
    obtain ⟨hpos, hpairs⟩ := List.pairwise_cons.mp hsorted
    have hlast : a.getLastD 0 < x := by
      rcases List.mem_cons.mp (List.getLastD_mem_cons (l := a) (a := 0)) with hzero | hmem
      · rw [hzero]
        exact hpos x (by simp)
      · exact (List.pairwise_append.mp hpairs).2.2 _ hmem x List.mem_cons_self
    omega

/-- The unsent loads of the window are the first of those that the loop looks at. -/
theorem unsent_window_head :
    (window l limit).filter (unsent insts) <+:
      (examined insts l limit).filter fun i => !(insts i).executed := by
  have hfilter : ∀ l : List Nat, l.filter (unsent insts) =
      (l.filter (validLoad insts)).filter fun i => !(insts i).executed := by
    intro l
    rw [List.filter_filter]
    exact List.filter_congr fun i _ => by rw [unsent_eq, Bool.and_comm]
  rw [hfilter]
  refine List.IsPrefix.filter _ ?_
  unfold window examined
  by_cases hall : limit = -1
  · simp [hall]
  · rw [if_neg hall, if_neg hall]
    refine List.prefix_take_iff.mpr ⟨(List.take_prefix _ _).filter _, ?_⟩
    have hfew := List.length_filter_le (validLoad insts) (l.take limit.toNat)
    have htake := List.length_take_le limit.toNat l
    omega

theorem window_sublist (l : List Nat) (limit : Int) : (window l limit).Sublist l := by
  unfold window
  split
  · exact List.Sublist.refl l
  · exact List.take_sublist _ _

theorem examined_sublist (l : List Nat) (limit : Int) : (examined insts l limit).Sublist l := by
  unfold examined
  split
  · exact List.filter_sublist
  · exact (List.take_sublist _ _).trans List.filter_sublist

theorem validLoad_of_mem_examined {i : Nat} (h : i ∈ examined insts l limit) :
    validLoad insts i = true := by
  have hmem : i ∈ l.filter (validLoad insts) := by
    unfold examined at h
    split at h
    · exact h
    · exact List.mem_of_mem_take h
  exact (List.mem_filter.mp hmem).2

theorem sorted_examined (hsorted : (0 :: l).Pairwise (· < ·)) :
    (0 :: (examined insts l limit).filter fun i => !(insts i).executed).Pairwise (· < ·) :=
  hsorted.sublist (((List.filter_sublist).trans (examined_sublist l limit)).cons_cons 0)

/-- The two lists of unsent loads are the same exactly if the loop stays in the window. -/
theorem unsent_window_eq_iff (hsorted : (0 :: l).Pairwise (· < ·)) :
    (window l limit).filter (unsent insts) =
      (examined insts l limit).filter (fun i => !(insts i).executed) ↔ InWindow insts l limit := by
  constructor
  · intro heq i hi hunsent
    have hmem : i ∈ (window l limit).filter (unsent insts) := by
      rw [heq]
      exact List.mem_filter.mpr ⟨hi, by rw [hunsent]; rfl⟩
    exact (List.mem_filter.mp hmem).1
  · intro hin
    obtain ⟨rest, hrest⟩ := @unsent_window_head insts l limit
    have hpairs := (List.pairwise_cons.mp (@sorted_examined insts _ limit
      hsorted)).2
    rw [← hrest] at hpairs
    cases rest with
    | nil => rw [← hrest, List.append_nil]
    | cons x rest =>
      -- an element beyond the window
      exfalso
      have hx : x ∈ (examined insts l limit).filter fun i => !(insts i).executed := by
        rw [← hrest]
        simp
      obtain ⟨hexamined, hnot⟩ := List.mem_filter.mp hx
      rw [Bool.not_eq_true'] at hnot
      have hunsent : unsent insts x = true := by
        rw [unsent_eq, validLoad_of_mem_examined hexamined, hnot]
        rfl
      have hmem := List.mem_filter.mpr ⟨hin x hexamined hnot, hunsent⟩
      exact Nat.lt_irrefl x ((List.pairwise_append.mp hpairs).2.2 x hmem x List.mem_cons_self)

/-- The search, for a ROB in program order. -/
theorem findUnsentValidLoad_youngest_iff {rob : ROB}
    (hsorted : (0 :: rob.instList).Pairwise (· < ·)) :
    IsYoungestUnsent insts (window rob.instList limit) (rob.findUnsentValidLoad insts limit) ↔
      InWindow insts rob.instList limit := by
  rw [isYoungestUnsent_iff (hsorted.sublist ((window_sublist _ _).cons_cons 0)),
    findUnsentValidLoad_eq, ← unsent_window_eq_iff hsorted]
  constructor
  · intro heq
    exact eq_of_getLastD_eq unsent_window_head (sorted_examined hsorted) heq.symm
  · intro heq
    rw [heq]

theorem findUnsentValidLoad_eq_zero_iff {rob : ROB}
    (hsorted : (0 :: rob.instList).Pairwise (· < ·)) :
    rob.findUnsentValidLoad insts limit = 0 ↔
      ∀ i ∈ examined insts rob.instList limit, (insts i).executed = true := by
  rw [findUnsentValidLoad_eq, getLastD_eq_zero_iff (sorted_examined hsorted),
    List.filter_eq_nil_iff]
  exact forall₂_congr fun _ _ => by rw [Bool.not_eq_true', Bool.not_eq_false]

end Youngest

section Policy

variable {cfg : PipelineParams} {s : Pipeline}

/-- The data of the load that caused runahead arrive, under the DynamicDelayed policy. -/
structure AtSignal (cfg : PipelineParams) (s : Pipeline) : Prop where
  policy : cfg.exitPolicy = .dynamicDelayed
  mode : s.inRunahead = true
  cause : (s.insts s.runaheadCause).runahead = true
  first : s.commit.runaheadExitable = false
  stays : s.commit.exitRunahead = false

/-- The work at entry is not done, or runahead is filtered and has no chain. -/
def OtherReasons (cfg : PipelineParams) (s : Pipeline) : Prop :=
  s.commit.instsPseudoretired < s.commit.trackedROBInsts ∨
    cfg.usingFiltered = true ∧ s.runaheadChainSize = 0

/-- Runahead is left for one of these reasons, or because no load of the window is unsent. -/
def LeavesForReason (cfg : PipelineParams) (s : Pipeline) : Prop :=
  ∃ s', s.signalExitRunahead cfg = some s' ∧ (s'.commit.exitRunahead = true ↔
    OtherReasons cfg s ∨
      ∀ i ∈ window s.rob.instList cfg.minRunaheadWork, unsent s.insts i = false)

theorem dynamicDelayedRunaheadExit_flag (hstays : s.commit.exitRunahead = false) :
    (s.dynamicDelayedRunaheadExit cfg).commit.exitRunahead = true ↔
      OtherReasons cfg s ∨ s.rob.findUnsentValidLoad s.insts cfg.minRunaheadWork = 0 := by
  unfold Pipeline.dynamicDelayedRunaheadExit OtherReasons
  by_cases hwork : s.commit.instsPseudoretired < s.commit.trackedROBInsts
  · rw [if_pos hwork]
    exact iff_of_true rfl (.inl (.inl hwork))
  · rw [if_neg hwork]
    by_cases hnone : s.rob.findUnsentValidLoad s.insts cfg.minRunaheadWork = 0
    · rw [if_pos hnone]
      exact iff_of_true rfl (.inr hnone)
    · rw [if_neg hnone]
      by_cases hchain : cfg.usingFiltered = true ∧ s.runaheadChainSize = 0
      · rw [if_pos (by simpa using hchain)]
        exact iff_of_true rfl (.inl (.inr hchain))
      · rw [if_neg (by simpa using hchain), hstays]
        refine iff_of_false Bool.false_ne_true ?_
        rintro ((h | h) | h)
        exacts [hwork h, hchain h, hnone h]

/-- The signal sets the flag exactly if the search finds nothing, or for another reason. -/
theorem signalExitRunahead_leaves (h : AtSignal cfg s) :
    ∃ s', s.signalExitRunahead cfg = some s' ∧ (s'.commit.exitRunahead = true ↔
      OtherReasons cfg s ∨ s.rob.findUnsentValidLoad s.insts cfg.minRunaheadWork = 0) := by
  unfold Pipeline.signalExitRunahead
  rw [if_neg (not_not.mpr ⟨h.mode, h.cause⟩), if_neg (by rw [h.first]; decide)]
  simp only [Pipeline.exitPolicy, h.policy]
  generalize ht : Pipeline.emit _ _ = t
  have hflag : (t.dynamicDelayedRunaheadExit cfg).commit.exitRunahead = true ↔
      OtherReasons cfg s ∨ s.rob.findUnsentValidLoad s.insts cfg.minRunaheadWork = 0 := by
    subst ht
    exact dynamicDelayedRunaheadExit_flag (s := Pipeline.emit _ _) h.stays
  split
  · exact ⟨_, rfl, hflag⟩
  · exact ⟨_, rfl, hflag⟩

/-- **The limit of the search for an unsent load.** In every ROB in program order and for every
limit the result is the youngest unsent load among the first `limit` instructions exactly if every
unsent load that the loop looks at is one of them; and the policy leaves runahead at the signal for
the reasons it gives exactly if another reason holds, or the loop finds nothing where the window
has nothing. -/
theorem honoursLimit_iff (cfg : PipelineParams) (s : Pipeline) (limit : Int)
    (hsorted : (0 :: s.rob.instList).Pairwise (· < ·)) :
    (IsYoungestUnsent s.insts (window s.rob.instList limit)
        (s.rob.findUnsentValidLoad s.insts limit) ↔ InWindow s.insts s.rob.instList limit) ∧
      (AtSignal cfg s → (LeavesForReason cfg s ↔ OtherReasons cfg s ∨
        ((∀ i ∈ window s.rob.instList cfg.minRunaheadWork, unsent s.insts i = false) →
          ∀ i ∈ examined s.insts s.rob.instList cfg.minRunaheadWork,
            (s.insts i).executed = true))) := by
  refine ⟨findUnsentValidLoad_youngest_iff hsorted, fun hsignal => ?_⟩
  have hnone := @findUnsentValidLoad_eq_zero_iff s.insts cfg.minRunaheadWork _
    hsorted
  -- what the loop does not find is not in the window
  have hwindow : (∀ i ∈ examined s.insts s.rob.instList cfg.minRunaheadWork,
      (s.insts i).executed = true) →
        ∀ i ∈ window s.rob.instList cfg.minRunaheadWork, unsent s.insts i = false := by
    intro hall i hi
    by_contra hunsent
    rw [Bool.not_eq_false] at hunsent
    have hmem := (@unsent_window_head _ _ cfg.minRunaheadWork).subset
      (List.mem_filter.mpr ⟨hi, hunsent⟩)
    obtain ⟨hexamined, hnot⟩ := List.mem_filter.mp hmem
    rw [hall i hexamined] at hnot
    cases hnot
  obtain ⟨s', hs', hflag⟩ := signalExitRunahead_leaves hsignal
  rw [hnone] at hflag
  constructor
  · rintro ⟨s'', hs'', hreasons⟩
    obtain rfl : s' = s'' := Option.some.inj (hs'.symm.trans hs'')
    by_cases hother : OtherReasons cfg s
    · exact .inl hother
    · refine .inr fun hempty => ?_
      exact (hflag.mp (hreasons.mpr (.inr hempty))).resolve_left hother
  · intro hcases
    refine ⟨s', hs', hflag.trans ⟨?_, ?_⟩⟩
    · rintro (hother | hall)
      · exact .inl hother
      · exact .inr (hwindow hall)
    · rintro (hother | hempty)
      · exact .inl hother
      · exact hcases.imp_right fun hfinds => hfinds hempty

/-- The cause of runahead, an instruction that is no load, and a load that has not been sent. -/
def loadThird : Pipeline := { Pipeline.start {} with
  list := {
    insts := fun i =>
      if i = 1 then { isLoad := true, runahead := true, poisoned := true, executed := true }
      else if i = 3 then { isLoad := true, runahead := true }
      else { runahead := true }
    instList := [1, 2, 3]
    removeList := []
    removeInstsThisCycle := false
    globalSeqNum := 4 }
  rob := { instList := [1, 2, 3] }
  inRunahead := true
  runaheadCause := 1 }

/-- The policy's member `minRunaheadWork` has its initial value. -/
def dynamicDelayed : PipelineParams :=
  { Pipeline.minimumWork with exitPolicy := .dynamicDelayed, minRunaheadWork := 0 }

theorem honoursLimit_iff_loadThird : AtSignal dynamicDelayed loadThird ∧
    (IsYoungestUnsent loadThird.insts (window loadThird.rob.instList 3)
        (loadThird.rob.findUnsentValidLoad loadThird.insts 3) ↔
      InWindow loadThird.insts loadThird.rob.instList 3) ∧
    (LeavesForReason dynamicDelayed loadThird ↔ OtherReasons dynamicDelayed loadThird ∨
      ((∀ i ∈ window loadThird.rob.instList 0, unsent loadThird.insts i = false) →
        ∀ i ∈ examined loadThird.insts loadThird.rob.instList 0,
          (loadThird.insts i).executed = true)) := by
  have hsignal : AtSignal dynamicDelayed loadThird := ⟨rfl, rfl, rfl, rfl, rfl⟩
  obtain ⟨hsearch, hpolicy⟩ := honoursLimit_iff dynamicDelayed loadThird 3 (by decide)
  exact ⟨hsignal, hsearch, hpolicy hsignal⟩

/-- With a limit of no instruction, as the policy has it, the third one is found. -/
theorem limit_passed_over : loadThird.rob.findUnsentValidLoad loadThird.insts 0 = 3 ∧
    ¬ IsYoungestUnsent loadThird.insts (window loadThird.rob.instList 0)
      (loadThird.rob.findUnsentValidLoad loadThird.insts 0) := by
  have hfound : loadThird.rob.findUnsentValidLoad loadThird.insts 0 = 3 := by decide
  refine ⟨hfound, fun h => ?_⟩
  rw [hfound] at h
  exact absurd (h.2 (by decide)).1 (by decide)

end Policy

end Runahead
end Gem5
