import Gem5Runahead.InstList
import Mathlib.Data.List.Nodup
import Mathlib.Data.List.TakeWhile

/-!
# InstListWalk

Which instructions the two backward walks over the instruction list mark: with instructions of any
threads in the list, some of them marked before and not erased yet.

* `MarksThread` — the instructions that a walk has marked, all of them and no others.
* `walksMark_iff` — when both walks stay inside the list and mark the right instructions.
-/

namespace Gem5
namespace Runahead
namespace InstList

/-- `s'` is `s` with the thread's instructions that satisfy `p` marked, the youngest first. -/
structure MarksThread (s : InstList) (tid : Nat) (p : Nat → Bool) (s' : InstList) : Prop where
  insts : ∀ i, s'.insts i =
    if i ∈ s.instList ∧ (s.insts i).threadNumber = tid ∧ p i = true then
      (s.insts i).setSquashed.removeFromCPU
    else s.insts i
  instList : s'.instList = s.instList
  removeList : s'.removeList = s.removeList ++ s.ofThread tid (s.instList.reverse.filter p)
  globalSeqNum : s'.globalSeqNum = s.globalSeqNum

section Spec

variable {s s' : InstList} {tid : Nat} {p : Nat → Bool} {l : List Nat}

theorem mem_ofThread {i : Nat} :
    i ∈ s.ofThread tid l ↔ i ∈ l ∧ (s.insts i).threadNumber = tid := by
  simp [ofThread]

/-- A walk that has squashed the instructions with `p`, the youngest first. -/
theorem MarksThread.of_squashes (hsquashes : Squashes s (s.ofThread tid l) s')
    (hmarked : Marked s (s.ofThread tid l) s') (hl : l = s.instList.reverse.filter p) :
    MarksThread s tid p s' := by
  refine ⟨fun i => ?_, hmarked.instList, by rw [hmarked.removeList, hl], hmarked.globalSeqNum⟩
  have hmem : i ∈ s.ofThread tid l ↔
      i ∈ s.instList ∧ (s.insts i).threadNumber = tid ∧ p i = true := by
    rw [mem_ofThread, hl, List.mem_filter, List.mem_reverse]
    exact and_right_comm.trans and_assoc
  rw [hsquashes.insts]
  simp only [hmem]

theorem MarksThread.squashes (h : MarksThread s tid p s') :
    Squashes s (s.ofThread tid (s.instList.filter p)) s' := by
  refine ⟨h.instList, h.globalSeqNum, fun i => ?_⟩
  have hmem : i ∈ s.ofThread tid (s.instList.filter p) ↔
      i ∈ s.instList ∧ (s.insts i).threadNumber = tid ∧ p i = true := by
    rw [mem_ofThread, List.mem_filter]
    exact and_right_comm.trans and_assoc
  rw [h.insts]
  simp only [hmem]

/-- A walk does not pass the beginning if there is an instruction to stop at. -/
theorem squashWhile_isSome (tid : Nat) :
    (squashWhile tid p l s).isSome ↔ ∃ i ∈ l, p i = false := by
  induction l generalizing s with
  | nil => simp [squashWhile]
  | cons i l ih =>
    rw [squashWhile]
    by_cases hi : p i = true
    · rw [if_pos hi, ih]
      simp [hi]
    · rw [if_neg hi]
      exact iff_of_true rfl ⟨i, List.mem_cons_self, Bool.eq_false_iff.mpr hi⟩

/-- Of a list that goes down, the first part of what is above `n` is all of it. -/
theorem takeWhile_eq_filter (hl : l.Pairwise (· > ·)) (n : Nat) :
    l.takeWhile (n < ·) = l.filter (n < ·) := by
  induction l with
  | nil => rfl
  | cons a l ih =>
    obtain ⟨ha, hl⟩ := List.pairwise_cons.mp hl
    by_cases hn : n < a
    · rw [List.takeWhile_cons_of_pos (by simpa using hn),
        List.filter_cons_of_pos (by simpa using hn), ih hl]
    · rw [List.takeWhile_cons_of_neg (by simpa using hn),
        List.filter_cons_of_neg (by simpa using hn), eq_comm, List.filter_eq_nil_iff]
      intro b hb
      have := ha b hb
      simp only [decide_eq_true_eq]
      omega

theorem takeWhile_ne_eq_filter (hl : l.Pairwise (· > ·)) {tail : Nat}
    (htail : tail ∈ l) : l.takeWhile (· ≠ tail) = l.filter (tail < ·) := by
  induction l with
  | nil => cases htail
  | cons a l ih =>
    obtain ⟨ha, hl⟩ := List.pairwise_cons.mp hl
    by_cases hat : a = tail
    · subst hat
      rw [List.takeWhile_cons_of_neg (by simp), List.filter_cons_of_neg (by simp), eq_comm,
        List.filter_eq_nil_iff]
      intro b hb
      have := ha b hb
      simp only [decide_eq_true_eq]
      omega
    · have htail' := (List.mem_cons.mp htail).resolve_left (Ne.symm hat)
      have hlt := ha tail htail'
      rw [List.takeWhile_cons_of_pos (by simpa using hat),
        List.filter_cons_of_pos (by simpa using hlt), ih hl htail']

/-- A walk with a stop marks what it passes. -/
theorem squashWhile_marksThread {q : Nat → Bool} {i : Nat} (hi : i ∈ s.instList) (hp : p i = false)
    (hpq : s.instList.reverse.takeWhile p = s.instList.reverse.filter q) :
    ∃ s', squashWhile tid p s.instList.reverse s.setRemoving = some s' ∧
      MarksThread s tid q s' := by
  obtain ⟨s', hs'⟩ := Option.isSome_iff_exists.mp
    (squashWhile_isSome (s := s.setRemoving) tid |>.mpr ⟨i, List.mem_reverse.mpr hi, hp⟩)
  exact ⟨s', hs', .of_squashes ((Squashes.setRemoving s).trans (squashWhile_squashes hs'))
    ((Marked.setRemoving s).trans (squashWhile_marked hs')) hpq⟩

theorem removeInstsNotInROB_marks (tid : Nat) (hsorted : s.instList.Pairwise (· < ·))
    {robTail : Option Nat} (htail : ∀ tail ∈ robTail, tail ∈ s.instList) :
    ∃ s', s.removeInstsNotInROB tid robTail = some s' ∧
      MarksThread s tid (fun i => robTail.all (· < i)) s' := by
  have hdown : s.instList.reverse.Pairwise (· > ·) := List.pairwise_reverse.mpr hsorted
  unfold removeInstsNotInROB
  cases hlist : s.instList.head? with
  | none =>
    have hnil : s.instList = [] := List.head?_eq_none_iff.mp hlist
    refine ⟨s, rfl, fun i => ?_, rfl, ?_, rfl⟩
    · simp [hnil]
    · simp [hnil, ofThread]
  | some front =>
    have hfront : front ∈ s.instList := List.mem_of_head? hlist
    cases robTail with
    | none =>
      obtain ⟨t, ht⟩ := Option.isSome_iff_exists.mp
        (squashWhile_isSome (s := s.setRemoving) (p := (· ≠ front)) tid |>.mpr
          ⟨front, List.mem_reverse.mpr hfront, by simp⟩)
      refine ⟨_, Option.bind_eq_some_iff.mpr ⟨t, ht, rfl⟩, ?_⟩
      have hmarked := squashWhile_marked ht
      have hall : s.ofThread tid s.instList.reverse =
          [] ++ s.setRemoving.ofThread tid (s.instList.reverse.takeWhile (· ≠ front)) ++
            t.ofThread tid [front] := by
        obtain ⟨rest, hrest⟩ := List.head?_eq_some_iff.mp hlist
        have hwhole := takeWhile_reverse_front (hrest ▸ hsorted.imp Nat.ne_of_lt)
        rw [← hrest] at hwhole
        rw [hmarked.ofThread_eq, (Marked.setRemoving s).ofThread_eq,
          (Marked.setRemoving s).ofThread_eq, List.nil_append, ofThread, ofThread, ofThread,
          ← List.filter_append, hwhole]
      refine .of_squashes (l := s.instList.reverse) ?_ ?_
        (List.filter_eq_self.mpr fun _ _ => rfl).symm
      · rw [hall]
        exact ((Squashes.setRemoving s).trans (squashWhile_squashes ht)).trans
          (squashInstIt_squashes t front tid)
      · rw [hall]
        exact ((Marked.setRemoving s).trans hmarked).trans (squashInstIt_marked t front tid)
    | some tail =>
      exact squashWhile_marksThread (htail tail rfl) (by simp)
        (takeWhile_ne_eq_filter hdown (List.mem_reverse.mpr (htail tail rfl)))

theorem removeInstsUntil_marks (tid : Nat) (hsorted : s.instList.Pairwise (· < ·))
    {seqNum i : Nat} (hi : i ∈ s.instList) (hle : i ≤ seqNum) :
    ∃ s', s.removeInstsUntil seqNum tid = some s' ∧ MarksThread s tid (seqNum < ·) s' :=
  squashWhile_marksThread hi (by simpa using hle)
    (takeWhile_eq_filter (List.pairwise_reverse.mpr hsorted) seqNum)

/-- Both walks stay inside the list and mark the right instructions of the thread: what is younger
than the tail of its ROB, and what is younger than `seqNum`. -/
def WalksMark (s : InstList) (tid : Nat) (robTail : Option Nat) (seqNum : Nat) : Prop :=
  (∃ s', s.removeInstsNotInROB tid robTail = some s' ∧
      MarksThread s tid (fun i => robTail.all (· < i)) s') ∧
    ∃ s', s.removeInstsUntil seqNum tid = some s' ∧ MarksThread s tid (seqNum < ·) s'

theorem exists_le_iff_head (hsorted : s.instList.Pairwise (· < ·)) (seqNum : Nat) :
    (∃ i ∈ s.instList, i ≤ seqNum) ↔ ∃ front ∈ s.instList.head?, front ≤ seqNum := by
  cases hlist : s.instList with
  | nil => simp
  | cons front l =>
    rw [hlist] at hsorted
    have hl := (List.pairwise_cons.mp hsorted).1
    constructor
    · rintro ⟨i, hi, hle⟩
      refine ⟨front, rfl, ?_⟩
      rcases List.mem_cons.mp hi with rfl | hi
      · exact hle
      · exact Nat.le_trans (Nat.le_of_lt (hl i hi)) hle
    · rintro ⟨i, hi, hle⟩
      obtain rfl : front = i := Option.some.inj hi
      exact ⟨front, List.mem_cons_self, hle⟩

/-- For every list in program order, with instructions of any threads, and every ROB tail in it,
both walks are right exactly if the list's oldest instruction, whatever its thread, is one that
`removeInstsUntil` stops at. -/
theorem walksMark_iff (hsorted : s.instList.Pairwise (· < ·)) (tid : Nat) {robTail : Option Nat}
    (htail : ∀ tail ∈ robTail, tail ∈ s.instList) (seqNum : Nat) :
    WalksMark s tid robTail seqNum ↔ ∃ front ∈ s.instList.head?, front ≤ seqNum := by
  rw [WalksMark, and_iff_right (removeInstsNotInROB_marks tid hsorted htail),
    ← exists_le_iff_head hsorted]
  constructor
  · rintro ⟨s', hs', -⟩
    obtain ⟨i, hi, hle⟩ := (squashWhile_isSome tid).mp (Option.isSome_iff_exists.mpr ⟨s', hs'⟩)
    exact ⟨i, List.mem_reverse.mp hi, by simpa using hle⟩
  · rintro ⟨i, hi, hle⟩
    exact removeInstsUntil_marks tid hsorted hi hle

end Spec

end InstList
end Runahead
end Gem5
