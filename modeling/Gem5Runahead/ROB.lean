import Gem5Runahead.DynInst

/-!
# ROB

The reorder buffer of the thread. A squash walks it from the tail towards the head, `squashWidth`
instructions a cycle, and marks what is younger than the squash's sequence number; until it has
got there, the younger instructions it has not reached yet are as good as squashed.

The iterator of the walk is the part of the list from the instruction it points to back to the
head; the end iterator is the empty list. `none` is a failing assertion.

* `Doomed` — squashed, or still to be squashed by the walk.
* `doSquash_spec`, `squash_spec` — what a cycle of the walk, and a new squash, do.
-/

namespace Gem5
namespace Runahead

structure ROB where
  /-- The oldest instruction first. -/
  instList : List Nat := []
  squashedSeqNum : Nat := 0
  squashIt : List Nat := []
  doneSquashing : Bool := true

namespace ROB

def insertInst (rob : ROB) (i : Nat) : ROB := { rob with instList := rob.instList ++ [i] }

/-- The head leaves the list. -/
def retireHead (rob : ROB) : ROB := { rob with instList := rob.instList.tail }

/-- The loop of `doSquash`: the iterator after at most `n` instructions. -/
def squashInsts (squashedSeqNum : Nat) : Nat → List Nat → Insts → List Nat × Insts
  | _, [], insts => ([], insts)
  | 0, it, insts => (it, insts)
  | n + 1, i :: rest, insts =>
    if squashedSeqNum < i then
      squashInsts squashedSeqNum n rest (insts.modify i fun inst => inst.setSquashed.setCanCommit)
    else (i :: rest, insts)

def doSquash (rob : ROB) (squashWidth : Nat) (insts : Insts) : Option (ROB × Insts) :=
  match rob.squashIt with
  | [] => none
  | i :: rest =>
    if i < rob.squashedSeqNum then some ({ rob with squashIt := [], doneSquashing := true }, insts)
    else
      let (it, insts) := squashInsts rob.squashedSeqNum squashWidth (i :: rest) insts
      if it.head?.all (· ≤ rob.squashedSeqNum) then
        some ({ rob with squashIt := [], doneSquashing := true }, insts)
      else some ({ rob with squashIt := it }, insts)

def squash (rob : ROB) (squashWidth squashNum : Nat) (insts : Insts) : Option (ROB × Insts) :=
  if rob.instList = [] then some (rob, insts)
  else
    { rob with
      squashedSeqNum := squashNum
      squashIt := rob.instList.reverse
      doneSquashing := false }.doSquash squashWidth insts

/-- The loop of `findUnsentValidLoad`. -/
def unsentValidLoad (insts : Insts) : List Nat → Int → Nat → Nat
  | [], _, youngest => youngest
  | i :: rest, limit, youngest =>
    if !(insts i).isLoad || (insts i).poisoned then unsentValidLoad insts rest limit youngest
    else
      let youngest := if (insts i).executed then youngest else i
      if limit - 1 ≤ 0 then youngest else unsentValidLoad insts rest (limit - 1) youngest

/-- The sequence number of the load, 0 if there is none; -1 is no limit. -/
def findUnsentValidLoad (rob : ROB) (insts : Insts) (limit : Int) : Nat :=
  unsentValidLoad insts rob.instList (if limit = -1 then rob.instList.length else limit) 0

section Squash

variable {rob rob' : ROB} {insts insts' : Insts} {w n : Nat}

/-- Squashed, or younger than what the walk still is to squash. -/
def Doomed (rob : ROB) (insts : Insts) (i : Nat) : Prop :=
  (insts i).squashed = true ∨ rob.doneSquashing = false ∧ rob.squashedSeqNum < i

/-- What a squash may do to the instructions: it marks some of the list that are younger. -/
def SquashMarks (rob : ROB) (n : Nat) (insts insts' : Insts) : Prop :=
  ∀ i, insts' i = insts i ∨
    i ∈ rob.instList ∧ n < i ∧ insts' i = (insts i).setSquashed.setCanCommit

/-- The iterator walks the list back, and has marked what it has passed. -/
structure Walking (rob : ROB) (insts : Insts) : Prop where
  sorted : rob.squashIt.Pairwise (· > ·)
  mem : ∀ i ∈ rob.squashIt, i ∈ rob.instList
  passed : ∀ i ∈ rob.instList, rob.squashedSeqNum < i →
    (insts i).squashed = true ∨ i ∈ rob.squashIt

theorem SquashMarks.refl (rob : ROB) (n : Nat) (insts : Insts) : SquashMarks rob n insts insts :=
  fun _ => .inl rfl

theorem SquashMarks.squashed {i : Nat} (h : SquashMarks rob n insts insts')
    (hi : (insts i).squashed = true) : (insts' i).squashed = true := by
  rcases h i with heq | ⟨-, -, heq⟩
  · rwa [heq]
  · rw [heq]
    rfl

/-- The loop passes over marked instructions only, and leaves a suffix of the iterator. -/
theorem squashInsts_spec (sq : Nat) :
    ∀ (w : Nat) (it : List Nat) (insts : Insts), it.Pairwise (· > ·) →
      let r := squashInsts sq w it insts
      r.1 <:+ it ∧ (∀ i ∈ it, i ∈ r.1 ∨ (r.2 i).squashed = true) ∧
        ∀ i, r.2 i = insts i ∨ i ∈ it ∧ sq < i ∧ r.2 i = (insts i).setSquashed.setCanCommit := by
  intro w it
  induction it generalizing w with
  | nil =>
    intro insts _
    cases w <;> exact ⟨List.suffix_refl [], by simp [squashInsts], fun _ => .inl rfl⟩
  | cons a it ih =>
    intro insts hsorted
    obtain ⟨ha, hsorted⟩ := List.pairwise_cons.mp hsorted
    cases w with
    | zero => exact ⟨List.suffix_refl _, fun i hi => .inl hi, fun _ => .inl rfl⟩
    | succ w =>
      simp only [squashInsts]
      by_cases hlt : sq < a
      · rw [if_pos hlt]
        obtain ⟨hsuf, hpassed, hmarks⟩ :=
          ih w (insts.modify a fun inst => inst.setSquashed.setCanCommit) hsorted
        have hne : ∀ i ∈ it, i ≠ a := fun i hi => Nat.ne_of_lt (ha i hi)
        refine ⟨hsuf.trans (List.suffix_cons a it), fun i hi => ?_, fun i => ?_⟩
        · rcases List.mem_cons.mp hi with rfl | hi
          · right
            rcases hmarks i with heq | ⟨-, -, heq⟩
            · rw [heq, Insts.modify_self]
              rfl
            · rw [heq]
              rfl
          · exact hpassed i hi
        · by_cases hia : i = a
          · subst hia
            right
            refine ⟨List.mem_cons_self, hlt, ?_⟩
            rcases hmarks i with heq | ⟨hmem, -, -⟩
            · rw [heq, Insts.modify_self]
            · exact absurd rfl (hne i hmem)
          · rcases hmarks i with heq | ⟨hmem, hi, heq⟩
            · left
              rw [heq, Insts.modify_of_ne hia]
            · right
              refine ⟨List.mem_cons_of_mem a hmem, hi, ?_⟩
              rw [heq, Insts.modify_of_ne hia]
      · rw [if_neg hlt]
        exact ⟨List.suffix_refl _, fun i hi => .inl hi, fun _ => .inl rfl⟩

/-- A cycle of the walk. -/
theorem doSquash_spec (hd : rob.doneSquashing = false) (hw : Walking rob insts)
    (h : rob.doSquash w insts = some (rob', insts')) :
    rob'.instList = rob.instList ∧ rob'.squashedSeqNum = rob.squashedSeqNum ∧
      SquashMarks rob rob.squashedSeqNum insts insts' ∧
      (rob'.doneSquashing = true → ∀ i ∈ rob.instList, rob.squashedSeqNum < i →
        (insts' i).squashed = true) ∧
      (rob'.doneSquashing = false → Walking rob' insts') := by
  unfold doSquash at h
  split at h
  · cases h
  · rename_i i rest hit
    have hsorted : (i :: rest).Pairwise (· > ·) := hit ▸ hw.sorted
    split at h
    · rename_i hlt
      cases h
      refine ⟨rfl, rfl, SquashMarks.refl _ _ _, fun _ j hj hsq => ?_, fun hdone => by simp at hdone⟩
      rcases hw.passed j hj hsq with hs | hmem
      · exact hs
      · rw [hit] at hmem
        rcases List.mem_cons.mp hmem with rfl | hmem
        · omega
        · have := (List.pairwise_cons.mp hsorted).1 j hmem
          omega
    · obtain ⟨hsuf, hpassed, hmarks⟩ := squashInsts_spec rob.squashedSeqNum w _ insts hsorted
      simp only at h
      generalize squashInsts rob.squashedSeqNum w (i :: rest) insts = r at *
      have hmarks' : SquashMarks rob rob.squashedSeqNum insts r.2 := by
        intro j
        rcases hmarks j with heq | ⟨hmem, hj, heq⟩
        · exact .inl heq
        · exact .inr ⟨hw.mem j (hit ▸ hmem), hj, heq⟩
      have hrest : ∀ j ∈ rob.instList, rob.squashedSeqNum < j →
          (r.2 j).squashed = true ∨ j ∈ r.1 := by
        intro j hj hsq
        rcases hw.passed j hj hsq with hs | hmem
        · exact .inl (hmarks'.squashed hs)
        · exact (hpassed j (hit ▸ hmem)).symm
      have hsorted' : r.1.Pairwise (· > ·) := hsorted.sublist hsuf.sublist
      split at h
      · rename_i hhead
        cases h
        refine ⟨rfl, rfl, hmarks', fun _ j hj hsq => ?_, fun hdone => by simp at hdone⟩
        rcases hrest j hj hsq with hs | hmem
        · exact hs
        · cases hr : r.1 with
          | nil =>
            rw [hr] at hmem
            cases hmem
          | cons a it =>
            rw [hr] at hhead hmem hsorted'
            have ha : a ≤ rob.squashedSeqNum := by simpa using hhead
            rcases List.mem_cons.mp hmem with rfl | hmem
            · omega
            · have := (List.pairwise_cons.mp hsorted').1 j hmem
              omega
      · cases h
        refine ⟨rfl, rfl, hmarks', fun hdone => ?_, fun _ =>
          ⟨hsorted', fun j hj => hw.mem j (hit ▸ hsuf.subset hj), hrest⟩⟩
        simp only [hd, Bool.false_eq_true] at hdone

theorem doSquash_doomed (hd : rob.doneSquashing = false) (hw : Walking rob insts)
    (h : rob.doSquash w insts = some (rob', insts')) {i : Nat} (hi : i ∈ rob.instList) :
    Doomed rob' insts' i ↔ (insts i).squashed = true ∨ rob.squashedSeqNum < i := by
  obtain ⟨-, hsq, hmarks, hdone, -⟩ := doSquash_spec hd hw h
  constructor
  · rintro (hs | ⟨-, hlt⟩)
    · rcases hmarks i with heq | ⟨-, hlt, -⟩
      · rw [heq] at hs
        exact .inl hs
      · exact .inr hlt
    · exact .inr (hsq ▸ hlt)
  · rintro (hs | hlt)
    · exact .inl (hmarks.squashed hs)
    · cases hd' : rob'.doneSquashing with
      | true => exact .inl (hdone hd' i hi hlt)
      | false => exact .inr ⟨hd', hsq ▸ hlt⟩

/-- A new squash starts at the tail, and does its first cycle. -/
theorem squash_spec (hsorted : rob.instList.Pairwise (· < ·)) (hne : rob.instList ≠ [])
    (h : rob.squash w n insts = some (rob', insts')) :
    rob'.instList = rob.instList ∧ rob'.squashedSeqNum = n ∧ SquashMarks rob n insts insts' ∧
      (rob'.doneSquashing = false → Walking rob' insts') ∧
      ∀ i ∈ rob.instList, Doomed rob' insts' i ↔ (insts i).squashed = true ∨ n < i := by
  rw [squash, if_neg hne] at h
  have hw : Walking { rob with
      squashedSeqNum := n, squashIt := rob.instList.reverse, doneSquashing := false } insts :=
    ⟨List.pairwise_reverse.mpr hsorted, fun i hi => List.mem_reverse.mp hi,
      fun i hi _ => .inr (List.mem_reverse.mpr hi)⟩
  obtain ⟨hlist, hsq, hmarks, -, hwalk⟩ := doSquash_spec rfl hw h
  exact ⟨hlist, hsq, hmarks, hwalk, fun i hi => doSquash_doomed rfl hw h hi⟩

end Squash

end ROB
end Runahead
end Gem5
