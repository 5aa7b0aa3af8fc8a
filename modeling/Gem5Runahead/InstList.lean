import Gem5Runahead.Lib.Transition
import Gem5Runahead.DynInst
import Mathlib.Data.List.Induction

/-!
# InstList

The CPU's list of all instructions in flight and its removal bookkeeping. Fetch adds an
instruction at the back. Five operations mark instructions for removal: they set the
instruction's `RemovePending` flag and push its list iterator on `removeList`. At the end of a
tick in which something was marked, `cleanUpRemovedInsts` scans the list and erases the flagged
instructions. A list iterator is the sequence number of the instruction it points to.

`none` stands for what the source leaves undefined: reading through the iterator of an
instruction that is no longer in the list, and walking past the front of the list.

* `step` / `system` — the operations of the pipeline stages and the end of a tick.
* `marks` — the instructions an operation marks.
* `step_marks` — what an operation does to the list, the flags and `removeList`.
-/

namespace Gem5
namespace Runahead

/-- The part of the CPU's state that keeps track of its instructions. -/
structure InstList where
  insts : Insts
  instList : List Nat
  removeList : List Nat
  removeInstsThisCycle : Bool
  /-- The next sequence number to be given out. -/
  globalSeqNum : Nat

namespace InstList

def addInst (s : InstList) (i : Nat) (inst : DynInst) : InstList :=
  { s with
    insts := Function.update s.insts i inst
    instList := s.instList ++ [i]
    globalSeqNum := i + 1 }

/-- `removeInstsThisCycle = true`. -/
def setRemoving (s : InstList) : InstList := { s with removeInstsThisCycle := true }

/-- The iterator `i` points into the list. -/
def squashInstIt (s : InstList) (i tid : Nat) : InstList :=
  if (s.insts i).threadNumber = tid then
    { s with
      insts := s.insts.modify i fun inst => inst.setSquashed.removeFromCPU
      removeList := s.removeList ++ [i] }
  else s

def removeInst (s : InstList) (i : Nat) : Option InstList :=
  if i ∈ s.instList then
    some (s.squashInstIt i (s.insts i).threadNumber).setRemoving
  else none

def removeFrontInst (s : InstList) (i : Nat) : InstList :=
  { s.setRemoving with
    insts := s.insts.modify i DynInst.removeFromCPU
    removeList := s.removeList ++ [i] }

/-- The backward walks over the list, which squash instructions as long as `p` holds. What is left
of the reversed list is what the iterator still has before it, so at `[]` it was moved before the
beginning. -/
def squashWhile (tid : Nat) (p : Nat → Bool) : List Nat → InstList → Option InstList
  | [], _ => none
  | i :: rest, s => if p i then squashWhile tid p rest (s.squashInstIt i tid) else some s

/-- `robTail` is the youngest instruction the thread has in the ROB, if it has one. -/
def removeInstsNotInROB (s : InstList) (tid : Nat) (robTail : Option Nat) : Option InstList :=
  match s.instList.head?, robTail with
  | none, _ => some s
  | some front, none => do
    let s ← squashWhile tid (· ≠ front) s.instList.reverse s.setRemoving
    return s.squashInstIt front tid
  | some _, some tail =>
    squashWhile tid (· ≠ tail) s.instList.reverse s.setRemoving

/-- The assertion fails on an empty list. `break_loop` is looked at after the iterator has moved. -/
def removeInstsUntil (s : InstList) (seqNum tid : Nat) : Option InstList :=
  squashWhile tid (seqNum < ·) s.instList.reverse s.setRemoving

def cleanUpRemovedInsts (s : InstList) : InstList :=
  { s with
    instList := s.instList.filter fun i => !(s.insts i).removePending
    removeInstsThisCycle := false }

/-- The end of `CPU::tick`. -/
def endTick (s : InstList) : InstList :=
  if s.removeInstsThisCycle then s.cleanUpRemovedInsts else s

/-- `isDrained` of the five stages. -/
structure Stages where
  fetch : Bool
  decode : Bool
  rename : Bool
  iew : Bool
  commit : Bool

def Stages.drained (g : Stages) : Bool := g.fetch && g.decode && g.rename && g.iew && g.commit

def isCpuDrained (s : InstList) (g : Stages) : Bool :=
  s.instList.isEmpty && s.removeList.isEmpty && g.drained

inductive Op where
  | addInst (i : Nat) (inst : DynInst)
  | removeInst (i : Nat)
  | removeFrontInst (i : Nat)
  | removeInstsNotInROB (tid : Nat) (robTail : Option Nat)
  | removeInstsUntil (seqNum tid : Nat)
  | endTick

def step (s : InstList) : Op → Option InstList
  | .addInst i inst => some (s.addInst i inst)
  | .removeInst i => s.removeInst i
  | .removeFrontInst i => some (s.removeFrontInst i)
  | .removeInstsNotInROB tid robTail => s.removeInstsNotInROB tid robTail
  | .removeInstsUntil seqNum tid => s.removeInstsUntil seqNum tid
  | .endTick => some s.endTick

/-- The instructions added so far, in fetch order. -/
def added (ops : List Op) : List Nat :=
  ops.filterMap fun
    | .addInst i _ => some i
    | _ => none

/-- Fetch takes the next sequence number for a new instruction, whose flags are all reset. -/
def Op.Fresh (s : InstList) : Op → Prop
  | .addInst i inst => i = s.globalSeqNum ∧ inst.removePending = false
  | _ => True

/-- Any order of the operations, from the empty list. -/
def system : Transition.System InstList Op where
  init s := ∃ insts, s = ⟨insts, [], [], false, 1⟩
  step s op s' := op.Fresh s ∧ s.step op = some s'

/-! ## What an operation marks -/

/-- The instructions of thread `tid` among `l`. -/
def ofThread (s : InstList) (tid : Nat) (l : List Nat) : List Nat :=
  l.filter fun i => (s.insts i).threadNumber = tid

def marks (s : InstList) : Op → List Nat
  | .removeInst i => [i]
  | .removeFrontInst i => [i]
  | .removeInstsNotInROB tid none => s.ofThread tid s.instList.reverse
  | .removeInstsNotInROB tid (some tail) =>
    s.ofThread tid (s.instList.reverse.takeWhile (· ≠ tail))
  | .removeInstsUntil seqNum tid =>
    s.ofThread tid (s.instList.reverse.takeWhile (seqNum < ·))
  | _ => []

/-- `s'` is `s` after the instructions `l` were marked, in this order. -/
structure Marked (s : InstList) (l : List Nat) (s' : InstList) : Prop where
  instList : s'.instList = s.instList
  removeList : s'.removeList = s.removeList ++ l
  removePending : ∀ i, (s'.insts i).removePending = ((s.insts i).removePending || i ∈ l)
  threadNumber : ∀ i, (s'.insts i).threadNumber = (s.insts i).threadNumber
  globalSeqNum : s'.globalSeqNum = s.globalSeqNum
  removing : s.removeInstsThisCycle = true → s'.removeInstsThisCycle = true

namespace Marked

variable {s s' s'' : InstList} {l l' : List Nat}

theorem refl (s : InstList) : Marked s [] s :=
  ⟨rfl, by simp, by simp, fun _ => rfl, rfl, id⟩

theorem trans (h : Marked s l s') (h' : Marked s' l' s'') : Marked s (l ++ l') s'' where
  instList := h'.instList.trans h.instList
  removeList := by rw [h'.removeList, h.removeList, List.append_assoc]
  removePending i := by
    rw [h'.removePending, h.removePending, Bool.or_assoc]
    simp
  threadNumber i := (h'.threadNumber i).trans (h.threadNumber i)
  globalSeqNum := h'.globalSeqNum.trans h.globalSeqNum
  removing hr := h'.removing (h.removing hr)

theorem setRemoving (s : InstList) : Marked s [] s.setRemoving :=
  ⟨rfl, by simp [InstList.setRemoving], by simp [InstList.setRemoving], fun _ => rfl, rfl,
    fun _ => rfl⟩

theorem ofThread_eq (h : Marked s l s') (tid : Nat) (l' : List Nat) :
    s'.ofThread tid l' = s.ofThread tid l' := by
  simp only [ofThread, h.threadNumber]

end Marked

section Marks

variable {s s' : InstList}

theorem ofThread_cons (s : InstList) (tid i : Nat) (l : List Nat) :
    s.ofThread tid (i :: l) = s.ofThread tid [i] ++ s.ofThread tid l := by
  simp only [ofThread, ← List.filter_append, List.singleton_append]

theorem squashInstIt_marked (s : InstList) (i tid : Nat) :
    Marked s (s.ofThread tid [i]) (s.squashInstIt i tid) := by
  by_cases h : (s.insts i).threadNumber = tid
  · have hl : s.ofThread tid [i] = [i] := by simp [ofThread, h]
    rw [squashInstIt, if_pos h, hl]
    refine ⟨rfl, rfl, fun j => ?_, fun j => ?_, rfl, id⟩ <;> simp only [Insts.modify_apply]
    · split <;> simp_all [DynInst.removeFromCPU, DynInst.setSquashed]
    · split <;> rfl
  · simpa [squashInstIt, ofThread, h] using Marked.refl s

theorem removeFrontInst_marked (s : InstList) (i : Nat) : Marked s [i] (s.removeFrontInst i) := by
  refine ⟨rfl, rfl, fun j => ?_, fun j => ?_, rfl, fun _ => rfl⟩ <;>
    simp only [removeFrontInst, Insts.modify_apply]
  · split <;> simp_all [DynInst.removeFromCPU]
  · split <;> rfl

/-- A walk marks what it passes, youngest first. -/
theorem squashWhile_marked {tid : Nat} {p : Nat → Bool} {l : List Nat} :
    ∀ {s : InstList}, squashWhile tid p l s = some s' →
      Marked s (s.ofThread tid (l.takeWhile p)) s' := by
  induction l with
  | nil => intro s h; simp [squashWhile] at h
  | cons i rest ih =>
    intro s h
    simp only [squashWhile] at h
    by_cases hi : p i = true
    · rw [if_pos hi] at h
      have hm := squashInstIt_marked s i tid
      have := hm.trans (ih h)
      rw [hm.ofThread_eq, ← ofThread_cons] at this
      simpa [List.takeWhile_cons, hi] using this
    · rw [if_neg hi] at h
      cases h
      simpa [List.takeWhile_cons, hi, ofThread] using Marked.refl s'

theorem removeInst_marked {i : Nat} (h : s.removeInst i = some s') :
    Marked s [i] s' ∧ s'.removeInstsThisCycle = true := by
  simp only [removeInst] at h
  split at h
  · cases h
    have hm := squashInstIt_marked s i (s.insts i).threadNumber
    exact ⟨by simpa [ofThread] using hm.trans (Marked.setRemoving _), rfl⟩
  · cases h

/-- Walking down to the front and marking it marks the whole list. -/
theorem takeWhile_reverse_front {front : Nat} {l : List Nat} (hl : (front :: l).Nodup) :
    (front :: l).reverse.takeWhile (· ≠ front) ++ [front] = (front :: l).reverse := by
  have hne : ∀ x ∈ l.reverse, decide (x ≠ front) = true := by
    intro x hx
    have : x ≠ front := by
      rintro rfl
      exact (List.nodup_cons.mp hl).1 (List.mem_reverse.mp hx)
    simpa using this
  rw [List.reverse_cons, List.takeWhile_append_of_pos hne]
  simp

theorem removeInstsNotInROB_marked {tid : Nat} {robTail : Option Nat} (hl : s.instList.Nodup)
    (h : s.removeInstsNotInROB tid robTail = some s') :
    Marked s (s.marks (.removeInstsNotInROB tid robTail)) s' ∧
      (s.marks (.removeInstsNotInROB tid robTail) = [] ∨ s'.removeInstsThisCycle = true) := by
  have hset := Marked.setRemoving s
  unfold removeInstsNotInROB at h
  cases hlist : s.instList with
  | nil =>
    have hnil : s.marks (.removeInstsNotInROB tid robTail) = [] := by
      cases robTail <;> simp [marks, hlist, ofThread]
    simp only [hlist, List.head?_nil, Option.some.injEq] at h
    subst h
    exact ⟨hnil ▸ Marked.refl s, .inl hnil⟩
  | cons front rest =>
    cases robTail with
    | some tail =>
      simp only [hlist, List.head?_cons] at h
      have hm := squashWhile_marked h
      have := hset.trans hm
      rw [hset.ofThread_eq, ← hlist] at this
      exact ⟨this, .inr (hm.removing rfl)⟩
    | none =>
      simp only [hlist, List.head?_cons, Option.bind_eq_bind, Option.bind_eq_some_iff,
        Option.pure_def, Option.some.injEq] at h
      obtain ⟨s₁, hwalk, rfl⟩ := h
      have hm := (squashWhile_marked hwalk).trans (squashInstIt_marked s₁ front tid)
      have := hset.trans hm
      rw [(squashWhile_marked hwalk).ofThread_eq, hset.ofThread_eq, hset.ofThread_eq,
        List.nil_append, ofThread, ofThread, ← List.filter_append,
        takeWhile_reverse_front (hlist ▸ hl), ← hlist] at this
      exact ⟨this, .inr (hm.removing rfl)⟩

theorem removeInstsNotInROB_globalSeqNum {tid : Nat} {robTail : Option Nat}
    (h : s.removeInstsNotInROB tid robTail = some s') : s'.globalSeqNum = s.globalSeqNum := by
  unfold removeInstsNotInROB at h
  split at h
  · cases h
    rfl
  · obtain ⟨t, ht, h⟩ := Option.bind_eq_some_iff.mp h
    cases h
    exact (squashInstIt_marked t _ tid).globalSeqNum.trans (squashWhile_marked ht).globalSeqNum
  · exact (squashWhile_marked h).globalSeqNum

theorem removeInstsUntil_marked {seqNum tid : Nat} (h : s.removeInstsUntil seqNum tid = some s') :
    Marked s (s.marks (.removeInstsUntil seqNum tid)) s' ∧ s'.removeInstsThisCycle = true := by
  have hset := Marked.setRemoving s
  have hm : Marked s.setRemoving _ s' := squashWhile_marked h
  have := hset.trans hm
  rw [hset.ofThread_eq] at this
  exact ⟨this, hm.removing rfl⟩

/-- What the operations that mark do: `l` is marked, and the end of the tick will clean up. -/
def MarkStep (s : InstList) (l : List Nat) (s' : InstList) : Prop :=
  Marked s l s' ∧ (l = [] ∨ s'.removeInstsThisCycle = true)

/-- An operation adds an instruction, marks instructions, or ends the tick. -/
theorem step_cases {op : Op} (hl : s.instList.Nodup) (h : s.step op = some s') :
    (∃ i inst, op = .addInst i inst ∧ s' = s.addInst i inst) ∨
    (MarkStep s (s.marks op) s' ∧ added [op] = []) ∨
    (op = .endTick ∧ s' = s.endTick) := by
  cases op with
  | addInst i inst => exact .inl ⟨i, inst, rfl, (Option.some.inj h).symm⟩
  | endTick => exact .inr (.inr ⟨rfl, (Option.some.inj h).symm⟩)
  | removeInst i => exact .inr (.inl ⟨(removeInst_marked h).imp id .inr, rfl⟩)
  | removeFrontInst i =>
    cases h
    exact .inr (.inl ⟨⟨removeFrontInst_marked s i, .inr rfl⟩, rfl⟩)
  | removeInstsNotInROB tid robTail => exact .inr (.inl ⟨removeInstsNotInROB_marked hl h, rfl⟩)
  | removeInstsUntil seqNum tid => exact .inr (.inl ⟨(removeInstsUntil_marked h).imp id .inr, rfl⟩)

end Marks

/-! ## What a squash does to the instructions -/

section Squashes

variable {s s' s'' : InstList} {l l' : List Nat} {i : Nat}

/-- `s'` is `s` after the instructions `l` were squashed and marked. -/
structure Squashes (s : InstList) (l : List Nat) (s' : InstList) : Prop where
  instList : s'.instList = s.instList
  globalSeqNum : s'.globalSeqNum = s.globalSeqNum
  insts : ∀ i, s'.insts i =
    if i ∈ l then (s.insts i).setSquashed.removeFromCPU else s.insts i

theorem Squashes.refl (s : InstList) : Squashes s [] s := ⟨rfl, rfl, fun i => by simp⟩

theorem Squashes.setRemoving (s : InstList) : Squashes s [] s.setRemoving :=
  ⟨rfl, rfl, fun i => by simp [InstList.setRemoving]⟩

theorem Squashes.trans (h : Squashes s l s') (h' : Squashes s' l' s'') :
    Squashes s (l ++ l') s'' := by
  refine ⟨h'.instList.trans h.instList, h'.globalSeqNum.trans h.globalSeqNum, fun i => ?_⟩
  rw [h'.insts, h.insts]
  by_cases hl : i ∈ l
  · by_cases hl' : i ∈ l' <;> simp [hl, hl', DynInst.setSquashed, DynInst.removeFromCPU]
  · by_cases hl' : i ∈ l' <;> simp [hl, hl']

theorem Squashes.congr (h : Squashes s l s') (hl : ∀ i, i ∈ l ↔ i ∈ l') : Squashes s l' s' :=
  ⟨h.instList, h.globalSeqNum, fun i => by simp only [h.insts, hl]⟩

theorem Squashes.squashed (h : Squashes s l s') (hi : (s.insts i).squashed = true) :
    (s'.insts i).squashed = true := by
  rw [h.insts]
  split
  · rfl
  · exact hi

theorem Squashes.threadNumber (h : Squashes s l s') (i : Nat) :
    (s'.insts i).threadNumber = (s.insts i).threadNumber := by
  rw [h.insts]
  split <;> rfl

variable {tid : Nat}

theorem squashInstIt_squashes (s : InstList) (i tid : Nat) :
    Squashes s (s.ofThread tid [i]) (s.squashInstIt i tid) := by
  by_cases h : (s.insts i).threadNumber = tid
  · have hl : s.ofThread tid [i] = [i] := by simp [ofThread, h]
    rw [squashInstIt, if_pos h, hl]
    refine ⟨rfl, rfl, fun j => ?_⟩
    simp only [Insts.modify_apply, List.mem_singleton]
  · have hl : s.ofThread tid [i] = [] := by simp [ofThread, h]
    rw [squashInstIt, if_neg h, hl]
    exact Squashes.refl s

theorem squashWhile_squashes {p : Nat → Bool} (h : squashWhile tid p l s = some s') :
    Squashes s (s.ofThread tid (l.takeWhile p)) s' := by
  induction l generalizing s with
  | nil => cases h
  | cons a l ih =>
    simp only [squashWhile] at h
    by_cases ha : p a = true
    · rw [if_pos ha] at h
      have hrest := ih h
      rw [(squashInstIt_marked s a tid).ofThread_eq] at hrest
      rw [List.takeWhile_cons_of_pos ha, ofThread_cons]
      exact (squashInstIt_squashes s a tid).trans hrest
    · rw [if_neg ha] at h
      obtain rfl : s = s' := Option.some.inj h
      rw [List.takeWhile_cons_of_neg ha]
      exact Squashes.refl s

theorem ofThread_self (ht : ∀ i, (s.insts i).threadNumber = tid) (l : List Nat) :
    s.ofThread tid l = l :=
  List.filter_eq_self.mpr fun i _ => by simpa using ht i

/-- Of a sorted list, the walk from the back passes what is younger than `n` if it stops at the
first instruction that is not. -/
theorem mem_takeWhile_reverse {p : Nat → Bool} {n : Nat} (hl : l.Pairwise (· < ·))
    (hpass : ∀ i ∈ l, n < i → p i = true)
    (hstop : ∀ i ∈ l, i ≤ n → (∀ j ∈ l, j ≤ n → j ≤ i) → p i = false) :
    i ∈ l.reverse.takeWhile p ↔ i ∈ l ∧ n < i := by
  induction l using List.reverseRecOn with
  | nil => simp
  | append_singleton l a ih =>
    rw [List.pairwise_append] at hl
    obtain ⟨hl, -, hla⟩ := hl
    have hlt : ∀ j ∈ l, j < a := fun j hj => hla j hj a List.mem_cons_self
    rw [List.reverse_append, List.reverse_singleton, List.singleton_append, List.takeWhile_cons]
    by_cases ha : n < a
    · have ih := ih hl (fun j hj => hpass j (List.mem_append_left _ hj)) fun j hj hjn hmax => by
        refine hstop j (List.mem_append_left _ hj) hjn fun k hk hkn => ?_
        rcases List.mem_append.mp hk with hk | hk
        · exact hmax k hk hkn
        · rw [List.mem_singleton] at hk
          omega
      rw [if_pos (hpass a (by simp) ha), List.mem_cons, ih, List.mem_append, List.mem_singleton]
      constructor
      · rintro (rfl | ⟨hi, hn⟩)
        · exact ⟨.inr rfl, ha⟩
        · exact ⟨.inl hi, hn⟩
      · rintro ⟨hi | rfl, hn⟩
        · exact .inr ⟨hi, hn⟩
        · exact .inl rfl
    · have hstop : p a = false := by
        refine hstop a (by simp) (by omega) fun j hj _ => ?_
        rcases List.mem_append.mp hj with hj | hj
        · exact Nat.le_of_lt (hlt j hj)
        · rw [List.mem_singleton] at hj
          omega
      rw [if_neg (by simp [hstop])]
      constructor
      · intro h
        cases h
      · rintro ⟨hi, hn⟩
        rcases List.mem_append.mp hi with hi | hi
        · have := hlt i hi
          omega
        · rw [List.mem_singleton] at hi
          omega

theorem removeInst_squashes {i : Nat} (ht : ∀ j, (s.insts j).threadNumber = tid)
    (h : s.removeInst i = some s') : Squashes s [i] s' := by
  simp only [removeInst] at h
  split at h
  · cases h
    have hwalk := (squashInstIt_squashes s i (s.insts i).threadNumber).trans (.setRemoving _)
    rw [ht i, ofThread_self ht] at hwalk
    rwa [ht i]
  · cases h

theorem removeInstsUntil_squashes {seqNum : Nat} (ht : ∀ i, (s.insts i).threadNumber = tid)
    (hsorted : s.instList.Pairwise (· < ·)) (h : s.removeInstsUntil seqNum tid = some s') :
    Squashes s (s.instList.filter (seqNum < ·)) s' := by
  have hwalk := (Squashes.setRemoving s).trans (squashWhile_squashes h)
  rw [ofThread_self (s := s.setRemoving) ht] at hwalk
  refine hwalk.congr fun i => ?_
  have hmem : i ∈ s.instList.reverse.takeWhile (seqNum < ·) ↔ i ∈ s.instList ∧ seqNum < i :=
    mem_takeWhile_reverse hsorted (fun j _ hj => by simpa using hj) fun j _ hj _ => by
      simpa using hj
  rw [List.nil_append, hmem]
  simp

/-- What is not in the ROB is what is younger than its tail, if it has one. -/
theorem removeInstsNotInROB_squashes {robTail : Option Nat}
    (ht : ∀ i, (s.insts i).threadNumber = tid) (hsorted : s.instList.Pairwise (· < ·))
    (htail : ∀ tail ∈ robTail, tail ∈ s.instList)
    (h : s.removeInstsNotInROB tid robTail = some s') :
    Squashes s (s.instList.filter fun i => robTail.all (· < i)) s' := by
  unfold removeInstsNotInROB at h
  cases hlist : s.instList with
  | nil =>
    simp only [hlist, List.head?_nil, Option.some.injEq] at h
    subst h
    simpa using Squashes.refl s
  | cons front rest =>
    cases robTail with
    | some tail =>
      simp only [hlist, List.head?_cons] at h
      have hwalk := (Squashes.setRemoving s).trans (squashWhile_squashes h)
      rw [ofThread_self (s := s.setRemoving) ht] at hwalk
      refine hwalk.congr fun i => ?_
      have htail := htail tail rfl
      rw [hlist] at htail hsorted
      have hmem : i ∈ (front :: rest).reverse.takeWhile (· ≠ tail) ↔
          i ∈ front :: rest ∧ tail < i := by
        refine mem_takeWhile_reverse hsorted (fun j _ hj => ?_) fun j _ hj hmax => ?_
        · have hne : j ≠ tail := by omega
          simpa using hne
        · have hle := hmax tail htail (Nat.le_refl tail)
          have heq : j = tail := by omega
          simpa using heq
      rw [List.nil_append, hmem]
      simp
    | none =>
      simp only [hlist, List.head?_cons, Option.bind_eq_bind, Option.bind_eq_some_iff,
        Option.pure_def, Option.some.injEq] at h
      obtain ⟨s₁, hwalk, rfl⟩ := h
      have hdown := squashWhile_squashes hwalk
      have hall := ((Squashes.setRemoving s).trans hdown).trans (squashInstIt_squashes s₁ front tid)
      rw [ofThread_self (s := s.setRemoving) ht,
        ofThread_self fun i => (hdown.threadNumber i).trans (ht i)] at hall
      refine hall.congr fun i => ?_
      rw [List.nil_append, takeWhile_reverse_front
        (hlist ▸ hsorted.imp Nat.ne_of_lt), List.mem_reverse]
      simp

end Squashes

end InstList
end Runahead
end Gem5
