import Gem5Runahead.RequestFreed

/-!
# RunaheadMarks

The entry to runahead marks the instructions in flight, and each marks the request it has saved. A
request made later is marked when it is made. So a request is marked as its instruction is, unless
the instruction has not saved it: a request of an access in which no byte is enabled is installed in
the queue, but it is never saved; and a discarded request that is deleted late clears the pointer to
the newer one. The entry passes these by.

* `Consistent` — every request that is not released is marked as its instruction is.
* `marks_consistent` — every run keeps it that marks accesses with some byte enabled only; and what
  the entry does.
* `maskedBehind`, `discardedLate` — the runs that leave a request unmarked.
-/

namespace Gem5
namespace Runahead

namespace LSQWindow

def Consistent (s : LSQWindow) : Prop :=
  ∀ i r q, (s.insts i).requests.get? r = some q → q.isReleased = false →
    q.data.isRunahead = (s.insts i).runahead

/-- The entry marks the uncommitted instructions of the thread, and changes no other. -/
structure Marked (tid : Nat) (s s' : LSQWindow) : Prop where
  uncommitted : ∀ i ∈ s.instList, (s.insts i).threadNumber = tid →
    (s.insts i).committed = false → (s'.insts i).runahead = true
  others : ∀ i, i ∉ s.instList ∨ (s.insts i).threadNumber ≠ tid ∨
    (s.insts i).committed = true → s'.insts i = s.insts i
  same : s'.instList = s.instList ∧ ∀ i, (s'.insts i).threadNumber = (s.insts i).threadNumber ∧
    (s'.insts i).committed = (s.insts i).committed

/-- A load is not forwarded to, or put off, while packets of its request are on their way, and an
instruction that is marked at the entry has no request without sub-requests. -/
def Marking (s : LSQWindow) (op : WindowOp) : Prop := op.Unforwarded s ∧ op.Accessing s

variable {s s' : LSQWindow} {ls : List WindowOp} {tid : Nat}

theorem Inv.consistent (h : Inv True s) : s.Consistent := by
  intro i r q hr _
  obtain ⟨-, hl⟩ := (h.inst i).of_get hr
  exact hl.flag (.inr trivial)

theorem marked_of_reaches (h : (system.guard Marking).Reaches ls s) : Inv True s := by
  refine h.invariant ?_ ?_
  · rintro s rfl
    exact inv_init True
  · rintro s op s' hinv ⟨⟨hallowed, hstep⟩, hunforwarded, haccessing⟩
    obtain ⟨s'', hstep', hinv'⟩ := step_inv hinv hallowed hunforwarded fun _ => haccessing
    rw [hstep] at hstep'
    cases hstep'
    exact hinv'

theorem enterRunahead_marks (h : Inv False s) (he : s.Enters tid) :
    ∃ s', s.enterRunahead tid = some s' ∧ Marked tid s s' := by
  obtain ⟨s', henter, -, hmarked, hothers, hsame⟩ := enterRunahead_inv h he fun hf => hf.elim
  refine ⟨s', henter, hmarked, hothers, ?_, hsame⟩
  obtain ⟨insts, -, hs'⟩ := Option.bind_eq_some_iff.mp henter
  cases hs'
  rfl

/-- Every request is marked as its instruction is, the entry marks the uncommitted instructions and
no other, and no assertion fails. -/
theorem marks_consistent (h : (system.guard Marking).Reaches ls s) :
    s.Consistent ∧
      (∀ tid, s.Enters tid → ∃ s', s.enterRunahead tid = some s' ∧ Marked tid s s') ∧
      ∀ op : WindowOp, op.Allowed s → s.Marking op → s.step op ≠ none := by
  have hinv := marked_of_reaches h
  refine ⟨hinv.consistent, fun tid he => ?_, fun op hallowed hmarking => ?_⟩
  · exact enterRunahead_marks (inv_of_reaches (h.guard_mono fun _ _ hm => hm.1)) he
  · obtain ⟨s', hstep, -⟩ := step_inv hinv hallowed hmarking.1 fun _ => hmarking.2
    rw [hstep]
    exact fun hnone => nomatch hnone

/-! ## Requests that the entry passes by -/

/-- The first load misses at the head of the ROB. -/
def loadMisses : List WindowOp :=
  [.fetch 0 .load, .fetch 0 .load, .dispatch 1, .dispatch 2, .inst 1 .insert, .inst 2 .insert,
    .inst 1 (.pushRequest true false 1 0), .inst 1 (.readCache fun _ => ⟨true, false⟩)]

/-- The second load accesses nothing. It is executed while the first waits, and then the CPU enters
runahead. -/
def maskedBehind : List WindowOp :=
  loadMisses ++ [.inst 2 (.pushRequest false false 1 0), .enterRunahead 0]

/-- A store that covers the second load in part gets its address when the first of two packets has
been sent. The load is executed again, and has a new request when that packet comes back. -/
def discardedLate : List WindowOp :=
  loadMisses ++ [.inst 2 (.pushRequest true true 2 0),
    .inst 2 (.readCache fun i => ⟨i == 0, false⟩), .inst 2 .readPartial,
    .inst 2 (.pushRequest true true 2 0), .inst 2 (.dcacheResp 0 0 false), .enterRunahead 0]

/-- The first load waits for its data. -/
def loadWaits : LSQWindow := (loadMisses.foldlM LSQWindow.step {}).getD {}

theorem loadWaits_reaches : (system.guard Marking).Reaches loadMisses loadWaits := by
  have hstart : (system.guard Marking).Reaches [] {} := .start rfl
  have hfirst : (system.guard Marking).Reaches (loadMisses.take 1) _ :=
    hstart.snoc ⟨⟨trivial, rfl⟩, trivial, trivial⟩
  have hsecond : (system.guard Marking).Reaches (loadMisses.take 2) _ :=
    hfirst.snoc ⟨⟨trivial, rfl⟩, trivial, trivial⟩
  have hhead : (system.guard Marking).Reaches (loadMisses.take 3) _ :=
    hsecond.snoc ⟨⟨⟨by decide, fun _ => List.not_mem_nil⟩, rfl⟩, trivial, trivial⟩
  have hnew : ∀ tid : Nat, 2 ∉ Function.update (fun _ => ([] : List Nat)) 0 [1] tid := by
    intro tid
    by_cases htid : tid = 0
    · subst htid
      decide
    · rw [Function.update_of_ne htid]
      exact List.not_mem_nil
  have hbehind : (system.guard Marking).Reaches (loadMisses.take 4) _ :=
    hhead.snoc ⟨⟨⟨by decide, hnew⟩, rfl⟩, trivial, trivial⟩
  have hentry : (system.guard Marking).Reaches (loadMisses.take 5) _ :=
    hbehind.snoc ⟨⟨⟨by decide, ⟨by decide, rfl, rfl⟩, trivial⟩, rfl⟩, trivial, trivial⟩
  have hentries : (system.guard Marking).Reaches (loadMisses.take 6) _ :=
    hentry.snoc ⟨⟨⟨by decide, ⟨by decide, rfl, rfl⟩, trivial⟩, rfl⟩, trivial, trivial⟩
  have hpushed : (system.guard Marking).Reaches (loadMisses.take 7) _ :=
    hentries.snoc ⟨⟨⟨by decide, ⟨⟨by decide, rfl, rfl, by decide, rfl, rfl⟩, by decide, by decide,
      by decide⟩, trivial⟩, rfl⟩, trivial, trivial⟩
  have hsent : (system.guard Marking).Reaches loadMisses _ :=
    hpushed.snoc ⟨⟨⟨by decide, ⟨⟨by decide, rfl, rfl, by decide, rfl, rfl⟩, rfl, rfl, rfl,
      fun r hr q hq => by cases hr; cases hq; rfl⟩, trivial⟩, rfl⟩, trivial, trivial⟩
  exact hsent

theorem loadWaits_enters : loadWaits.Enters 0 := by
  refine ⟨rfl, ⟨1, rfl, rfl, rfl, rfl, rfl, 0, _, rfl, rfl, rfl, rfl⟩, fun i hi _ _ hrun => ?_⟩
  rcases List.mem_cons.mp hi with rfl | hi
  · cases hrun
  · obtain rfl := List.mem_singleton.mp hi
    cases hrun

theorem marks_consistent_loadWaits : loadWaits.Consistent ∧
    ∃ s', loadWaits.enterRunahead 0 = some s' ∧ Marked 0 loadWaits s' := by
  obtain ⟨hconsistent, henter, -⟩ := marks_consistent loadWaits_reaches
  exact ⟨hconsistent, henter 0 loadWaits_enters⟩

theorem not_marks_consistent : (∃ s, system.Reaches maskedBehind s ∧ ¬ s.Consistent) ∧
    ∃ s, system.Reaches discardedLate s ∧ ¬ s.Consistent := by
  refine ⟨?_, ?_⟩
  · have hmasked : system.Reaches (maskedBehind.take 9) _ :=
      loadWaits_reaches.of_guard.snoc ⟨⟨by decide, ⟨⟨by decide, rfl, rfl, by decide, rfl, rfl⟩,
        by decide, by decide, by decide⟩, trivial⟩, rfl⟩
    have henters : system.Reaches maskedBehind _ :=
      hmasked.snoc ⟨⟨rfl, ⟨1, rfl, rfl, rfl, rfl, rfl, 0, _, rfl, rfl, rfl, rfl⟩,
        by decide⟩, rfl⟩
    refine ⟨_, henters, fun hconsistent => ?_⟩
    have heq := hconsistent 2 0 _ rfl rfl
    cases heq
  · have hpushed : system.Reaches (discardedLate.take 9) _ :=
      loadWaits_reaches.of_guard.snoc ⟨⟨by decide, ⟨⟨by decide, rfl, rfl, by decide, rfl, rfl⟩,
        by decide, by decide, by decide⟩, trivial⟩, rfl⟩
    have hsent : system.Reaches (discardedLate.take 10) _ :=
      hpushed.snoc ⟨⟨by decide, ⟨⟨by decide, rfl, rfl, by decide, rfl, rfl⟩, rfl, rfl, rfl,
        fun r hr q hq => by cases hr; cases hq; rfl⟩, trivial⟩, rfl⟩
    have hdiscarded : system.Reaches (discardedLate.take 11) _ :=
      hsent.snoc ⟨⟨by decide, ⟨⟨by decide, rfl, rfl, by decide, rfl, rfl⟩, rfl, rfl, rfl,
        fun r hr q hq => by cases hr; cases hq; rfl⟩, trivial⟩, rfl⟩
    have hpushedAgain : system.Reaches (discardedLate.take 12) _ :=
      hdiscarded.snoc ⟨⟨by decide, ⟨⟨by decide, rfl, rfl, by decide, rfl, rfl⟩,
        by decide, by decide, by decide⟩, trivial⟩, rfl⟩
    have hdeleted : system.Reaches (discardedLate.take 13) _ :=
      hpushedAgain.snoc ⟨⟨by decide, ⟨by decide, _, rfl, List.mem_singleton_self 0⟩, trivial⟩, rfl⟩
    have henters : system.Reaches discardedLate _ :=
      hdeleted.snoc ⟨⟨rfl, ⟨1, rfl, rfl, rfl, rfl, rfl, 0, _, rfl, rfl, rfl, rfl⟩,
        by decide⟩, rfl⟩
    refine ⟨_, henters, fun hconsistent => ?_⟩
    have heq := hconsistent 2 1 _ rfl rfl
    cases heq

end LSQWindow
end Runahead
end Gem5
