import Gem5Runahead.PipelineWindow

/-!
# InstAges

What becomes of the instructions in flight over a run. The flags of an instruction that say what
has happened to it only go up, the ROB gives up its instructions from the oldest on, and what
comes to the line is younger than all that were ever in it.

* `Window.Ages` — one window is a later one of the same run.
* `Window.Step.ages`, `step_ages` — for a move of the window, and for a step of the pipeline.
-/

namespace Gem5
namespace Runahead

/-- The same instruction, at a later time. -/
structure DynInst.Ages (a b : DynInst) : Prop where
  same : b = { a with
    squashed := b.squashed, removePending := b.removePending, runahead := b.runahead,
    committed := b.committed, completed := b.completed, issued := b.issued,
    canCommit := b.canCommit, executed := b.executed, poisoned := b.poisoned, fault := b.fault }
  squashed : a.squashed = true → b.squashed = true
  executed : a.executed = true → b.executed = true
  poisoned : a.poisoned = true → b.poisoned = true
  runahead : a.runahead = true → b.runahead = true
  committed : a.committed = true → b.committed = true

namespace DynInst.Ages

variable {a b c : DynInst}

theorem refl (a : DynInst) : Ages a a := ⟨rfl, id, id, id, id, id⟩

theorem trans (h : Ages a b) (h' : Ages b c) : Ages a c where
  same := by rw [h'.same, h.same]
  squashed := h'.squashed ∘ h.squashed
  executed := h'.executed ∘ h.executed
  poisoned := h'.poisoned ∘ h.poisoned
  runahead := h'.runahead ∘ h.runahead
  committed := h'.committed ∘ h.committed

theorem of_steady (h : Steady a b) : Ages a b where
  same := by rw [h.same]
  squashed := h.squashed
  executed := h.executed
  poisoned := h.poisoned
  runahead hr := h.runahead.trans hr
  committed hc := h.committed.trans hc

theorem isLoad (h : Ages a b) : b.isLoad = a.isLoad := by rw [h.same]

end DynInst.Ages

namespace Window

variable {width : Nat} {v v' v'' : Window}

structure Ages (v v' : Window) : Prop where
  next : v.list.globalSeqNum ≤ v'.list.globalSeqNum
  insts : ∀ i < v.list.globalSeqNum, (v.insts i).Ages (v'.insts i)
  line : ∀ i ∈ v'.line, i ∈ v.line ∨ v.list.globalSeqNum ≤ i
  /-- What leaves the ROB has been its oldest instruction. -/
  passing : ∀ y ∈ v.rob.instList, y < v.list.globalSeqNum →
    y ∈ v'.rob.instList ∨ ∀ i ∈ v'.line, y < i

namespace Ages

theorem refl (v : Window) : Ages v v :=
  ⟨Nat.le_refl _, fun _ _ => .refl _, fun _ => .inl, fun _ hy _ => .inl hy⟩

theorem trans (h : Ages v v') (h' : Ages v' v'') : Ages v v'' where
  next := Nat.le_trans h.next h'.next
  insts i hi := (h.insts i hi).trans (h'.insts i (Nat.lt_of_lt_of_le hi h.next))
  line i hi := by
    rcases h'.line i hi with hi | hi
    · exact h.line i hi
    · exact .inr (Nat.le_trans h.next hi)
  passing y hy hlt := by
    have hlt' := Nat.lt_of_lt_of_le hlt h.next
    rcases h.passing y hy hlt with hy | hgone
    · exact h'.passing y hy hlt'
    · right
      intro i hi
      rcases h'.line i hi with hi | hi
      · exact hgone i hi
      · exact Nat.lt_of_lt_of_le hlt' hi

/-- The ROB and the line are the same, or the line is shorter behind the ROB. -/
theorem of_insts (hrob : v'.rob.instList = v.rob.instList) (hfront : v'.front ⊆ v.front)
    (hnext : v'.list.globalSeqNum = v.list.globalSeqNum)
    (hinsts : ∀ i, (v.insts i).Ages (v'.insts i)) : Ages v v' where
  next := Nat.le_of_eq hnext.symm
  insts i _ := hinsts i
  line i hi := by
    rcases List.mem_append.mp hi with hi | hi
    · exact .inl (List.mem_append_left _ (hrob ▸ hi))
    · exact .inl (List.mem_append_right _ (hfront hi))
  passing y hy _ := .inl (hrob ▸ hy)

theorem of_steady (hrob : v'.rob.instList = v.rob.instList) (hfront : v'.front ⊆ v.front)
    (hnext : v'.list.globalSeqNum = v.list.globalSeqNum)
    (hinsts : ∀ i, (v.insts i).Steady (v'.insts i)) : Ages v v' :=
  of_insts hrob hfront hnext fun i => .of_steady (hinsts i)

/-- Only what decides about the end of runahead, or the phase, is different. -/
theorem of_same (hrob : v'.rob = v.rob) (hfront : v'.front = v.front) (hlist : v'.list = v.list) :
    Ages v v' :=
  of_insts (hrob ▸ rfl) (hfront ▸ List.Subset.refl _) (hlist ▸ rfl) fun i => by
    rw [Window.insts, Window.insts, hlist]
    exact .refl _

theorem of_squashes {l : List Nat} {list : InstList} (h : v.list.Squashes l list)
    (hrob : v'.rob = v.rob) (hfront : v'.front = v.front) (hlist : v'.list = list) : Ages v v' :=
  of_insts (hrob ▸ rfl) (hfront ▸ List.Subset.refl _) (hlist ▸ h.globalSeqNum) fun i => by
    rw [Window.insts, Window.insts, hlist, h.insts]
    split
    · exact ⟨rfl, fun _ => rfl, id, id, id, id⟩
    · exact .refl _

theorem fetchInst {inst : DynInst} :
    Ages v { v with
      list := v.list.addInst v.list.globalSeqNum inst
      front := v.front ++ [v.list.globalSeqNum]
      markedIn := Function.update v.markedIn v.list.globalSeqNum v.period } where
  next := Nat.le_succ _
  insts i hi := by
    have heq : Function.update v.list.insts v.list.globalSeqNum inst i = v.list.insts i :=
      Function.update_of_ne (Nat.ne_of_lt hi) ..
    simp only [Window.insts, InstList.addInst, heq]
    exact .refl _
  line i hi := by
    simp only [Window.line, List.mem_append, List.mem_singleton] at hi ⊢
    rcases hi with hi | hi | rfl
    · exact .inl (.inl hi)
    · exact .inl (.inr hi)
    · exact .inr (Nat.le_refl _)
  passing y hy _ := .inl hy

theorem startSquash {n youngest : Nat} (hsorted : v.rob.instList.Pairwise (· < ·))
    (h : v.startSquash width n youngest = some v') : Ages v v' := by
  obtain ⟨rob, insts, rfl, hs, hlist, -⟩ := startSquash_cases hsorted h
  exact of_steady hlist (List.Subset.refl _) rfl hs

/-- The head leaves, and everything behind it is younger. -/
theorem retire {head lastCommited : Nat} {tail : List Nat} (ho : v.Order)
    (hhead : v.rob.instList = head :: tail) : Ages v { v.retire head with lastCommited } where
  next := Nat.le_refl _
  insts i _ := by
    simp only [Window.insts, Window.retire, InstList.removeFrontInst, InstList.setRemoving,
      Insts.modify_apply]
    by_cases hi : i = head
    · simp only [hi, if_true]
      exact ⟨rfl, id, id, id, id, fun _ => rfl⟩
    · simp only [hi, if_false]
      exact .refl _
  line i hi := by
    left
    have htail : (v.retire head).rob.instList ++ v.front = tail ++ v.front := by
      simp [Window.retire, ROB.retireHead, hhead]
    have hi : i ∈ tail ++ v.front := htail ▸ hi
    rw [Window.line, hhead]
    exact List.mem_cons_of_mem _ hi
  passing y hy _ := by
    have hline : v.line = head :: (tail ++ v.front) := by simp [Window.line, hhead]
    have htail : (v.retire head).rob.instList = tail := by
      simp [Window.retire, ROB.retireHead, hhead]
    rw [hhead] at hy
    rcases List.mem_cons.mp hy with rfl | hy
    · right
      intro i hi
      have hi : i ∈ tail ++ v.front := by
        have heq : (v.retire y).rob.instList ++ v.front = tail ++ v.front := by rw [htail]
        exact heq ▸ hi
      have hsorted := ho.sorted
      rw [hline] at hsorted
      exact (List.pairwise_cons.mp hsorted).1 i hi
    · exact .inl (htail ▸ hy)

theorem insert {l front : List Nat} {youngest : Nat} {p : Phase}
    (hl : (l ++ front).Sublist v.front) :
    Ages v { v with
      rob := { v.rob with instList := v.rob.instList ++ l }
      front, youngest, phase := p } where
  next := Nat.le_refl _
  insts i _ := .refl _
  line i hi := by
    left
    have hi : i ∈ v.rob.instList ++ (l ++ front) := by simpa [Window.line] using hi
    rcases List.mem_append.mp hi with hi | hi
    · exact List.mem_append_left _ hi
    · exact List.mem_append_right _ (hl.subset hi)
  passing y hy _ := .inl (List.mem_append_left _ hy)

theorem markRunahead {v' : Window} (hrob : v'.rob = v.rob) (hfront : v'.front = v.front)
    (hlist : v'.list = v.markRunahead.list) : Ages v v' :=
  of_insts (hrob ▸ rfl) (hfront ▸ List.Subset.refl _) (hlist ▸ rfl) fun i => by
    rw [Window.insts, Window.insts, hlist]
    simp only [Window.markRunahead, Window.setInsts]
    split
    · exact ⟨rfl, id, id, id, fun _ => rfl, id⟩
    · exact .refl _

end Ages

/-- A move leads to a later window. -/
theorem Step.ages (hstep : Step width v v') (h : v.Core) : v.Ages v' := by
  have hthread := h.order.threadNumber
  have hsorted := h.order.rob_sorted
  cases hstep with
  | insts hs => exact .of_steady rfl (List.Subset.refl _) rfl hs
  | front hf => exact .of_steady rfl hf.subset rfl fun _ => .refl _
  | signal | exit | tick | phase | walked | noSquash | squashing | commitStatus | fetchFault =>
    exact .of_same rfl rfl rfl
  | fetchSquash _ hlist =>
    refine .of_squashes (InstList.removeInstsNotInROB_squashes hthread h.order.listSorted ?_ hlist)
      rfl rfl rfl
    exact fun tail ht => (h.order.rob tail (List.mem_of_getLast? ht)).1
  | decodeSquash hn hlist =>
    exact .of_squashes (InstList.removeInstsUntil_squashes hthread h.order.listSorted hlist)
      rfl rfl rfl
  | fetchInst => exact .fetchInst
  | discard _ hlist =>
    exact .of_squashes (InstList.removeInst_squashes hthread hlist) rfl rfl rfl
  | walk hdone hrob =>
    obtain ⟨hlist, -, hmarks, -⟩ := ROB.doSquash_spec hdone (h.control.walking hdone) hrob
    exact .of_steady hlist (List.Subset.refl _) rfl (SquashMarks.steady hmarks)
  | squashAll _ hsquash =>
    exact (Ages.startSquash hsorted hsquash).trans (.of_same rfl rfl rfl)
  | runaheadExit _ _ _ hsquash =>
    have hleave : v.Ages v.leaveRunahead := .of_same rfl rfl rfl
    exact (hleave.trans (.startSquash hsorted hsquash)).trans (.of_same rfl rfl rfl)
  | accept _ _ hsquash => exact .startSquash hsorted hsquash
  | insert _ _ hl _ => exact .insert hl
  | retire _ hhead _ => exact .retire h.order hhead
  | enter => exact .markRunahead rfl rfl rfl
  | finish =>
    refine .of_insts rfl (List.Subset.refl _) (endTick_globalSeqNum v.list) fun i => ?_
    have heq : v.list.endTick.insts i = v.list.insts i := congrFun (endTick_insts v.list) i
    simp only [Window.insts, heq]
    exact .refl _

theorem steps_ages (hsteps : Relation.ReflTransGen (Step width) v v') (h : v.Core) :
    v.Ages v' := by
  induction hsteps with
  | refl => exact .refl _
  | tail hsteps hstep ih => exact ih.trans (hstep.ages (steps_core hsteps h))

end Window

namespace Pipeline

variable {cfg : PipelineParams} {s s' : Pipeline} {ls : List Label} {l : Label}

theorem step_ages (h : s.step cfg l = some s') (hs : s.window.Core) : s.window.Ages s'.window :=
  Window.steps_ages (step_sim h) hs

theorem step_core (h : s.step cfg l = some s') (hs : s.window.Core) : s'.window.Core :=
  Window.steps_core (step_sim h) hs

end Pipeline

end Runahead
end Gem5
