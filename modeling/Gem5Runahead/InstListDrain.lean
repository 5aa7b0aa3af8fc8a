import Gem5Runahead.InstList

/-!
# InstListDrain

What the instruction list holds at the end of a tick, over any run of the operations.

* `cleaned_instList` — the cleanup works: the list holds exactly the added instructions that are
  not marked, in fetch order.
* `removeList_grows` — nothing ever leaves `removeList`: its loop in `cleanUpRemovedInsts` is
  commented out.
* `drainable_iff` — so the bookkeeping lets the CPU drain exactly in the runs in which no
  instruction was ever marked.
-/

namespace Gem5
namespace Runahead
namespace InstList

/-- The instruction is not marked for removal. -/
def live (s : InstList) (i : Nat) : Bool := !(s.insts i).removePending

section Invariant

variable {s s' : InstList} {ops : List Op} {l : List Nat}

structure Inv (ops : List Op) (s : InstList) : Prop where
  increasing : (added ops).Pairwise (· < ·)
  below : ∀ i ∈ added ops, i < s.globalSeqNum
  sublist : s.instList.Sublist (added ops)
  live_eq : s.instList.filter s.live = (added ops).filter s.live
  clean : s.removeInstsThisCycle = false → ∀ i ∈ s.instList, s.live i = true

theorem Inv.nodup (h : Inv ops s) : s.instList.Nodup :=
  (h.increasing.imp Nat.ne_of_lt).sublist h.sublist

theorem added_append (ops ops' : List Op) : added (ops ++ ops') = added ops ++ added ops' :=
  List.filterMap_append ..

theorem Inv.addInst (h : Inv ops s) (inst : DynInst) (hinst : inst.removePending = false) :
    Inv (ops ++ [.addInst s.globalSeqNum inst]) (s.addInst s.globalSeqNum inst) := by
  have hadd : added (ops ++ [.addInst s.globalSeqNum inst]) = added ops ++ [s.globalSeqNum] :=
    added_append ..
  have hold : ∀ i ∈ added ops, (s.addInst s.globalSeqNum inst).live i = s.live i := by
    intro i hi
    have hne : i ≠ s.globalSeqNum := Nat.ne_of_lt (h.below i hi)
    simp [live, InstList.addInst, Function.update_of_ne hne]
  have hnew : (s.addInst s.globalSeqNum inst).live s.globalSeqNum = true := by
    simp [live, InstList.addInst, hinst]
  refine ⟨?_, ?_, ?_, ?_, ?_⟩
  · rw [hadd, List.pairwise_append]
    exact ⟨h.increasing, List.pairwise_singleton .., by simpa using h.below⟩
  · intro i hi
    rw [hadd, List.mem_append, List.mem_singleton] at hi
    change i < s.globalSeqNum + 1
    rcases hi with hi | rfl
    · exact Nat.lt_succ_of_lt (h.below i hi)
    · exact Nat.lt_succ_self _
  · rw [hadd]
    exact h.sublist.append (List.Sublist.refl _)
  · rw [hadd]
    change (s.instList ++ [s.globalSeqNum]).filter _ = _
    rw [List.filter_append, List.filter_append, List.filter_congr hold,
      List.filter_congr fun i hi => hold i (h.sublist.subset hi), h.live_eq]
  · intro hc i hi
    change i ∈ s.instList ++ [s.globalSeqNum] at hi
    rw [List.mem_append, List.mem_singleton] at hi
    rcases hi with hi | rfl
    · rw [hold i (h.sublist.subset hi)]
      exact h.clean hc i hi
    · exact hnew

theorem Marked.live_le (h : Marked s l s') {i : Nat} (hi : s'.live i = true) :
    s.live i = true := by
  simp only [live, h.removePending, Bool.not_or, Bool.and_eq_true] at hi ⊢
  exact hi.1

theorem Marked.filter_live (h : Marked s l s') (l' : List Nat) :
    (l'.filter s.live).filter s'.live = l'.filter s'.live := by
  rw [List.filter_filter]
  refine List.filter_congr fun i _ => ?_
  cases hi : s'.live i with
  | false => rfl
  | true => simp [h.live_le hi]

theorem Inv.mark {op : Op} (h : Inv ops s) (hm : MarkStep s l s') (hop : added [op] = []) :
    Inv (ops ++ [op]) s' := by
  obtain ⟨hm, hcycle⟩ := hm
  have hadd : added (ops ++ [op]) = added ops := by rw [added_append, hop, List.append_nil]
  refine ⟨hadd ▸ h.increasing, ?_, ?_, ?_, ?_⟩
  · rw [hadd, hm.globalSeqNum]
    exact h.below
  · rw [hadd, hm.instList]
    exact h.sublist
  · rw [hadd, hm.instList, ← hm.filter_live s.instList, h.live_eq, hm.filter_live]
  · intro hc i hi
    rw [hm.instList] at hi
    rcases hcycle with rfl | hcycle
    · have hs : s.removeInstsThisCycle = false := by
        cases hr : s.removeInstsThisCycle with
        | false => rfl
        | true => rw [hm.removing hr] at hc; cases hc
      have := h.clean hs i hi
      simpa [live, hm.removePending] using this
    · rw [hcycle] at hc; cases hc

theorem Inv.endTick (h : Inv ops s) : Inv (ops ++ [.endTick]) s.endTick := by
  have hadd : added (ops ++ [.endTick]) = added ops := by simp [added]
  unfold InstList.endTick
  split
  · refine ⟨hadd ▸ h.increasing, hadd ▸ h.below, ?_, ?_, ?_⟩
    · rw [hadd]
      exact List.filter_sublist.trans h.sublist
    · rw [hadd]
      change (s.instList.filter s.live).filter s.live = _
      rw [List.filter_filter]
      simp only [Bool.and_self]
      exact h.live_eq
    · intro _ i hi
      exact (List.mem_filter.mp hi).2
  · exact ⟨hadd ▸ h.increasing, hadd ▸ h.below, hadd ▸ h.sublist, hadd ▸ h.live_eq, h.clean⟩

theorem inv (h : system.Reaches ops s) : Inv ops s := by
  refine h.history (I := Inv) ?_ ?_
  · rintro _ ⟨insts, rfl⟩
    exact ⟨.nil, by simp [added], .refl _, rfl, by simp⟩
  · rintro ops s op s' ih ⟨hfresh, hst⟩
    rcases step_cases ih.nodup hst with ⟨i, inst, rfl, rfl⟩ | ⟨hm, hop⟩ | ⟨rfl, rfl⟩
    · obtain ⟨rfl, hinst⟩ := hfresh
      exact ih.addInst inst hinst
    · exact ih.mark hm hop
    · exact ih.endTick

/-- The end of a tick leaves no marked instruction in the list. -/
theorem endTick_live (h : Inv ops s) : ∀ i ∈ s.endTick.instList, s.endTick.live i = true := by
  intro i hi
  simp only [InstList.endTick] at hi ⊢
  by_cases hc : s.removeInstsThisCycle = true
  · rw [if_pos hc] at hi ⊢
    exact (List.mem_filter.mp hi).2
  · rw [if_neg hc] at hi ⊢
    exact h.clean (by simpa using hc) i hi

/-- After the tick's cleanup the list holds exactly the added instructions that are not marked,
in fetch order, whatever was marked and how often. -/
theorem cleaned_instList (h : system.Reaches (ops ++ [.endTick]) s) :
    s.instList = (added (ops ++ [.endTick])).filter s.live ∧ s.instList.Nodup := by
  obtain ⟨t, ht, -, hst⟩ := h.of_snoc
  cases hst
  have hi := inv h
  refine ⟨?_, hi.nodup⟩
  rw [← hi.live_eq, List.filter_eq_self.mpr (endTick_live (inv ht))]

end Invariant

section Drain

variable {s s' : InstList} {ops : List Op}

theorem removeList_grows {op : Op} (hl : s.instList.Nodup) (h : s.step op = some s') :
    s'.removeList = s.removeList ++ s.marks op := by
  rcases step_cases hl h with ⟨i, inst, rfl, rfl⟩ | ⟨⟨hm, -⟩, -⟩ | ⟨rfl, rfl⟩
  · exact (List.append_nil _).symm
  · exact hm.removeList
  · change s.endTick.removeList = s.removeList ++ []
    rw [List.append_nil]
    unfold InstList.endTick
    split <;> rfl

/-- The system without the steps that mark an instruction for removal. -/
def unmarked : Transition.System InstList Op := system.guard fun s op => s.marks op = []

theorem unmarked_removeList (h : unmarked.Reaches ops s) : s.removeList = [] := by
  have hi : system.Reaches ops s ∧ s.removeList = [] := by
    refine h.history (I := fun ops s => system.Reaches ops s ∧ s.removeList = []) ?_ ?_
    · rintro _ ⟨insts, rfl⟩
      exact ⟨.start ⟨insts, rfl⟩, rfl⟩
    · rintro ops s op s' ⟨hr, he⟩ ⟨hst, hmarks⟩
      refine ⟨hr.snoc hst, ?_⟩
      rw [removeList_grows (inv hr).nodup hst.2, he, hmarks, List.append_nil]
  exact hi.2

theorem unmarked_of_removeList (h : system.Reaches ops s) : s.removeList = [] →
    unmarked.Reaches ops s := by
  have hi : system.Reaches ops s ∧ (s.removeList = [] → unmarked.Reaches ops s) := by
    refine h.history (I := fun ops s => system.Reaches ops s ∧
      (s.removeList = [] → unmarked.Reaches ops s)) ?_ ?_
    · exact fun s hs => ⟨.start hs, fun _ => .start hs⟩
    · rintro ops s op s' ⟨hr, ih⟩ hst
      refine ⟨hr.snoc hst, fun he => ?_⟩
      rw [removeList_grows (inv hr).nodup hst.2, List.append_eq_nil_iff] at he
      exact (ih he.1).snoc ⟨hst, he.2⟩
  exact hi.2

/-- What the bookkeeping promises after a tick's cleanup: the list holds the added instructions
that are not marked, each once and in fetch order, nothing is left to be removed, and the CPU is
drained as soon as its stages are and the list is empty. -/
structure Drainable (ops : List Op) (s : InstList) : Prop where
  instList : s.instList = (added ops).filter s.live
  nodup : s.instList.Nodup
  removeList : s.removeList = []
  drained : ∀ g : Stages, g.drained = true → s.instList = [] → s.isCpuDrained g = true

/-- **Draining.** After the cleanup of a tick the bookkeeping is as promised exactly when no
operation of the run marked an instruction. -/
theorem drainable_iff (h : system.Reaches (ops ++ [.endTick]) s) :
    Drainable (ops ++ [.endTick]) s ↔ unmarked.Reaches (ops ++ [.endTick]) s := by
  constructor
  · intro hd
    exact unmarked_of_removeList h hd.removeList
  · intro hu
    obtain ⟨hlist, hnodup⟩ := cleaned_instList h
    have hrem := unmarked_removeList hu
    refine ⟨hlist, hnodup, hrem, ?_⟩
    intro g hg he
    simp [isCpuDrained, he, hrem, hg]

/-- An instruction is fetched, and nothing is marked yet. -/
theorem drainable_iff_fetch :
    Drainable [.addInst 1 {}, .endTick]
      ⟨Function.update (fun _ => {}) 1 {}, [1], [], false, 2⟩ := by
  have h : unmarked.Reaches [] ⟨fun _ => {}, [], [], false, 1⟩ := .start ⟨_, rfl⟩
  have h : unmarked.Reaches [.addInst 1 {}] _ := h.snoc ⟨⟨⟨rfl, rfl⟩, rfl⟩, rfl⟩
  have h : unmarked.Reaches ([.addInst 1 {}] ++ [.endTick]) _ := h.snoc ⟨⟨trivial, rfl⟩, rfl⟩
  exact (drainable_iff h.of_guard).mpr h

/-- One instruction is fetched and retired: the list is empty and every stage is drained, but the
CPU is not. -/
theorem retired_not_drained :
    ∃ s, system.Reaches [.addInst 1 {}, .removeFrontInst 1, .endTick] s ∧ s.instList = [] ∧
      s.removeList = [1] ∧ s.isCpuDrained ⟨true, true, true, true, true⟩ = false := by
  have h : system.Reaches [] ⟨fun _ => {}, [], [], false, 1⟩ := .start ⟨_, rfl⟩
  have h : system.Reaches [.addInst 1 {}] _ := h.snoc ⟨⟨rfl, rfl⟩, rfl⟩
  have h : system.Reaches [.addInst 1 {}, .removeFrontInst 1] _ := h.snoc ⟨trivial, rfl⟩
  exact ⟨_, h.snoc ⟨trivial, rfl⟩, rfl, rfl, rfl⟩

end Drain

end InstList
end Runahead
end Gem5
