import Gem5Runahead.WakeUp
import Mathlib.Data.List.Nodup
import Mathlib.Data.List.TakeWhile

/-!
# WakeUpInv

No operand is lost, and none is waited for in vain.

* `Inv` — the entries of an instruction in the dependency graph are the operands that it waits for,
  each of which an older instruction of the queue is to produce.
* `wakeDest_inv`, `squashInst_inv`, `insert_inv` — what the operations keep.
* `never_fails` — no assertion of the queue fails, and rename's registers never make it panic.
* `readied_iff` — an instruction is found to be ready once, when its last operand is written.
-/

namespace Gem5
namespace Runahead

namespace WakeInst

variable {w : WakeInst} {k : Nat}

/-- Operands of `w` were marked ready `k` times. -/
def marked : Nat → WakeInst → WakeInst
  | 0, w => w
  | k + 1, w => marked k w.markSrcRegReady

@[simp] theorem marked_zero : w.marked 0 = w := rfl

theorem marked_succ : w.marked (k + 1) = (w.markSrcRegReady).marked k := rfl

/-- Only the number of ready registers, and what follows from it, is different. -/
theorem marked_eq : ∃ canIssue, w.marked k = { w with readyRegs := w.readyRegs + k, canIssue } := by
  induction k generalizing w with
  | zero => exact ⟨w.canIssue, rfl⟩
  | succ k ih =>
    obtain ⟨canIssue, heq⟩ := @ih w.markSrcRegReady
    refine ⟨canIssue, ?_⟩
    rw [marked_succ, heq, markSrcRegReady, Nat.add_assoc, Nat.add_comm 1 k]

@[simp] theorem marked_readyRegs : (w.marked k).readyRegs = w.readyRegs + k := by
  obtain ⟨_, heq⟩ := marked_eq (w := w) (k := k)
  rw [heq]

@[simp] theorem marked_flags : (w.marked k).flags = w.flags := by
  obtain ⟨_, heq⟩ := marked_eq (w := w) (k := k)
  rw [heq]

@[simp] theorem marked_srcs : (w.marked k).srcs = w.srcs := by
  obtain ⟨_, heq⟩ := marked_eq (w := w) (k := k)
  rw [heq]

@[simp] theorem marked_dests : (w.marked k).dests = w.dests := by
  obtain ⟨_, heq⟩ := marked_eq (w := w) (k := k)
  rw [heq]

@[simp] theorem marked_woken : (w.marked k).woken = w.woken := by
  obtain ⟨_, heq⟩ := marked_eq (w := w) (k := k)
  rw [heq]

@[simp] theorem marked_issued : (w.marked k).issued = w.issued := by
  obtain ⟨_, heq⟩ := marked_eq (w := w) (k := k)
  rw [heq]

@[simp] theorem marked_squashedInIQ : (w.marked k).squashedInIQ = w.squashedInIQ := by
  obtain ⟨_, heq⟩ := marked_eq (w := w) (k := k)
  rw [heq]

/-- The flag says that all the registers are ready, as long as none is marked twice. -/
def FlagOk (w : WakeInst) : Prop := w.canIssue = (w.readyRegs == w.srcs.length)

theorem FlagOk.marked (h : w.FlagOk) (hk : w.readyRegs + k ≤ w.srcs.length) :
    (w.marked k).FlagOk := by
  induction k generalizing w with
  | zero => exact h
  | succ k ih =>
    rw [marked_succ]
    refine ih ?_ (by simp only [markSrcRegReady]; omega)
    have hne : (w.readyRegs == w.srcs.length) = false := by
      rw [beq_eq_false_iff_ne]
      omega
    rw [FlagOk] at h
    rw [FlagOk, markSrcRegReady, h, hne, Bool.false_or]

end WakeInst

namespace WakeUp

variable {isFixedMapping : Nat → Bool} {s s' : WakeUp} {i j k d r : Nat} {l chain : List Nat}
  {srcs : List SrcReg} {src : SrcReg}

section Chain

/-- The instruction waits for its operands in the dependency graph. -/
def Tracked (s : WakeUp) (i : Nat) : Prop := (s.inst i).flags.insertKind = .insert

instance (s : WakeUp) (i : Nat) : Decidable (s.Tracked i) := inferInstanceAs (Decidable (_ = _))

/-- The operand is still to be produced. -/
def waits (isFixedMapping regScoreboard : Nat → Bool) (src : SrcReg) : Bool :=
  !src.ready && !isFixedMapping src.reg && !regScoreboard src.reg

def waitsOn (isFixedMapping regScoreboard : Nat → Bool) (r : Nat) (src : SrcReg) : Bool :=
  src.reg == r && waits isFixedMapping regScoreboard src

/-- What the loop over a chain comes to: it finds each instruction ready whose last operands these
are. -/
theorem wakeChain_spec (hflag : ∀ i ∈ chain, (s.inst i).FlagOk)
    (hcount : ∀ i ∈ chain, (s.inst i).readyRegs + chain.count i ≤ (s.inst i).srcs.length) :
    ∃ new, wakeChain chain s =
        { s with
          inst := fun i => (s.inst i).marked (chain.count i), readied := s.readied ++ new } ∧
      new.Nodup ∧ ∀ i, i ∈ new ↔
        i ∈ chain ∧ (s.inst i).readyRegs + chain.count i = (s.inst i).srcs.length := by
  induction chain generalizing s with
  | nil => exact ⟨[], by simp [wakeChain], .nil, by simp⟩
  | cons i chain ih =>
    have hi := hcount i List.mem_cons_self
    rw [List.count_cons_self] at hi
    let t := (s.modifyInst i WakeInst.markSrcRegReady).addIfReady i
    have hinst : t.inst = Function.update s.inst i (s.inst i).markSrcRegReady := by
      simp only [t, addIfReady]
      split <;> rfl
    have hself : t.inst i = (s.inst i).markSrcRegReady := by rw [hinst, Function.update_self]
    have hother : ∀ j, j ≠ i → t.inst j = s.inst j := fun j hj => by
      rw [hinst, Function.update_of_ne hj]
    obtain ⟨new, heq, hnodup, hnew⟩ := @ih t (fun j hj => by
      by_cases hji : j = i
      · subst hji
        rw [hself]
        exact (hflag j List.mem_cons_self).marked (k := 1) (by omega)
      · rw [hother j hji]
        exact hflag j (List.mem_cons_of_mem i hj)) (fun j hj => by
      by_cases hji : j = i
      · subst hji
        rw [hself]
        simp only [WakeInst.markSrcRegReady]
        omega
      · have hj' := hcount j (List.mem_cons_of_mem i hj)
        rw [List.count_cons_of_ne (Ne.symm hji)] at hj'
        rwa [hother j hji])
    have hmarked : (fun j => (t.inst j).marked (chain.count j)) =
        fun j => (s.inst j).marked ((i :: chain).count j) := by
      funext j
      by_cases hji : j = i
      · subst hji
        rw [hself, List.count_cons_self, WakeInst.marked_succ]
      · rw [hother j hji, List.count_cons_of_ne (Ne.symm hji)]
    have hmem : ∀ j, j ∈ new ↔ j ∈ chain ∧
        (s.inst j).readyRegs + (i :: chain).count j = (s.inst j).srcs.length := by
      intro j
      rw [hnew]
      by_cases hji : j = i
      · subst hji
        rw [hself, List.count_cons_self]
        simp only [WakeInst.markSrcRegReady, Nat.add_assoc, Nat.add_comm 1]
      · rw [hother j hji, List.count_cons_of_ne (Ne.symm hji)]
    have hcan : (s.inst i).markSrcRegReady.canIssue =
        ((s.inst i).readyRegs + 1 == (s.inst i).srcs.length) :=
      (hflag i List.mem_cons_self).marked (k := 1) (by omega)
    have hloop : wakeChain (i :: chain) s = wakeChain chain t := rfl
    rw [hloop, heq, hmarked]
    cases hready : (s.inst i).markSrcRegReady.canIssue with
    | true =>
      -- the last operand: no entry is left
      rw [hready] at hcan
      have hlast : (s.inst i).readyRegs + 1 = (s.inst i).srcs.length := by simpa using hcan.symm
      have hnot : i ∉ chain := List.count_eq_zero.mp (by omega)
      have ht : t = { s.modifyInst i WakeInst.markSrcRegReady with readied := s.readied ++ [i] } := by
        simp [t, addIfReady, modifyInst, hready]
      refine ⟨i :: new, by simp [ht, modifyInst], List.nodup_cons.mpr ⟨fun hin => ?_, hnodup⟩,
        fun j => ?_⟩
      · exact hnot ((hmem i).mp hin).1
      · rw [List.mem_cons, hmem, List.mem_cons]
        constructor
        · rintro (rfl | ⟨hj, hsum⟩)
          · rw [List.count_cons_self, List.count_eq_zero.mpr hnot]
            exact ⟨.inl rfl, hlast⟩
          · exact ⟨.inr hj, hsum⟩
        · rintro ⟨rfl | hj, hsum⟩
          · exact .inl rfl
          · exact .inr ⟨hj, hsum⟩
    | false =>
      rw [hready] at hcan
      have hmore : (s.inst i).readyRegs + 1 ≠ (s.inst i).srcs.length := by simpa using hcan.symm
      have ht : t = s.modifyInst i WakeInst.markSrcRegReady := by
        simp [t, addIfReady, modifyInst, hready]
      refine ⟨new, by simp [ht, modifyInst], hnodup, fun j => ?_⟩
      rw [hmem, List.mem_cons]
      constructor
      · rintro ⟨hj, hsum⟩
        exact ⟨.inr hj, hsum⟩
      · rintro ⟨rfl | hj, hsum⟩
        · refine ⟨?_, hsum⟩
          by_contra hnot
          rw [List.count_cons_self, List.count_eq_zero.mpr hnot] at hsum
          exact hmore hsum
        · exact ⟨hj, hsum⟩

end Chain

section Invariant

/-- What holds of the instructions `l` of the queue. -/
structure InvOn (isFixedMapping : Nat → Bool) (s : WakeUp) (l : List Nat) : Prop where
  sorted : l.Pairwise (· < ·)
  youngest : ∀ i ∈ l, i ≤ s.youngest
  kinds : ∀ i ∈ l, (s.inst i).flags.removesDependents = true ↔ s.Tracked i
  /-- The entries of an instruction in a chain are the operands that wait for the register. -/
  chain : ∀ r i, (s.graph.dependents r).count i =
    if i ∈ l ∧ (s.inst i).flags.insertKind = .insert then
      (s.inst i).srcs.countP (waitsOn isFixedMapping s.regScoreboard r) else 0
  counted : ∀ i ∈ l, s.Tracked i → (s.inst i).readyRegs +
    (s.inst i).srcs.countP (waits isFixedMapping s.regScoreboard) = (s.inst i).srcs.length
  flag : ∀ i ∈ l, s.Tracked i → (s.inst i).FlagOk
  readied : ∀ i ∈ l, s.Tracked i →
    (i ∈ s.readied ↔ (s.inst i).readyRegs = (s.inst i).srcs.length)
  once : s.readied.Nodup
  seen : ∀ i ∈ s.readied, i ≤ s.youngest
  nonSpec : ∀ i ∈ s.nonSpecInsts, i ∈ l ∧ ¬ s.Tracked i ∧ i ∉ s.readied
  nonSpecOnce : s.nonSpecInsts.Nodup
  /-- An operand waits for an older instruction that has not been executed. -/
  produced : ∀ i ∈ l, s.Tracked i → ∀ src ∈ (s.inst i).srcs,
    waits isFixedMapping s.regScoreboard src = true →
    ∃ p ∈ l, p < i ∧ src.reg ∈ (s.inst p).dests ∧ (s.inst p).woken = false
  /-- A register has one producer, that is older than those who read it. -/
  used : ∀ p ∈ l, ∀ dest ∈ (s.inst p).dests, isFixedMapping dest = false →
    (∀ j ∈ l, dest ∈ (s.inst j).dests → j = p) ∧
      ∀ j ∈ l, ∀ src ∈ (s.inst j).srcs, src.reg = dest → p < j
  woken : ∀ i ∈ l, (s.inst i).woken = true → i ∈ s.readied ∧
    ∀ dest ∈ (s.inst i).dests, isFixedMapping dest = false → s.regScoreboard dest = true
  issued : ∀ i ∈ l, (s.inst i).issued = true → i ∈ s.readied
  inIQ : ∀ i ∈ l, (s.inst i).squashedInIQ = false

def Inv (isFixedMapping : Nat → Bool) (s : WakeUp) : Prop := s.InvOn isFixedMapping s.instList

variable {regScoreboard : Nat → Bool}

theorem waits_ready (h : waits isFixedMapping regScoreboard src = true) :
    src.ready = false ∧ isFixedMapping src.reg = false ∧ regScoreboard src.reg = false := by
  simpa [waits, and_assoc] using h

/-- What waits for a register is not written. -/
theorem countP_waitsOn_eq_zero (h : regScoreboard r = true) :
    srcs.countP (waitsOn isFixedMapping regScoreboard r) = 0 := by
  refine List.countP_eq_zero.mpr fun src _ hw => ?_
  simp only [waitsOn, Bool.and_eq_true, beq_iff_eq] at hw
  obtain ⟨rfl, hw⟩ := hw
  rw [(waits_ready hw).2.2] at h
  cases h

theorem InvOn.dependents_eq_nil (h : s.InvOn isFixedMapping l) (hr : s.regScoreboard r = true) :
    s.graph.dependents r = [] := by
  refine List.eq_nil_iff_forall_not_mem.mpr fun i hi => ?_
  have hcount := h.chain r i
  rw [countP_waitsOn_eq_zero hr, ite_self] at hcount
  exact List.count_eq_zero.mp hcount hi

/-- An instruction that was found ready has no entry left. -/
theorem InvOn.no_entry (h : s.InvOn isFixedMapping l) (hi : i ∈ l) (hready : i ∈ s.readied) (r : Nat) :
    (s.graph.dependents r).count i = 0 := by
  rw [h.chain]
  split
  · rename_i htracked
    have hall := (h.readied i hi htracked.2).mp hready
    have hcount := h.counted i hi htracked.2
    have hnone : (s.inst i).srcs.countP (waits isFixedMapping s.regScoreboard) = 0 := by omega
    refine List.countP_eq_zero.mpr fun src hsrc hw => List.countP_eq_zero.mp hnone src hsrc ?_
    simp only [waitsOn, Bool.and_eq_true] at hw
    exact hw.2
  · rfl

end Invariant

section Wake

/-- After a register is written, an operand waits if it waited, and for another one. -/
theorem waits_update : waits isFixedMapping (Function.update s.regScoreboard d true) =
    fun src => waits isFixedMapping s.regScoreboard src && src.reg != d := by
  funext src
  by_cases hd : src.reg = d
  · simp [waits, hd]
  · simp [waits, hd]

theorem countP_waits_split : srcs.countP (waits isFixedMapping s.regScoreboard) =
    srcs.countP (waitsOn isFixedMapping s.regScoreboard d) +
      srcs.countP fun src => waits isFixedMapping s.regScoreboard src && src.reg != d := by
  induction srcs with
  | nil => rfl
  | cons src srcs ih =>
    simp only [List.countP_cons, ih, waitsOn]
    by_cases hw : waits isFixedMapping s.regScoreboard src = true <;> by_cases hd : src.reg = d <;>
      simp [hw, hd] <;> omega

/-- What the loop over the destination registers leaves as it is. -/
structure SameQueue (s s' : WakeUp) : Prop where
  dests : ∀ i, (s'.inst i).dests = (s.inst i).dests
  woken : ∀ i, (s'.inst i).woken = (s.inst i).woken
  instList : s'.instList = s.instList
  written : ∀ r, s.regScoreboard r = true → s'.regScoreboard r = true
  readied : ∀ i ∈ s.readied, i ∈ s'.readied

theorem SameQueue.refl (s : WakeUp) : SameQueue s s :=
  ⟨fun _ => rfl, fun _ => rfl, rfl, fun _ h => h, fun _ h => h⟩

theorem SameQueue.trans {s'' : WakeUp} (h : SameQueue s s') (h' : SameQueue s' s'') :
    SameQueue s s'' :=
  ⟨fun i => (h'.dests i).trans (h.dests i), fun i => (h'.woken i).trans (h.woken i),
    h'.instList.trans h.instList, fun r hr => h'.written r (h.written r hr),
    fun i hi => h'.readied i (h.readied i hi)⟩

/-- A destination register is written, and its chain is woken. -/
theorem wakeDest_inv (h : s.InvOn isFixedMapping l) (d : Nat) :
    (s.wakeDest isFixedMapping d).InvOn isFixedMapping l ∧
      SameQueue s (s.wakeDest isFixedMapping d) ∧
      (isFixedMapping d = false → (s.wakeDest isFixedMapping d).regScoreboard d = true) := by
  cases hfixed : isFixedMapping d with
  | true =>
    have hsame : s.wakeDest isFixedMapping d = s := by simp [wakeDest, hfixed]
    rw [hsame]
    exact ⟨h, .refl s, fun hf => by cases hf⟩
  | false =>
    have hin : ∀ i ∈ s.graph.dependents d, i ∈ l ∧ s.Tracked i := by
      intro i hi
      by_contra hnot
      exact List.count_eq_zero.mp ((h.chain d i).trans (if_neg hnot)) hi
    have hentries : ∀ i ∈ l, s.Tracked i → (s.graph.dependents d).count i =
        (s.inst i).srcs.countP (waitsOn isFixedMapping s.regScoreboard d) := fun i hi ht => by
      rw [h.chain, if_pos ⟨hi, ht⟩]
    obtain ⟨new, heq, hnodup, hnew⟩ := @wakeChain_spec s (s.graph.dependents d)
      (fun i hi => h.flag i (hin i hi).1 (hin i hi).2) (fun i hi => by
        obtain ⟨hl, ht⟩ := hin i hi
        have hcount := h.counted i hl ht
        rw [countP_waits_split (d := d), ← hentries i hl ht] at hcount
        omega)
    have hwake : s.wakeDest isFixedMapping d = { s with
        graph := { s.graph with
          dependents := Function.update s.graph.dependents d [] }.clearInst d
        inst := fun i => (s.inst i).marked ((s.graph.dependents d).count i)
        readied := s.readied ++ new
        regScoreboard := Function.update s.regScoreboard d true } := by
      simp [wakeDest, hfixed, heq]
    rw [hwake]
    have hbound : ∀ i ∈ l, s.Tracked i → (s.inst i).readyRegs +
        (s.graph.dependents d).count i ≤ (s.inst i).srcs.length := fun i hi ht => by
      have hcount := h.counted i hi ht
      rw [countP_waits_split (d := d), ← hentries i hi ht] at hcount
      omega
    have hwritten : ∀ r, s.regScoreboard r = true →
        Function.update s.regScoreboard d true r = true := fun r hr => by
      by_cases hrd : r = d
      · rw [hrd, Function.update_self]
      · rwa [Function.update_of_ne hrd]
    refine ⟨⟨h.sorted, h.youngest, fun i hi => ?_, fun r i => ?_, fun i hi ht => ?_,
      fun i hi ht => ?_, fun i hi ht => ?_, ?_, fun i hi => ?_, fun i hi => ?_, h.nonSpecOnce,
      fun i hi ht src hsrc hw => ?_, fun p hp dest hdest hf => ?_, fun i hi hwoken => ?_,
      fun i hi hissued => ?_, fun i hi => ?_⟩,
      ⟨fun i => WakeInst.marked_dests, fun i => WakeInst.marked_woken, rfl, hwritten,
        fun i hi => List.mem_append_left _ hi⟩, fun _ => Function.update_self ..⟩
    · simpa [Tracked] using h.kinds i hi
    · -- the chain of the register is empty, and the others are what they were
      simp only [WakeInst.marked_flags, WakeInst.marked_srcs, DependencyGraph.clearInst]
      by_cases hr : r = d
      · subst hr
        rw [Function.update_self, countP_waitsOn_eq_zero (Function.update_self ..), ite_self]
        rfl
      · rw [Function.update_of_ne hr, h.chain r i]
        refine if_congr Iff.rfl (List.countP_congr fun src _ => ?_) rfl
        simp only [waitsOn, waits_update, Bool.and_eq_true, beq_iff_eq, bne_iff_ne]
        constructor
        · rintro ⟨rfl, hw⟩
          exact ⟨rfl, hw, hr⟩
        · rintro ⟨rfl, hw, -⟩
          exact ⟨rfl, hw⟩
    · rw [Tracked, WakeInst.marked_flags] at ht
      have hcount := h.counted i hi ht
      rw [countP_waits_split (d := d), ← hentries i hi ht] at hcount
      simp only [WakeInst.marked_readyRegs, WakeInst.marked_srcs, waits_update]
      omega
    · rw [Tracked, WakeInst.marked_flags] at ht
      exact (h.flag i hi ht).marked (hbound i hi ht)
    · rw [Tracked, WakeInst.marked_flags] at ht
      have hready := h.readied i hi ht
      have hle := hbound i hi ht
      simp only [WakeInst.marked_readyRegs, WakeInst.marked_srcs, List.mem_append, hnew]
      constructor
      · rintro (hold | ⟨-, hsum⟩)
        · have := hready.mp hold
          omega
        · exact hsum
      · intro hsum
        by_cases hmem : i ∈ s.graph.dependents d
        · exact .inr ⟨hmem, hsum⟩
        · rw [List.count_eq_zero.mpr hmem] at hsum
          exact .inl (hready.mpr hsum)
    · refine List.nodup_append.mpr ⟨h.once, hnodup, fun i hi j hj hij => ?_⟩
      subst hij
      have hmem := ((hnew i).mp hj).1
      exact List.count_eq_zero.mp (h.no_entry (hin i hmem).1 hi d) hmem
    · rcases List.mem_append.mp hi with hi | hi
      · exact h.seen i hi
      · exact h.youngest i (hin i ((hnew i).mp hi).1).1
    · obtain ⟨hl, ht, hnot⟩ := h.nonSpec i hi
      refine ⟨hl, by rwa [Tracked, WakeInst.marked_flags], fun hmem => ?_⟩
      rcases List.mem_append.mp hmem with hmem | hmem
      · exact hnot hmem
      · exact ht (hin i ((hnew i).mp hmem).1).2
    · rw [Tracked, WakeInst.marked_flags] at ht
      simp only [WakeInst.marked_srcs] at hsrc
      simp only [waits_update, Bool.and_eq_true] at hw
      simpa using h.produced i hi ht src hsrc hw.1
    · simp only [WakeInst.marked_dests, WakeInst.marked_srcs] at hdest ⊢
      exact h.used p hp dest hdest hf
    · simp only [WakeInst.marked_woken, WakeInst.marked_dests] at hwoken ⊢
      obtain ⟨hready, hdests⟩ := h.woken i hi hwoken
      exact ⟨List.mem_append_left _ hready, fun dest hdest hf => hwritten _ (hdests dest hdest hf)⟩
    · simp only [WakeInst.marked_issued] at hissued
      exact List.mem_append_left _ (h.issued i hi hissued)
    · simpa using h.inIQ i hi

theorem wakeDests_inv {dests : List Nat} (h : s.InvOn isFixedMapping l) :
    (dests.foldl (wakeDest isFixedMapping) s).InvOn isFixedMapping l ∧
      SameQueue s (dests.foldl (wakeDest isFixedMapping) s) ∧
      ∀ dest ∈ dests, isFixedMapping dest = false →
        (dests.foldl (wakeDest isFixedMapping) s).regScoreboard dest = true := by
  induction dests generalizing s with
  | nil => exact ⟨h, .refl s, fun _ hd => absurd hd List.not_mem_nil⟩
  | cons d dests ih =>
    obtain ⟨hinv, hsame, hwritten⟩ := wakeDest_inv h d
    obtain ⟨hinv', hsame', hrest⟩ := ih hinv
    refine ⟨hinv', hsame.trans hsame', fun dest hdest hf => ?_⟩
    rcases List.mem_cons.mp hdest with rfl | hdest
    · exact hsame'.written _ (hwritten hf)
    · exact hrest dest hdest hf

/-- What the dependency graph is about is the same. -/
structure SameOperands (w w' : WakeInst) : Prop where
  flags : w'.flags = w.flags
  srcs : w'.srcs = w.srcs
  dests : w'.dests = w.dests
  readyRegs : w'.readyRegs = w.readyRegs
  canIssue : w'.canIssue = w.canIssue
  squashedInIQ : w'.squashedInIQ = w.squashedInIQ

/-- An instruction changes its status: it may be issued if it was ready, and have woken its
dependents if they are. -/
theorem InvOn.modifyInst (h : s.InvOn isFixedMapping l) {f : WakeInst → WakeInst}
    (hf : SameOperands (s.inst i) (f (s.inst i)))
    (hissued : (f (s.inst i)).issued = true → i ∈ l → i ∈ s.readied)
    (hwoken : (f (s.inst i)).woken = (s.inst i).woken ∨ i ∈ s.readied ∧
      ∀ dest ∈ (s.inst i).dests, isFixedMapping dest = false → s.regScoreboard dest = true) :
    (s.modifyInst i f).InvOn isFixedMapping l := by
  have hsame : ∀ j, SameOperands (s.inst j) ((s.modifyInst i f).inst j) := fun j => by
    by_cases hj : j = i
    · subst hj
      simpa [WakeUp.modifyInst] using hf
    · simp only [WakeUp.modifyInst, Function.update_of_ne hj]
      exact ⟨rfl, rfl, rfl, rfl, rfl, rfl⟩
  have htracked : ∀ j, (s.modifyInst i f).Tracked j ↔ s.Tracked j := fun j => by
    rw [Tracked, (hsame j).flags, Tracked]
  have hself : (s.modifyInst i f).inst i = f (s.inst i) := Function.update_self ..
  have hother : ∀ j, j ≠ i → (s.modifyInst i f).inst j = s.inst j :=
    fun j hj => Function.update_of_ne hj ..
  refine ⟨h.sorted, h.youngest, fun j hj => ?_, fun r j => ?_, fun j hj ht => ?_, fun j hj ht => ?_,
    fun j hj ht => ?_, h.once, h.seen, fun j hj => ?_, h.nonSpecOnce, fun j hj ht src hsrc hw => ?_,
    fun p hp dest hdest hf => ?_, fun j hj hw => ?_, fun j hj hi => ?_, fun j hj => ?_⟩
  · rw [htracked, (hsame j).flags]
    exact h.kinds j hj
  · rw [(hsame j).srcs, (hsame j).flags]
    exact h.chain r j
  · rw [(hsame j).srcs, (hsame j).readyRegs]
    exact h.counted j hj ((htracked j).mp ht)
  · rw [WakeInst.FlagOk, (hsame j).srcs, (hsame j).readyRegs, (hsame j).canIssue]
    exact h.flag j hj ((htracked j).mp ht)
  · rw [(hsame j).srcs, (hsame j).readyRegs]
    exact h.readied j hj ((htracked j).mp ht)
  · rw [htracked]
    exact h.nonSpec j hj
  · rw [(hsame j).srcs] at hsrc
    obtain ⟨p, hp, hlt, hdest, hnot⟩ := h.produced j hj ((htracked j).mp ht) src hsrc hw
    refine ⟨p, hp, hlt, by rwa [(hsame p).dests], ?_⟩
    by_cases hpi : p = i
    · subst hpi
      rw [hself]
      rcases hwoken with heq | ⟨-, hall⟩
      · rw [heq, hnot]
      · obtain ⟨-, hfixed, hwaits⟩ := waits_ready hw
        have hdone : s.regScoreboard src.reg = true := hall _ hdest hfixed
        rw [show s.regScoreboard src.reg = false from hwaits] at hdone
        cases hdone
    · rw [hother p hpi]
      exact hnot
  · rw [(hsame p).dests] at hdest
    obtain ⟨hone, hold⟩ := h.used p hp dest hdest hf
    refine ⟨fun j hj hd => hone j hj ?_, fun j hj src hsrc => hold j hj src ?_⟩
    · rwa [(hsame j).dests] at hd
    · rwa [(hsame j).srcs] at hsrc
  · rw [(hsame j).dests]
    by_cases hji : j = i
    · subst hji
      rcases hwoken with heq | hall
      · exact h.woken j hj (by rwa [hself, heq] at hw)
      · exact hall
    · rw [hother j hji] at hw
      exact h.woken j hj hw
  · by_cases hji : j = i
    · subst hji
      exact hissued (by rwa [hself] at hi) hj
    · rw [hother j hji] at hi
      exact h.issued j hj hi
  · rw [(hsame j).squashedInIQ]
    exact h.inIQ j hj

theorem wakeDependents_inv (h : s.InvOn isFixedMapping l) (hready : i ∈ s.readied) :
    (s.wakeDependents isFixedMapping i).InvOn isFixedMapping l ∧
      (s.wakeDependents isFixedMapping i).instList = s.instList := by
  let t := s.modifyInst i fun w => { w with memOpDone := w.memOpDone || w.flags.isMemRef }
  have ht : t.InvOn isFixedMapping l := h.modifyInst ⟨rfl, rfl, rfl, rfl, rfl, rfl⟩
    (fun hissued hi => h.issued i hi hissued) (.inl rfl)
  obtain ⟨hinv, hsame, hwritten⟩ := @wakeDests_inv _ _ _ (t.inst i).dests ht
  have hready' := hsame.readied i hready
  refine ⟨hinv.modifyInst (f := fun w => { w with woken := true })
    ⟨rfl, rfl, rfl, rfl, rfl, rfl⟩ (fun _ _ => hready')
    (.inr ⟨hready', fun dest hdest hf => hwritten dest ?_ hf⟩), hsame.instList⟩
  rwa [hsame.dests] at hdest

end Wake

section Squash

theorem InvOn.withList (h : s.InvOn isFixedMapping l) (instList : List Nat) :
    { s with instList }.InvOn isFixedMapping l :=
  ⟨h.sorted, h.youngest, h.kinds, h.chain, h.counted, h.flag, h.readied, h.once, h.seen, h.nonSpec,
    h.nonSpecOnce, h.produced, h.used, h.woken, h.issued, h.inIQ⟩

/-- The operands of an instruction leave the graph: each that waits is found in its chain. -/
theorem removeSrcs_spec {g : DependencyGraph}
    (hcount : ∀ r, (g.dependents r).count i = srcs.countP (waitsOn isFixedMapping s.regScoreboard r))
    (hempty : ∀ r, s.regScoreboard r = true → g.dependents r = []) :
    ∃ g', srcs.foldlM (removeSrc isFixedMapping i) g = some g' ∧
      ∀ r j, (g'.dependents r).count j = if j = i then 0 else (g.dependents r).count j := by
  induction srcs generalizing g with
  | nil =>
    refine ⟨g, rfl, fun r j => ?_⟩
    split
    · rename_i hji
      rw [hji, hcount r, List.countP_nil]
    · rfl
  | cons src srcs ih =>
    by_cases hwaits : waits isFixedMapping s.regScoreboard src = true
    · obtain ⟨hready, hfixed, hboard⟩ := waits_ready hwaits
      have hpos : 0 < (g.dependents src.reg).count i := by
        rw [hcount, List.countP_cons_of_pos (by simp [waitsOn, hwaits])]
        exact Nat.succ_pos _
      have hmem := List.count_pos_iff.mp hpos
      let g₁ : DependencyGraph := { g with
        dependents := Function.update g.dependents src.reg ((g.dependents src.reg).erase i) }
      have hremove : removeSrc isFixedMapping i g src = some g₁ := by
        simp [removeSrc, DependencyGraph.remove, hready, hfixed, List.ne_nil_of_mem hmem, hmem, g₁]
      obtain ⟨g', hfold, hg'⟩ := @ih g₁ (fun r => by
        have hr := hcount r
        rw [List.countP_cons] at hr
        by_cases hreg : r = src.reg
        · subst hreg
          simp only [g₁, Function.update_self, List.count_erase_self]
          simp only [waitsOn, hwaits, beq_self_eq_true, Bool.and_self, if_true] at hr
          omega
        · have hne : (src.reg == r) = false := beq_eq_false_iff_ne.mpr (Ne.symm hreg)
          simp only [g₁, Function.update_of_ne hreg]
          simpa [waitsOn, hne] using hr) (fun r hr => by
        by_cases hreg : r = src.reg
        · subst hreg
          rw [hboard] at hr
          cases hr
        · simp only [g₁, Function.update_of_ne hreg]
          exact hempty r hr)
      refine ⟨g', by simp [hremove, hfold], fun r j => ?_⟩
      rw [hg']
      split
      · rfl
      · rename_i hji
        by_cases hreg : r = src.reg
        · subst hreg
          simp only [g₁, Function.update_self]
          exact List.count_erase_of_ne hji
        · simp only [g₁, Function.update_of_ne hreg]
    · have hkeep : removeSrc isFixedMapping i g src = some g := by
        rw [removeSrc]
        split
        · rename_i hlooks
          simp only [waits, Bool.and_eq_true, not_and, Bool.not_eq_true'] at hwaits hlooks
          have hboard : s.regScoreboard src.reg = true := by simpa using hwaits hlooks
          rw [DependencyGraph.remove, if_pos (hempty _ hboard)]
        · rfl
      obtain ⟨g', hfold, hg'⟩ := @ih g (fun r => by
        rw [hcount r, List.countP_cons_of_neg]
        simp only [waitsOn, Bool.and_eq_true, not_and]
        exact fun _ => hwaits) hempty
      exact ⟨g', by simp [hkeep, hfold], hg'⟩

theorem clearDests_spec {g : DependencyGraph} {dests : List Nat}
    (hempty : ∀ dest ∈ dests, isFixedMapping dest = false → g.dependents dest = []) :
    ∃ g', dests.foldlM (clearDest isFixedMapping) g = some g' ∧ g'.dependents = g.dependents := by
  induction dests generalizing g with
  | nil => exact ⟨g, rfl, rfl⟩
  | cons d dests ih =>
    have hrest : ∀ dest ∈ dests, isFixedMapping dest = false → g.dependents dest = [] :=
      fun dest hdest => hempty dest (List.mem_cons_of_mem d hdest)
    cases hfixed : isFixedMapping d with
    | true =>
      obtain ⟨g', hfold, hg'⟩ := ih hrest
      exact ⟨g', by simp [clearDest, hfixed, hfold], hg'⟩
    | false =>
      have hnil := hempty d List.mem_cons_self hfixed
      obtain ⟨g', hfold, hg'⟩ := @ih (g.clearInst d) hrest
      exact ⟨g', by simp [clearDest, hfixed, DependencyGraph.empty, hnil, hfold], hg'⟩

/-- The youngest instruction has gone, with its entries. -/
theorem InvOn.drop (h : s.InvOn isFixedMapping (l ++ [i])) {graph : DependencyGraph}
    {nonSpecInsts : List Nat} {f : WakeInst → WakeInst}
    (hgraph : ∀ r j, (graph.dependents r).count j =
      if j = i then 0 else (s.graph.dependents r).count j)
    (hnonSpec : ∀ j ∈ nonSpecInsts, j ∈ s.nonSpecInsts ∧ j ≠ i) (honce : nonSpecInsts.Nodup) :
    { s with graph, nonSpecInsts, inst := Function.update s.inst i (f (s.inst i)) }.InvOn
      isFixedMapping l := by
  obtain ⟨hsorted, -, hlt⟩ := List.pairwise_append.mp h.sorted
  have hyounger : ∀ j ∈ l, j < i := fun j hj => hlt j hj i (List.mem_singleton_self i)
  have hin : ∀ j ∈ l, j ∈ l ++ [i] := fun j hj => List.mem_append_left _ hj
  have hother : ∀ j ∈ l, Function.update s.inst i (f (s.inst i)) j = s.inst j :=
    fun j hj => Function.update_of_ne (Nat.ne_of_lt (hyounger j hj)) ..
  have hkeep : ∀ j ∈ l ++ [i], j ≠ i → j ∈ l := fun j hj hne => by
    rcases List.mem_append.mp hj with hj | hj
    · exact hj
    · exact absurd (List.mem_singleton.mp hj) hne
  refine ⟨hsorted, fun j hj => h.youngest j (hin j hj), fun j hj => ?_, fun r j => ?_,
    fun j hj ht => ?_, fun j hj ht => ?_, fun j hj ht => ?_, h.once, h.seen, fun j hj => ?_, honce,
    fun j hj ht src hsrc hw => ?_, fun p hp dest hdest hf => ?_, fun j hj hw => ?_,
    fun j hj hi => ?_, fun j hj => ?_⟩
  · simp only [Tracked, hother j hj]
    exact h.kinds j (hin j hj)
  · rw [hgraph r j]
    by_cases hji : j = i
    · have hnot : i ∉ l := fun hmem => Nat.lt_irrefl i (hyounger i hmem)
      rw [if_pos hji, hji, if_neg fun hand => hnot hand.1]
    · rw [if_neg hji, h.chain r j]
      simp only [Function.update_of_ne hji]
      refine if_congr (and_congr_left fun _ => ⟨fun hj => hkeep j hj hji, hin j⟩) rfl rfl
  · simp only [Tracked, hother j hj] at ht ⊢
    exact h.counted j (hin j hj) ht
  · simp only [Tracked, hother j hj] at ht ⊢
    exact h.flag j (hin j hj) ht
  · simp only [Tracked, hother j hj] at ht ⊢
    exact h.readied j (hin j hj) ht
  · obtain ⟨hold, hne⟩ := hnonSpec j hj
    obtain ⟨hl, ht, hnot⟩ := h.nonSpec j hold
    refine ⟨hkeep j hl hne, ?_, hnot⟩
    simp only [Tracked, Function.update_of_ne hne]
    exact ht
  · simp only [Tracked, hother j hj] at ht hsrc
    obtain ⟨p, hp, hpj, hdest, hwoken⟩ := h.produced j (hin j hj) ht src hsrc hw
    have hpl := hkeep p hp (Nat.ne_of_lt (Nat.lt_trans hpj (hyounger j hj)))
    refine ⟨p, hpl, hpj, ?_⟩
    simp only [hother p hpl]
    exact ⟨hdest, hwoken⟩
  · simp only [hother p hp] at hdest
    obtain ⟨hone, hold⟩ := h.used p (hin p hp) dest hdest hf
    refine ⟨fun j hj hd => ?_, fun j hj src hsrc => ?_⟩
    · simp only [hother j hj] at hd
      exact hone j (hin j hj) hd
    · simp only [hother j hj] at hsrc
      exact hold j (hin j hj) src hsrc
  · simp only [hother j hj] at hw ⊢
    exact h.woken j (hin j hj) hw
  · simp only [hother j hj] at hi
    exact h.issued j (hin j hj) hi
  · simp only [hother j hj]
    exact h.inIQ j (hin j hj)

/-- One instruction of the walk. Nobody waits for its registers any more: those who did are younger,
and were squashed before. -/
theorem squashInst_spec (h : s.InvOn isFixedMapping (l ++ [i])) :
    ∃ s', s.squashInst isFixedMapping i = some s' ∧ s'.InvOn isFixedMapping l := by
  have hmem : i ∈ l ++ [i] := List.mem_append_right _ (List.mem_singleton_self i)
  have hyounger : ∀ j ∈ l, j < i :=
    fun j hj => (List.pairwise_append.mp h.sorted).2.2 j hj i (List.mem_singleton_self i)
  -- what is left of the graph when the instruction has none of its entries
  have hdests : ∀ g : DependencyGraph, (∀ r j, (g.dependents r).count j =
      if j = i then 0 else (s.graph.dependents r).count j) →
      ∃ g', (s.inst i).dests.foldlM (clearDest isFixedMapping) g = some g' ∧
        g'.dependents = g.dependents := by
    intro g hg
    refine clearDests_spec fun dest hdest hf => List.eq_nil_iff_forall_not_mem.mpr fun j hj => ?_
    have hpos := List.count_pos_iff.mpr hj
    rw [hg] at hpos
    by_cases hji : j = i
    · rw [if_pos hji] at hpos
      exact absurd hpos (Nat.lt_irrefl 0)
    · rw [if_neg hji, h.chain] at hpos
      split at hpos
      · rename_i hin
        obtain ⟨src, hsrc, hw⟩ := List.countP_pos_iff.mp hpos
        simp only [waitsOn, Bool.and_eq_true, beq_iff_eq] at hw
        have hold := (h.used i hmem dest hdest hf).2 j hin.1 src hsrc hw.1
        rcases List.mem_append.mp hin.1 with hl | hl
        · exact absurd (hyounger j hl) (Nat.lt_asymm hold)
        · exact hji (List.mem_singleton.mp hl)
      · exact absurd hpos (Nat.lt_irrefl 0)
  have hgone : ∀ r j, (∀ r, (s.graph.dependents r).count i = 0) → (s.graph.dependents r).count j =
      if j = i then 0 else (s.graph.dependents r).count j := fun r j hnone => by
    split
    · rename_i hji
      rw [hji, hnone r]
    · rfl
  by_cases hin : (!(s.inst i).issued || (s.inst i).flags.isMemRef && !(s.inst i).memOpDone) = true
  · let f : WakeInst → WakeInst := fun w => { w with squashedInIQ := true, issued := true }
    cases hremoves : (s.inst i).flags.removesDependents with
    | true =>
      have htracked := (h.kinds i hmem).mp hremoves
      obtain ⟨g, hfold, hg⟩ := @removeSrcs_spec isFixedMapping s i (s.inst i).srcs s.graph
        (fun r => by rw [h.chain, if_pos ⟨hmem, htracked⟩]) fun r hr => h.dependents_eq_nil hr
      obtain ⟨g', hclear, hg'⟩ := hdests g hg
      refine ⟨{ s with
        graph := g', inst := Function.update s.inst i (f (s.inst i)) }, ?_,
        h.drop (fun r j => by rw [hg', hg]) (fun j hj => ⟨hj, ?_⟩) h.nonSpecOnce⟩
      · simp [squashInst, hin, leave, hremoves, hfold, hclear, modifyInst, f]
      · rintro rfl
        exact (h.nonSpec j hj).2.1 htracked
    | false =>
      have hnot : ¬ s.Tracked i := fun ht => by
        rw [(h.kinds i hmem).mpr ht] at hremoves
        cases hremoves
      have hnone : ∀ r, (s.graph.dependents r).count i = 0 := fun r => by
        rw [h.chain, if_neg fun hand => hnot hand.2]
      obtain ⟨g', hclear, hg'⟩ := hdests s.graph fun r j => hgone r j hnone
      refine ⟨{ s with
        graph := g'
        nonSpecInsts := s.nonSpecInsts.erase i
        inst := Function.update s.inst i (f (s.inst i)) }, ?_,
        h.drop (fun r j => by rw [hg']; exact hgone r j hnone)
          (fun j hj => ((h.nonSpecOnce.mem_erase_iff).mp hj).symm) (h.nonSpecOnce.erase i)⟩
      simp [squashInst, hin, leave, hremoves, hclear, modifyInst, f]
  · -- it was issued, and found to be ready before that
    have hissued : (s.inst i).issued = true := by
      simp only [Bool.or_eq_true, Bool.not_eq_true', not_or, Bool.not_eq_false] at hin
      exact hin.1
    have hready := h.issued i hmem hissued
    have hnone : ∀ r, (s.graph.dependents r).count i = 0 := h.no_entry hmem hready
    obtain ⟨g', hclear, hg'⟩ := hdests s.graph fun r j => hgone r j hnone
    have hdrop : { s with
        graph := g', inst := Function.update s.inst i (id (s.inst i)) }.InvOn isFixedMapping l :=
      h.drop (fun r j => by rw [hg']; exact hgone r j hnone)
        (fun j hj => ⟨hj, fun hji => (h.nonSpec j hj).2.2 (hji ▸ hready)⟩) h.nonSpecOnce
    rw [id, Function.update_eq_self] at hdrop
    exact ⟨{ s with graph := g' }, by simp [squashInst, hin, hclear], hdrop⟩

theorem squashWalk_spec (n : Nat) (h : s.InvOn isFixedMapping l.reverse) :
    ∃ s', squashWalk isFixedMapping n l [] s = some s' ∧ s'.Inv isFixedMapping := by
  induction l generalizing s with
  | nil => exact ⟨{ s with instList := [] }, rfl, h.withList []⟩
  | cons i l ih =>
    rw [List.reverse_cons] at h
    have hmem : i ∈ l.reverse ++ [i] := List.mem_append_right _ (List.mem_singleton_self i)
    by_cases hlt : n < i
    · obtain ⟨t, hsquash, hinv⟩ := squashInst_spec h
      obtain ⟨s', hwalk, hs'⟩ := ih hinv
      exact ⟨s', by simp [squashWalk, hlt, h.inIQ i hmem, hsquash, hwalk], hs'⟩
    · exact ⟨{ s with instList := l.reverse ++ [i] }, by simp [squashWalk, hlt], h.withList _⟩

theorem doSquash_spec (n : Nat) (h : s.Inv isFixedMapping) :
    ∃ s', s.doSquash isFixedMapping n = some s' ∧ s'.Inv isFixedMapping :=
  squashWalk_spec n (by rw [List.reverse_reverse]; exact h)

end Squash

section Insert

/-- An operand that has become ready on the way from rename. -/
def arrived (isFixedMapping regScoreboard : Nat → Bool) (src : SrcReg) : Bool :=
  !src.ready && !isFixedMapping src.reg && regScoreboard src.reg

/-- The flag of an operand when the instruction is in the queue. -/
def settle (isFixedMapping regScoreboard : Nat → Bool) (src : SrcReg) : SrcReg :=
  if arrived isFixedMapping regScoreboard src then { src with ready := true } else src

theorem addSrcs_spec : ∃ graph, addSrcs isFixedMapping i srcs s =
      (srcs.map (settle isFixedMapping s.regScoreboard), { s with
        graph
        inst := Function.update s.inst i
          ((s.inst i).marked (srcs.countP (arrived isFixedMapping s.regScoreboard))) }) ∧
    ∀ r j, (graph.dependents r).count j = (s.graph.dependents r).count j +
      if j = i then srcs.countP (waitsOn isFixedMapping s.regScoreboard r) else 0 := by
  induction srcs generalizing s with
  | nil => exact ⟨s.graph, by simp [addSrcs], fun r j => by simp⟩
  | cons src srcs ih =>
    by_cases hfound : (src.ready || isFixedMapping src.reg) = true
    · have harrived : arrived isFixedMapping s.regScoreboard src = false := by
        rcases Bool.or_eq_true_iff.mp hfound with h | h <;> simp [arrived, h]
      have hwaits : waits isFixedMapping s.regScoreboard src = false := by
        rcases Bool.or_eq_true_iff.mp hfound with h | h <;> simp [waits, h]
      obtain ⟨graph, heq, hgraph⟩ := @ih s
      refine ⟨graph, by simp [addSrcs, hfound, heq, settle, harrived], fun r j => ?_⟩
      rw [hgraph, List.countP_cons_of_neg (by simp [waitsOn, hwaits])]
    · have hnot := hfound
      simp only [Bool.or_eq_true, not_or, Bool.not_eq_true] at hnot
      cases hboard : s.regScoreboard src.reg with
      | true =>
        have harrived : arrived isFixedMapping s.regScoreboard src = true := by
          simp [arrived, hnot, hboard]
        have hwaits : waits isFixedMapping s.regScoreboard src = false := by simp [waits, hboard]
        obtain ⟨graph, heq, hgraph⟩ := @ih (s.modifyInst i WakeInst.markSrcRegReady)
        refine ⟨graph, ?_, fun r j => ?_⟩
        · simp only [modifyInst, Function.update_self, Function.update_idem] at heq
          simp [addSrcs, hnot, hboard, heq, settle, harrived, modifyInst, WakeInst.marked_succ]
        · rw [hgraph, List.countP_cons_of_neg (by simp [waitsOn, hwaits])]
          rfl
      | false =>
        have harrived : arrived isFixedMapping s.regScoreboard src = false := by simp [arrived, hboard]
        have hwaits : waits isFixedMapping s.regScoreboard src = true := by simp [waits, hnot, hboard]
        obtain ⟨graph, heq, hgraph⟩ := @ih { s with graph := s.graph.insert src.reg i }
        refine ⟨graph, ?_, fun r j => ?_⟩
        · simp [addSrcs, hnot, hboard, heq, settle, harrived]
        · rw [hgraph, List.countP_cons]
          by_cases hr : r = src.reg
          · subst hr
            by_cases hji : j = i
            · subst hji
              simp [DependencyGraph.insert, waitsOn, hwaits]
              omega
            · simp [DependencyGraph.insert, hji, List.count_cons_of_ne (Ne.symm hji)]
          · have hne : (src.reg == r) = false := beq_eq_false_iff_ne.mpr (Ne.symm hr)
            simp [DependencyGraph.insert, hr, waitsOn, hne]

theorem addProducers_spec {dests : List Nat}
    (hempty : ∀ dest ∈ dests, isFixedMapping dest = false → s.graph.dependents dest = []) :
    ∃ graph regScoreboard, dests.foldlM (addProducer isFixedMapping i) s =
        some { s with graph, regScoreboard } ∧ graph.dependents = s.graph.dependents ∧
      ∀ r, regScoreboard r = s.regScoreboard r ∨
        r ∈ dests ∧ isFixedMapping r = false ∧ regScoreboard r = false := by
  induction dests generalizing s with
  | nil => exact ⟨s.graph, s.regScoreboard, rfl, rfl, fun _ => .inl rfl⟩
  | cons d dests ih =>
    have hrest : ∀ dest ∈ dests, isFixedMapping dest = false → s.graph.dependents dest = [] :=
      fun dest hdest => hempty dest (List.mem_cons_of_mem d hdest)
    cases hfixed : isFixedMapping d with
    | true =>
      obtain ⟨graph, board, hfold, hgraph, hboard⟩ := ih hrest
      refine ⟨graph, board, by simp [addProducer, hfixed, hfold], hgraph, fun r => ?_⟩
      exact (hboard r).imp_right fun hr => ⟨List.mem_cons_of_mem d hr.1, hr.2⟩
    | false =>
      have hnil := hempty d List.mem_cons_self hfixed
      obtain ⟨graph, board, hfold, hgraph, hboard⟩ := @ih { s with
        graph := s.graph.setInst d i
        regScoreboard := Function.update s.regScoreboard d false } hrest
      refine ⟨graph, board, by simp [addProducer, hfixed, DependencyGraph.empty, hnil, hfold],
        hgraph, fun r => ?_⟩
      rcases hboard r with heq | hr
      · by_cases hrd : r = d
        · subst hrd
          exact .inr ⟨List.mem_cons_self, hfixed, heq.trans (Function.update_self ..)⟩
        · exact .inl (heq.trans (Function.update_of_ne hrd ..))
      · exact .inr ⟨List.mem_cons_of_mem d hr.1, hr.2⟩

/-- An instruction that is not of the queue yet may be anything. -/
theorem InvOn.fresh (h : s.InvOn isFixedMapping l) (hi : s.youngest < i) (w : WakeInst) :
    { s with inst := Function.update s.inst i w, youngest := i }.InvOn isFixedMapping l := by
  have hold : ∀ j, j ≤ s.youngest → Function.update s.inst i w j = s.inst j :=
    fun j hj => Function.update_of_ne (Nat.ne_of_lt (Nat.lt_of_le_of_lt hj hi)) ..
  have hother : ∀ j ∈ l, Function.update s.inst i w j = s.inst j :=
    fun j hj => hold j (h.youngest j hj)
  refine ⟨h.sorted, fun j hj => Nat.le_of_lt (Nat.lt_of_le_of_lt (h.youngest j hj) hi),
    fun j hj => ?_, fun r j => ?_, fun j hj ht => ?_, fun j hj ht => ?_, fun j hj ht => ?_, h.once,
    fun j hj => Nat.le_of_lt (Nat.lt_of_le_of_lt (h.seen j hj) hi), fun j hj => ?_, h.nonSpecOnce,
    fun j hj ht src hsrc hw => ?_, fun p hp dest hdest hf => ?_, fun j hj hw => ?_,
    fun j hj hi => ?_, fun j hj => ?_⟩
  · simp only [Tracked, hother j hj]
    exact h.kinds j hj
  · by_cases hj : j ∈ l
    · simp only [hother j hj]
      exact h.chain r j
    · rw [h.chain r j, if_neg fun hand => hj hand.1, if_neg fun hand => hj hand.1]
  · simp only [Tracked, hother j hj] at ht ⊢
    exact h.counted j hj ht
  · simp only [Tracked, hother j hj] at ht ⊢
    exact h.flag j hj ht
  · simp only [Tracked, hother j hj] at ht ⊢
    exact h.readied j hj ht
  · obtain ⟨hl, ht, hnot⟩ := h.nonSpec j hj
    simp only [Tracked, hother j hl]
    exact ⟨hl, ht, hnot⟩
  · simp only [Tracked, hother j hj] at ht hsrc
    obtain ⟨p, hp, hpj, hdest⟩ := h.produced j hj ht src hsrc hw
    refine ⟨p, hp, hpj, ?_⟩
    simp only [hother p hp]
    exact hdest
  · simp only [hother p hp] at hdest
    obtain ⟨hone, hread⟩ := h.used p hp dest hdest hf
    refine ⟨fun j hj hd => ?_, fun j hj src hsrc => ?_⟩
    · simp only [hother j hj] at hd
      exact hone j hj hd
    · simp only [hother j hj] at hsrc
      exact hread j hj src hsrc
  · simp only [hother j hj] at hw ⊢
    exact h.woken j hj hw
  · simp only [hother j hj] at hi
    exact h.issued j hj hi
  · simp only [hother j hj]
    exact h.inIQ j hj

/-- What an instruction brings that joins the queue, with the scoreboard as it is then. -/
structure Joins (isFixedMapping : Nat → Bool) (s : WakeUp) (l : List Nat) (i : Nat) (w : WakeInst)
    (regScoreboard : Nat → Bool) : Prop where
  younger : ∀ j ∈ l, j < i
  youngest : i ≤ s.youngest
  unready : i ∉ s.readied
  kind : w.flags.removesDependents = true ↔ w.flags.insertKind = .insert
  board : ∀ r, regScoreboard r = s.regScoreboard r ∨
    r ∈ w.dests ∧ isFixedMapping r = false ∧ regScoreboard r = false
  dests : ∀ dest ∈ w.dests, isFixedMapping dest = false →
    (∀ j ∈ l, dest ∉ (s.inst j).dests ∧ ∀ src ∈ (s.inst j).srcs, src.reg ≠ dest) ∧
      ∀ src ∈ w.srcs, src.reg ≠ dest
  counted : w.flags.insertKind = .insert →
    w.readyRegs + w.srcs.countP (waits isFixedMapping regScoreboard) = w.srcs.length
  flag : w.flags.insertKind = .insert → w.FlagOk
  produced : w.flags.insertKind = .insert → ∀ src ∈ w.srcs,
    waits isFixedMapping regScoreboard src = true →
      ∃ p ∈ l, src.reg ∈ (s.inst p).dests ∧ (s.inst p).woken = false
  issued : w.issued = false
  woken : w.woken = false
  inIQ : w.squashedInIQ = false

variable {w : WakeInst} {regScoreboard : Nat → Bool} {readied nonSpecInsts : List Nat}
  {graph : DependencyGraph}

theorem InvOn.push (h : s.InvOn isFixedMapping l) (hw : Joins isFixedMapping s l i w regScoreboard)
    (hgraph : ∀ r j, (graph.dependents r).count j = (s.graph.dependents r).count j +
      if j = i ∧ w.flags.insertKind = .insert then
        w.srcs.countP (waitsOn isFixedMapping regScoreboard r) else 0)
    (hreadied : readied = s.readied ∧
        (w.flags.insertKind = .insert → w.readyRegs ≠ w.srcs.length) ∨
      readied = s.readied ++ [i] ∧ w.flags.insertKind = .insert ∧ w.readyRegs = w.srcs.length)
    (hnonSpec : nonSpecInsts = s.nonSpecInsts ∨
      w.flags.insertKind ≠ .insert ∧ nonSpecInsts = s.nonSpecInsts ++ [i]) :
    { s with
      graph, regScoreboard, readied, nonSpecInsts, inst := Function.update s.inst i w }.InvOn
      isFixedMapping (l ++ [i]) := by
  have hne : ∀ j ∈ l, j ≠ i := fun j hj => Nat.ne_of_lt (hw.younger j hj)
  have hnot : i ∉ l := fun hi => hne i hi rfl
  have hother : ∀ j ∈ l, Function.update s.inst i w j = s.inst j :=
    fun j hj => Function.update_of_ne (hne j hj) ..
  have hself : Function.update s.inst i w i = w := Function.update_self ..
  have hwaits : ∀ j ∈ l, ∀ src ∈ (s.inst j).srcs, waits isFixedMapping regScoreboard src =
      waits isFixedMapping s.regScoreboard src := fun j hj src hsrc => by
    rcases hw.board src.reg with heq | ⟨hdest, hfixed, -⟩
    · rw [waits, waits, heq]
    · exact absurd rfl (((hw.dests _ hdest hfixed).1 j hj).2 src hsrc)
  have hcounts : ∀ j ∈ l, (s.inst j).srcs.countP (waits isFixedMapping regScoreboard) =
      (s.inst j).srcs.countP (waits isFixedMapping s.regScoreboard) :=
    fun j hj => List.countP_congr fun src hsrc => by rw [hwaits j hj src hsrc]
  have hready : ∀ j ∈ l, j ∈ readied ↔ j ∈ s.readied := fun j hj => by
    rcases hreadied with ⟨rfl, -⟩ | ⟨rfl, -⟩
    · rfl
    · simp [hne j hj]
  have hsub : ∀ j ∈ s.readied, j ∈ readied := fun j hj => by
    rcases hreadied with ⟨rfl, -⟩ | ⟨rfl, -⟩
    · exact hj
    · exact List.mem_append_left _ hj
  have hall : ∀ P : Nat → Prop, (∀ j ∈ l, P j) → P i → ∀ j ∈ l ++ [i], P j := by
    intro P hl hi j hj
    rcases List.mem_append.mp hj with hj | hj
    · exact hl j hj
    · rw [List.mem_singleton.mp hj]
      exact hi
  refine ⟨?_, ?_, ?_, fun r j => ?_, ?_, ?_, ?_, ?_, fun j hj => ?_, fun j hj => ?_, ?_, ?_, ?_, ?_,
    ?_, ?_⟩
  · refine List.pairwise_append.mpr ⟨h.sorted, List.pairwise_singleton _ _, fun j hj k hk => ?_⟩
    rw [List.mem_singleton.mp hk]
    exact hw.younger j hj
  · exact hall _ h.youngest hw.youngest
  · refine hall _ (fun j hj => ?_) ?_
    · simp only [Tracked, hother j hj]
      exact h.kinds j hj
    · simp only [Tracked, hself]
      exact hw.kind
  · rw [hgraph r j, h.chain r j]
    by_cases hji : j = i
    · subst hji
      simp only [hself, hnot, false_and, if_false, Nat.zero_add, true_and, List.mem_append,
        List.mem_singleton, or_true]
    · simp only [hji, false_and, if_false, Nat.add_zero, Function.update_of_ne hji]
      by_cases hj : j ∈ l
      · refine if_congr (by simp [hj]) (List.countP_congr fun src hsrc => ?_) rfl
        rw [waitsOn, waitsOn, hwaits j hj src hsrc]
      · rw [if_neg fun hand => hj hand.1, if_neg]
        rintro ⟨hmem, -⟩
        rcases List.mem_append.mp hmem with hmem | hmem
        · exact hj hmem
        · exact hji (List.mem_singleton.mp hmem)
  · refine hall _ (fun j hj ht => ?_) fun ht => ?_
    · simp only [Tracked, hother j hj] at ht ⊢
      rw [hcounts j hj]
      exact h.counted j hj ht
    · simp only [Tracked, hself] at ht ⊢
      exact hw.counted ht
  · refine hall _ (fun j hj ht => ?_) fun ht => ?_
    · simp only [Tracked, hother j hj] at ht ⊢
      exact h.flag j hj ht
    · simp only [Tracked, hself] at ht ⊢
      exact hw.flag ht
  · refine hall _ (fun j hj ht => ?_) fun ht => ?_
    · simp only [Tracked, hother j hj] at ht ⊢
      rw [hready j hj]
      exact h.readied j hj ht
    · simp only [Tracked, hself] at ht ⊢
      rcases hreadied with ⟨rfl, hneq⟩ | ⟨rfl, -, heq⟩
      · exact iff_of_false hw.unready (hneq ht)
      · exact iff_of_true (by simp) heq
  · rcases hreadied with ⟨rfl, -⟩ | ⟨rfl, -⟩
    · exact h.once
    · refine List.nodup_append.mpr ⟨h.once, List.nodup_singleton i, fun j hj k hk hjk => ?_⟩
      rw [List.mem_singleton.mp hk] at hjk
      exact hw.unready (hjk ▸ hj)
  · rcases hreadied with ⟨rfl, -⟩ | ⟨rfl, -⟩
    · exact h.seen j hj
    · rcases List.mem_append.mp hj with hj | hj
      · exact h.seen j hj
      · rw [List.mem_singleton.mp hj]
        exact hw.youngest
  · have hold : ∀ j ∈ s.nonSpecInsts, j ∈ l ++ [i] ∧
        ¬ (Function.update s.inst i w j).flags.insertKind = .insert ∧ j ∉ readied := fun j hj => by
      obtain ⟨hl, ht, hn⟩ := h.nonSpec j hj
      rw [hother j hl, hready j hl]
      exact ⟨List.mem_append_left _ hl, ht, hn⟩
    rcases hnonSpec with rfl | ⟨hkind, rfl⟩
    · exact hold j hj
    · rcases List.mem_append.mp hj with hj | hj
      · exact hold j hj
      · rw [List.mem_singleton.mp hj]
        refine ⟨by simp, by simpa [Tracked, hself] using hkind, ?_⟩
        rcases hreadied with ⟨rfl, -⟩ | ⟨-, hinsert, -⟩
        · exact hw.unready
        · exact absurd hinsert hkind
  · rcases hnonSpec with rfl | ⟨hkind, rfl⟩
    · exact h.nonSpecOnce
    · refine List.nodup_append.mpr ⟨h.nonSpecOnce, List.nodup_singleton i,
        fun j hj k hk hjk => ?_⟩
      rw [List.mem_singleton.mp hk] at hjk
      exact hne j (h.nonSpec j hj).1 hjk
  · refine hall _ (fun j hj ht src hsrc hwait => ?_) fun ht src hsrc hwait => ?_
    · simp only [Tracked, hother j hj] at ht hsrc
      rw [hwaits j hj src hsrc] at hwait
      obtain ⟨p, hp, hpj, hdest⟩ := h.produced j hj ht src hsrc hwait
      refine ⟨p, List.mem_append_left _ hp, hpj, ?_⟩
      simp only [hother p hp]
      exact hdest
    · simp only [Tracked, hself] at ht hsrc
      obtain ⟨p, hp, hdest⟩ := hw.produced ht src hsrc hwait
      refine ⟨p, List.mem_append_left _ hp, hw.younger p hp, ?_⟩
      simp only [hother p hp]
      exact hdest
  · refine hall _ (fun p hp dest hdest hf => ?_) fun dest hdest hf => ?_
    · simp only [hother p hp] at hdest
      obtain ⟨hone, hread⟩ := h.used p hp dest hdest hf
      refine ⟨hall _ (fun j hj hd => ?_) fun hd => ?_, hall _ (fun j hj src hsrc => ?_)
        fun src _ _ => hw.younger p hp⟩
      · simp only [hother j hj] at hd
        exact hone j hj hd
      · simp only [hself] at hd
        exact absurd hdest ((hw.dests dest hd hf).1 p hp).1
      · simp only [hother j hj] at hsrc
        exact hread j hj src hsrc
    · simp only [hself] at hdest
      obtain ⟨hothers, hown⟩ := hw.dests dest hdest hf
      refine ⟨hall _ (fun j hj hd => ?_) fun _ => rfl, hall _ (fun j hj src hsrc hreg => ?_)
        fun src hsrc hreg => ?_⟩
      · simp only [hother j hj] at hd
        exact absurd hd (hothers j hj).1
      · simp only [hother j hj] at hsrc
        exact absurd hreg ((hothers j hj).2 src hsrc)
      · simp only [hself] at hsrc
        exact absurd hreg (hown src hsrc)
  · refine hall _ (fun j hj hwoken => ?_) fun hwoken => ?_
    · simp only [hother j hj] at hwoken ⊢
      obtain ⟨hr, hdone⟩ := h.woken j hj hwoken
      refine ⟨hsub j hr, fun dest hdest hf => ?_⟩
      rcases hw.board dest with heq | ⟨hnew, -, -⟩
      · rw [heq]
        exact hdone dest hdest hf
      · exact absurd hdest ((hw.dests dest hnew hf).1 j hj).1
    · simp only [hself, hw.woken] at hwoken
      cases hwoken
  · refine hall _ (fun j hj hissued => ?_) fun hissued => ?_
    · simp only [hother j hj] at hissued
      exact hsub j (h.issued j hj hissued)
    · simp only [hself, hw.issued] at hissued
      cases hissued
  · refine hall _ (fun j hj => ?_) ?_
    · simp only [hother j hj]
      exact h.inIQ j hj
    · simp only [hself]
      exact hw.inIQ

/-- An operand is ready when it comes, or becomes ready on the way, or waits. -/
theorem countP_operands (hfixed : ∀ src ∈ srcs, src.ready = false → isFixedMapping src.reg = false) :
    srcs.countP SrcReg.ready + srcs.countP (arrived isFixedMapping regScoreboard) +
      srcs.countP (waits isFixedMapping regScoreboard) = srcs.length := by
  induction srcs with
  | nil => rfl
  | cons src srcs ih =>
    have hrest := ih fun src hsrc => hfixed src (List.mem_cons_of_mem _ hsrc)
    rw [List.length_cons, ← hrest]
    simp only [List.countP_cons]
    cases hready : src.ready with
    | true => simp [arrived, waits, hready]; omega
    | false =>
      have hf := hfixed src List.mem_cons_self hready
      cases hboard : regScoreboard src.reg <;> simp [arrived, waits, hready, hf, hboard] <;> omega

theorem waits_settle (hboard : regScoreboard src.reg = s.regScoreboard src.reg) :
    waits isFixedMapping regScoreboard (settle isFixedMapping s.regScoreboard src) =
      waits isFixedMapping s.regScoreboard src := by
  by_cases harrived : arrived isFixedMapping s.regScoreboard src = true
  · have hready : s.regScoreboard src.reg = true := by
      simp only [arrived, Bool.and_eq_true] at harrived
      exact harrived.2
    simp [settle, harrived, waits, hready]
  · simp [settle, harrived, waits, hboard]

@[simp] theorem settle_reg : (settle isFixedMapping regScoreboard src).reg = src.reg := by
  rw [settle]
  split <;> rfl

/-- The queue before an instruction is inserted that has just come from rename. -/
structure Comes (isFixedMapping : Nat → Bool) (s : WakeUp) (i : Nat) (flags : QueueFlags)
    (srcs : List SrcReg) (dests : List Nat) : Prop where
  inst : s.inst i = .renamed flags srcs dests
  younger : ∀ j ∈ s.instList, j < i
  youngest : i ≤ s.youngest
  unready : i ∉ s.readied
  kind : flags.insertKind ≠ .recordProducer →
    (flags.removesDependents = true ↔ flags.insertKind = .insert)
  srcsOk : ∀ src ∈ srcs, s.SrcOk isFixedMapping src
  destsOk : ∀ dest ∈ dests, s.DestOk isFixedMapping srcs dest

variable {flags : QueueFlags} {dests : List Nat}

/-- No operand waits for a register that the instruction is to produce. -/
theorem InvOn.unused (h : s.Inv isFixedMapping)
    (hdests : ∀ dest ∈ dests, s.DestOk isFixedMapping srcs dest) :
    ∀ dest ∈ dests, isFixedMapping dest = false → s.graph.dependents dest = [] := by
  intro dest hdest hf
  refine List.eq_nil_iff_forall_not_mem.mpr fun j hj => ?_
  have hpos := List.count_pos_iff.mpr hj
  rw [h.chain] at hpos
  split at hpos
  · rename_i hin
    obtain ⟨src, hsrc, hw⟩ := List.countP_pos_iff.mp hpos
    simp only [waitsOn, Bool.and_eq_true, beq_iff_eq] at hw
    exact ((hdests dest hdest hf).1 j hin.1).2 src hsrc hw.1
  · exact absurd hpos (Nat.lt_irrefl 0)

theorem insertNonSpec_spec (h : s.Inv isFixedMapping)
    (hi : Comes isFixedMapping s i flags srcs dests) (hkind : flags.insertKind ≠ .insert)
    (hqueue : flags.insertKind ≠ .recordProducer) :
    ∃ s', s.insertNonSpec isFixedMapping i = some s' ∧ s'.Inv isFixedMapping := by
  have hunused := InvOn.unused h hi.destsOk
  obtain ⟨graph, board, hfold, hgraph, hboard⟩ := @addProducers_spec isFixedMapping
    { s with nonSpecInsts := s.nonSpecInsts ++ [i], instList := s.instList ++ [i] } i dests hunused
  have hdests : (s.inst i).dests = dests := by rw [hi.inst]; rfl
  refine ⟨_, by simp [insertNonSpec, addToProducers, hdests, hfold]; rfl, ?_⟩
  have hjoins : Joins isFixedMapping s s.instList i (s.inst i) board := by
    rw [hi.inst]
    exact ⟨hi.younger, hi.youngest, hi.unready, hi.kind hqueue, hboard,
      fun dest hdest hf => hi.destsOk dest hdest hf, fun ht => absurd ht hkind,
      fun ht => absurd ht hkind, fun ht => absurd ht hkind, rfl, rfl, rfl⟩
  have hkind' : (s.inst i).flags.insertKind ≠ .insert := by
    rw [hi.inst]
    exact hkind
  have hgraph' : ∀ r j, (graph.dependents r).count j = (s.graph.dependents r).count j +
      if j = i ∧ (s.inst i).flags.insertKind = .insert then
        (s.inst i).srcs.countP (waitsOn isFixedMapping board r) else 0 :=
    fun r j => by rw [hgraph, if_neg fun hand => hkind' hand.2, Nat.add_zero]
  have hpush := h.push hjoins hgraph' (.inl ⟨rfl, fun ht => absurd ht hkind'⟩) (.inr ⟨hkind', rfl⟩)
  rw [Function.update_eq_self] at hpush
  exact hpush.withList (s.instList ++ [i])

theorem insert_spec (h : s.Inv isFixedMapping) (hi : Comes isFixedMapping s i flags srcs dests)
    (hkind : flags.insertKind = .insert) :
    ∃ s', s.insert isFixedMapping i = some s' ∧ s'.Inv isFixedMapping := by
  obtain ⟨g, hsrcs, hg⟩ := @addSrcs_spec isFixedMapping { s with instList := s.instList ++ [i] } i
    srcs
  let k := srcs.countP (arrived isFixedMapping s.regScoreboard)
  let w : WakeInst := { (s.inst i).marked k with
    srcs := srcs.map (settle isFixedMapping s.regScoreboard) }
  have hrenamed : (s.inst i).srcs = srcs := by rw [hi.inst]; rfl
  have hdepends : { s with instList := s.instList ++ [i] }.addToDependents isFixedMapping i =
      { s with instList := s.instList ++ [i], graph := g, inst := Function.update s.inst i w } := by
    simp [addToDependents, hrenamed, hsrcs, modifyInst, w, k]
  -- none of its own operands waits for its destination registers
  have hboardEq : ∀ board : Nat → Bool, (∀ r, board r = s.regScoreboard r ∨
      r ∈ dests ∧ isFixedMapping r = false ∧ board r = false) → ∀ src ∈ srcs,
      board src.reg = s.regScoreboard src.reg := fun board hboard src hsrc => by
    rcases hboard src.reg with heq | ⟨hdest, hf, -⟩
    · exact heq
    · exact absurd rfl ((hi.destsOk _ hdest hf).2 src hsrc)
  have hunused : ∀ dest ∈ dests, isFixedMapping dest = false → g.dependents dest = [] := by
    intro dest hdest hf
    refine List.eq_nil_iff_forall_not_mem.mpr fun j hj => ?_
    have hpos := List.count_pos_iff.mpr hj
    have hnone : srcs.countP (waitsOn isFixedMapping s.regScoreboard dest) = 0 :=
      List.countP_eq_zero.mpr fun src hsrc hw => by
        simp only [waitsOn, Bool.and_eq_true, beq_iff_eq] at hw
        exact (hi.destsOk dest hdest hf).2 src hsrc hw.1
    rw [hg, InvOn.unused h hi.destsOk dest hdest hf, hnone, ite_self] at hpos
    exact absurd hpos (Nat.lt_irrefl 0)
  obtain ⟨graph, board, hfold, hgraph, hboard⟩ := @addProducers_spec isFixedMapping
    { s with instList := s.instList ++ [i], graph := g, inst := Function.update s.inst i w } i dests
    hunused
  have hdests : w.dests = dests := by simp [w, hi.inst, WakeInst.renamed]
  have hflags : w.flags = flags := by simp [w, hi.inst, WakeInst.renamed]
  have hlength : w.srcs.length = srcs.length := List.length_map ..
  have hreadyRegs : w.readyRegs = srcs.countP SrcReg.ready + k := by
    simp [w, hi.inst, WakeInst.renamed]
  have hcount := @countP_operands isFixedMapping srcs s.regScoreboard fun src hsrc hready =>
    (hi.srcsOk src hsrc hready).1
  have hwaits : w.srcs.countP (waits isFixedMapping board) =
      srcs.countP (waits isFixedMapping s.regScoreboard) := by
    rw [List.countP_map]
    exact List.countP_congr fun src hsrc => by
      rw [Function.comp_apply, waits_settle (hboardEq board hboard src hsrc)]
  have hwaitsOn : ∀ r, w.srcs.countP (waitsOn isFixedMapping board r) =
      srcs.countP (waitsOn isFixedMapping s.regScoreboard r) := fun r => by
    rw [List.countP_map]
    refine List.countP_congr fun src hsrc => ?_
    rw [Function.comp_apply, waitsOn, waitsOn, settle_reg,
      waits_settle (hboardEq board hboard src hsrc)]
  have hflag : w.FlagOk := by
    have hstart : (s.inst i).FlagOk := by rw [hi.inst]; rfl
    have hle : (s.inst i).readyRegs + k ≤ (s.inst i).srcs.length := by
      rw [hi.inst]
      simp only [WakeInst.renamed, k]
      omega
    have hmarked := hstart.marked hle
    rw [WakeInst.FlagOk, WakeInst.marked_srcs, hrenamed] at hmarked
    rw [WakeInst.FlagOk, hlength]
    exact hmarked
  have hjoins : Joins isFixedMapping s s.instList i w board := by
    refine ⟨hi.younger, hi.youngest, hi.unready, hflags ▸ hi.kind (by simp [hkind]),
      fun r => hdests ▸ hboard r, fun dest hdest hf => ?_, fun _ => ?_, fun _ => hflag, fun _ src hsrc hw => ?_, ?_, ?_, ?_⟩
    · obtain ⟨hothers, hown⟩ := hi.destsOk dest (hdests ▸ hdest) hf
      refine ⟨hothers, fun src hsrc => ?_⟩
      obtain ⟨src', hsrc', rfl⟩ := List.mem_map.mp hsrc
      rw [settle_reg]
      exact hown src' hsrc'
    · rw [hwaits, hreadyRegs, hlength]
      exact hcount
    · obtain ⟨src', hsrc', rfl⟩ := List.mem_map.mp hsrc
      rw [waits_settle (hboardEq board hboard src' hsrc')] at hw
      rw [settle_reg]
      obtain ⟨hready, -, hwaiting⟩ := waits_ready hw
      rcases (hi.srcsOk src' hsrc' hready).2 with hwritten | hproducer
      · rw [hwaiting] at hwritten
        cases hwritten
      · exact hproducer
    · simp [w, hi.inst, WakeInst.renamed]
    · simp [w, hi.inst, WakeInst.renamed]
    · simp [w, hi.inst, WakeInst.renamed]
  have hgraph' : ∀ r j, (graph.dependents r).count j = (s.graph.dependents r).count j +
      if j = i ∧ w.flags.insertKind = .insert then
        w.srcs.countP (waitsOn isFixedMapping board r) else 0 := fun r j => by
    rw [hgraph, hg, hwaitsOn, hflags]
    simp [hkind]
  let t : WakeUp := { s with
    graph, regScoreboard := board, instList := s.instList ++ [i]
    inst := Function.update s.inst i w }
  have hinsert : s.insert isFixedMapping i = some (t.addIfReady i) := by
    simp [insert, hdepends, addToProducers, hdests, hfold, t]
  have hself : t.inst i = w := Function.update_self ..
  refine ⟨_, hinsert, ?_⟩
  rw [addIfReady, hself]
  split
  · rename_i hcan
    rw [hflag, beq_iff_eq] at hcan
    exact (h.push hjoins hgraph' (.inr ⟨rfl, hflags ▸ hkind, hcan⟩) (.inl rfl)).withList _
  · rename_i hcan
    rw [hflag, beq_iff_eq] at hcan
    exact (h.push hjoins hgraph' (.inl ⟨rfl, fun _ => hcan⟩) (.inl rfl)).withList _

end Insert

section Steps

/-- An instruction that is not speculative is told to execute. -/
theorem scheduleNonSpec_spec (h : s.Inv isFixedMapping) (hi : i ∈ s.nonSpecInsts) :
    ∃ s', s.scheduleNonSpec i = some s' ∧ s'.Inv isFixedMapping := by
  obtain ⟨hl, ht, hnot⟩ := h.nonSpec i hi
  let w : WakeInst := { s.inst i with canIssue := true }
  refine ⟨{ s with
    nonSpecInsts := s.nonSpecInsts.erase i, inst := Function.update s.inst i w
    readied := s.readied ++ [i] }, by simp [scheduleNonSpec, hi, modifyInst, addIfReady, w], ?_⟩
  have htracked : ∀ j, s.Tracked j → j ≠ i := fun j hj hji => ht (hji ▸ hj)
  have hsame : ∀ j, ∃ canIssue, Function.update s.inst i w j = { s.inst j with canIssue } ∧
      (j ≠ i → canIssue = (s.inst j).canIssue) := fun j => by
    by_cases hj : j = i
    · subst hj
      exact ⟨true, Function.update_self .., fun hne => absurd rfl hne⟩
    · exact ⟨(s.inst j).canIssue, Function.update_of_ne hj .., fun _ => rfl⟩
  have hflags : ∀ j, (Function.update s.inst i w j).flags = (s.inst j).flags := fun j => by
    obtain ⟨_, heq, -⟩ := hsame j
    rw [heq]
  have hsrcs : ∀ j, (Function.update s.inst i w j).srcs = (s.inst j).srcs := fun j => by
    obtain ⟨_, heq, -⟩ := hsame j
    rw [heq]
  have hdests : ∀ j, (Function.update s.inst i w j).dests = (s.inst j).dests := fun j => by
    obtain ⟨_, heq, -⟩ := hsame j
    rw [heq]
  have hwoken : ∀ j, (Function.update s.inst i w j).woken = (s.inst j).woken := fun j => by
    obtain ⟨_, heq, -⟩ := hsame j
    rw [heq]
  have hother : ∀ j, s.Tracked j → Function.update s.inst i w j = s.inst j :=
    fun j hj => Function.update_of_ne (htracked j hj) ..
  refine ⟨h.sorted, h.youngest, fun j hj => ?_, fun r j => ?_, fun j hj hjt => ?_,
    fun j hj hjt => ?_, fun j hj hjt => ?_, ?_, fun j hj => ?_, fun j hj => ?_,
    h.nonSpecOnce.erase i, fun j hj hjt src hsrc hw => ?_, fun p hp dest hdest hf => ?_,
    fun j hj hw => ?_, fun j hj hissued => ?_, fun j hj => ?_⟩
  · simp only [Tracked, hflags]
    exact h.kinds j hj
  · simp only [hflags, hsrcs]
    exact h.chain r j
  · simp only [Tracked, hflags] at hjt
    simp only [hother j hjt]
    exact h.counted j hj hjt
  · simp only [Tracked, hflags] at hjt
    simp only [hother j hjt]
    exact h.flag j hj hjt
  · simp only [Tracked, hflags] at hjt
    simp only [hother j hjt, List.mem_append, List.mem_singleton, htracked j hjt, or_false]
    exact h.readied j hj hjt
  · refine List.nodup_append.mpr ⟨h.once, List.nodup_singleton i, fun j hj k hk hjk => ?_⟩
    rw [List.mem_singleton.mp hk] at hjk
    exact hnot (hjk ▸ hj)
  · rcases List.mem_append.mp hj with hj | hj
    · exact h.seen j hj
    · rw [List.mem_singleton.mp hj]
      exact h.youngest i hl
  · obtain ⟨hne, hj⟩ := h.nonSpecOnce.mem_erase_iff.mp hj
    obtain ⟨hjl, hjt, hjr⟩ := h.nonSpec j hj
    refine ⟨hjl, by simpa only [Tracked, hflags] using hjt, ?_⟩
    simp [hjr, hne]
  · simp only [Tracked, hflags] at hjt
    simp only [hsrcs] at hsrc
    simpa only [hdests, hwoken] using h.produced j hj hjt src hsrc hw
  · simp only [hdests, hsrcs] at hdest ⊢
    exact h.used p hp dest hdest hf
  · simp only [hwoken, hdests] at hw ⊢
    obtain ⟨hr, hdone⟩ := h.woken j hj hw
    exact ⟨List.mem_append_left _ hr, hdone⟩
  · obtain ⟨_, heq, -⟩ := hsame j
    simp only [heq] at hissued
    exact List.mem_append_left _ (h.issued j hj hissued)
  · obtain ⟨_, heq, -⟩ := hsame j
    simp only [heq]
    exact h.inIQ j hj

/-- Executed instructions leave the queue at its front. -/
theorem InvOn.retire {front : List Nat} (h : s.InvOn isFixedMapping (front ++ l))
    (hfront : ∀ j ∈ front, (s.inst j).woken = true) : s.InvOn isFixedMapping l := by
  have hin : ∀ j ∈ l, j ∈ front ++ l := fun j hj => List.mem_append_right _ hj
  have hdone : ∀ j ∈ front, j ∈ s.readied :=
    fun j hj => (h.woken j (List.mem_append_left _ hj) (hfront j hj)).1
  have hkeep : ∀ j ∈ front ++ l, j ∉ front → j ∈ l :=
    fun j hj hnot => (List.mem_append.mp hj).resolve_left hnot
  refine ⟨(List.pairwise_append.mp h.sorted).2.1, fun j hj => h.youngest j (hin j hj),
    fun j hj => h.kinds j (hin j hj), fun r j => ?_, fun j hj => h.counted j (hin j hj),
    fun j hj => h.flag j (hin j hj), fun j hj => h.readied j (hin j hj), h.once, h.seen,
    fun j hj => ?_, h.nonSpecOnce, fun j hj ht src hsrc hw => ?_, fun p hp dest hdest hf => ?_,
    fun j hj => h.woken j (hin j hj), fun j hj => h.issued j (hin j hj),
    fun j hj => h.inIQ j (hin j hj)⟩
  · by_cases hj : j ∈ front
    · have hnot : j ∉ l := fun hl =>
        Nat.lt_irrefl j ((List.pairwise_append.mp h.sorted).2.2 j hj j hl)
      rw [h.no_entry (List.mem_append_left _ hj) (hdone j hj), if_neg fun hand => hnot hand.1]
    · rw [h.chain r j]
      exact if_congr (and_congr_left fun _ => ⟨fun hmem => hkeep j hmem hj, hin j⟩) rfl rfl
  · obtain ⟨hl, ht, hnot⟩ := h.nonSpec j hj
    exact ⟨hkeep j hl fun hmem => hnot (hdone j hmem), ht, hnot⟩
  · obtain ⟨p, hp, hlt, hdest, hwoken⟩ := h.produced j (hin j hj) ht src hsrc hw
    refine ⟨p, hkeep p hp fun hmem => ?_, hlt, hdest, hwoken⟩
    rw [hfront p hmem] at hwoken
    cases hwoken
  · obtain ⟨hone, hread⟩ := h.used p (hin p hp) dest hdest hf
    exact ⟨fun j hj => hone j (hin j hj), fun j hj => hread j (hin j hj)⟩

theorem commit_inv (h : s.Inv isFixedMapping) {n : Nat}
    (hn : ∀ j ∈ s.instList, j ≤ n → (s.inst j).woken = true) : (s.commit n).Inv isFixedMapping := by
  have hsplit := List.takeWhile_append_dropWhile (p := fun j => decide (j ≤ n)) (l := s.instList)
  have hinv : s.InvOn isFixedMapping
      (s.instList.takeWhile (· ≤ n) ++ s.instList.dropWhile (· ≤ n)) := by
    rw [hsplit]
    exact h
  refine (hinv.retire fun j hj => hn j ?_ ?_).withList _
  · exact (List.takeWhile_sublist _).subset hj
  · simpa using List.mem_takeWhile_imp hj

theorem dispatch_spec {flags : QueueFlags} {dests : List Nat} (h : s.Inv isFixedMapping)
    (hop : s.Allowed isFixedMapping (.dispatch i flags srcs dests)) :
    ∃ s', s.dispatch isFixedMapping i (.renamed flags srcs dests) = some s' ∧
      s'.Inv isFixedMapping := by
  obtain ⟨hi, hsrcs, hdests, hkind, hnop⟩ := hop
  let t : WakeUp := { s with
    inst := Function.update s.inst i (.renamed flags srcs dests), youngest := i }
  have ht : t.Inv isFixedMapping := InvOn.fresh h hi _
  have hyounger : ∀ j ∈ s.instList, j < i := fun j hj => Nat.lt_of_le_of_lt (h.youngest j hj) hi
  have hother : ∀ j ∈ s.instList, t.inst j = s.inst j :=
    fun j hj => Function.update_of_ne (Nat.ne_of_lt (hyounger j hj)) ..
  have hcomes : Comes isFixedMapping t i flags srcs dests := by
    refine ⟨Function.update_self .., hyounger, Nat.le_refl i,
      fun hr => absurd (h.seen i hr) (Nat.not_le_of_lt hi), hkind, fun src hsrc hready => ?_,
      fun dest hdest hf => ?_⟩
    · obtain ⟨hf, hwritten | ⟨p, hp, hproduces⟩⟩ := hsrcs src hsrc hready
      · exact ⟨hf, .inl hwritten⟩
      · exact ⟨hf, .inr ⟨p, hp, by rwa [hother p hp]⟩⟩
    · obtain ⟨hothers, hown⟩ := hdests dest hdest hf
      exact ⟨fun j hj => by rw [hother j hj]; exact hothers j hj, hown⟩
  have hflags : (WakeInst.renamed flags srcs dests).flags = flags := rfl
  simp only [dispatch, hflags]
  cases hinsert : flags.insertKind with
  | insert => exact insert_spec ht hcomes hinsert
  | insertNonSpec => exact insertNonSpec_spec ht hcomes (by simp [hinsert]) (by simp [hinsert])
  | insertBarrier => exact insertNonSpec_spec ht hcomes (by simp [hinsert]) (by simp [hinsert])
  | recordProducer =>
    -- a nop has nothing to produce
    have hfixed := hnop hinsert
    have hfold : ∀ dests' : List Nat, (∀ dest ∈ dests', isFixedMapping dest = true) →
        dests'.foldlM (addProducer isFixedMapping i) t = some t := by
      intro dests' hall
      induction dests' with
      | nil => rfl
      | cons d dests' ih =>
        have hd := hall d List.mem_cons_self
        simp [addProducer, hd, ih fun dest hdest => hall dest (List.mem_cons_of_mem d hdest)]
    have hdests' : (t.inst i).dests = dests := by rw [hcomes.inst]; rfl
    refine ⟨t, ?_, ht⟩
    change t.addToProducers isFixedMapping i = some t
    rw [addToProducers, hdests', hfold dests hfixed]

/-- No operation fails that is allowed, and each keeps the invariant. -/
theorem step_spec {op : WakeOp} (h : s.Inv isFixedMapping) (hop : s.Allowed isFixedMapping op) :
    ∃ s', s.step isFixedMapping op = some s' ∧ s'.Inv isFixedMapping := by
  cases op with
  | dispatch i flags srcs dests => exact dispatch_spec h hop
  | scheduleNonSpec i => exact scheduleNonSpec_spec h hop
  | setIssued i =>
    exact ⟨_, rfl, InvOn.modifyInst (f := fun w => { w with issued := true }) h
      ⟨rfl, rfl, rfl, rfl, rfl, rfl⟩ (fun _ _ => hop.2) (.inl rfl)⟩
  | clearIssued i =>
    exact ⟨_, rfl, InvOn.modifyInst (f := fun w => { w with issued := false }) h
      ⟨rfl, rfl, rfl, rfl, rfl, rfl⟩ (fun hissued => by cases hissued) (.inl rfl)⟩
  | wakeDependents i =>
    obtain ⟨hinv, hlist⟩ := wakeDependents_inv h hop.2.1
    refine ⟨_, rfl, ?_⟩
    rw [Inv, hlist]
    exact hinv
  | commit n => exact ⟨_, rfl, commit_inv h hop⟩
  | squash n => exact doSquash_spec n h

theorem inv_init (h : (system isFixedMapping).init s) : s.Inv isFixedMapping := by
  cases h
  exact ⟨.nil, fun _ hj => absurd hj List.not_mem_nil, fun _ hj => absurd hj List.not_mem_nil,
    fun _ _ => rfl, fun _ hj => absurd hj List.not_mem_nil, fun _ hj => absurd hj List.not_mem_nil,
    fun _ hj => absurd hj List.not_mem_nil, .nil, fun _ hj => absurd hj List.not_mem_nil,
    fun _ hj => absurd hj List.not_mem_nil, .nil, fun _ hj => absurd hj List.not_mem_nil,
    fun _ hj => absurd hj List.not_mem_nil, fun _ hj => absurd hj List.not_mem_nil,
    fun _ hj => absurd hj List.not_mem_nil, fun _ hj => absurd hj List.not_mem_nil⟩

theorem reaches_inv {ops : List WakeOp} (h : (system isFixedMapping).Reaches ops s) :
    s.Inv isFixedMapping := by
  refine h.invariant (fun s hs => inv_init hs) fun s op u hs hstep => ?_
  obtain ⟨t, ht, hinv⟩ := step_spec hs hstep.1
  rw [hstep.2] at ht
  cases ht
  exact hinv

end Steps

section Runs

variable {ops : List WakeOp} {op : WakeOp}

/-- As long as rename hands out registers that no instruction of the queue uses, and commit retires
only what was executed, an instruction that is to leave a chain is found there, a register that is
produced anew has an empty one, and so has a register of a squashed instruction. -/
theorem never_fails (h : (system isFixedMapping).Reaches ops s)
    (hop : s.Allowed isFixedMapping op) : ∃ s', s.step isFixedMapping op = some s' := by
  obtain ⟨s', hs', -⟩ := step_spec (reaches_inv h) hop
  exact ⟨s', hs'⟩

/-- An instruction of the queue is found to be ready once, when the last of its operands is written,
and an operand that is not written is still in the chain of its register. So it does not wait any
longer when all the older instructions are executed. -/
theorem readied_iff (h : (system isFixedMapping).Reaches ops s) (hi : i ∈ s.instList)
    (hinsert : (s.inst i).flags.insertKind = .insert) :
    (i ∈ s.readied ↔ ∀ src ∈ (s.inst i).srcs, src.ready = true ∨ isFixedMapping src.reg = true ∨
        s.regScoreboard src.reg = true) ∧
      s.readied.count i ≤ 1 ∧
      (∀ src ∈ (s.inst i).srcs, waits isFixedMapping s.regScoreboard src = true →
        i ∈ s.graph.dependents src.reg) ∧
      ((∀ p ∈ s.instList, p < i → (s.inst p).woken = true) → i ∈ s.readied) := by
  have hinv := reaches_inv h
  have hcount := hinv.counted i hi hinsert
  have hready := hinv.readied i hi hinsert
  have hall : i ∈ s.readied ↔
      ∀ src ∈ (s.inst i).srcs, waits isFixedMapping s.regScoreboard src = false := by
    have hnone : i ∈ s.readied ↔
        (s.inst i).srcs.countP (waits isFixedMapping s.regScoreboard) = 0 := by
      rw [hready]
      omega
    rw [hnone, List.countP_eq_zero]
    simp
  refine ⟨hall.trans (forall₂_congr fun src _ => ?_), List.nodup_iff_count_le_one.mp hinv.once i,
    fun src hsrc hw => ?_, fun hold => hall.mpr fun src hsrc => ?_⟩
  · cases hr : src.ready <;> cases hf : isFixedMapping src.reg <;> simp [waits, hr, hf]
  · have hpos : 0 < (s.graph.dependents src.reg).count i := by
      rw [hinv.chain, if_pos ⟨hi, hinsert⟩]
      exact List.countP_pos_iff.mpr ⟨src, hsrc, by simp [waitsOn, hw]⟩
    exact List.count_pos_iff.mp hpos
  · by_contra hw
    obtain ⟨p, hp, hlt, -, hwoken⟩ := hinv.produced i hi hinsert src hsrc (by simpa using hw)
    rw [hold p hp hlt] at hwoken
    cases hwoken

/-! The second of two instructions reads what the first produces. -/

def produceRead : List WakeOp :=
  [.dispatch 1 {} [] [10], .dispatch 2 {} [⟨10, false⟩, ⟨10, false⟩] [11], .setIssued 1,
    .wakeDependents 1]

theorem produceRead_reaches : ∃ s, (system fun _ => false).Reaches produceRead s ∧
    2 ∈ s.instList ∧ (s.inst 2).flags.insertKind = .insert ∧ s.readied = [1, 2] := by
  have hstart : (system fun _ => false).Reaches [] _ := .start rfl
  have hfirst : (system fun _ => false).Reaches (produceRead.take 1) _ :=
    hstart.snoc ⟨⟨by decide, by simp, by simp [DestOk], by decide, by decide⟩, rfl⟩
  have hsecond : (system fun _ => false).Reaches (produceRead.take 2) _ :=
    hfirst.snoc ⟨⟨by decide,
      fun src hsrc _ => ⟨rfl, .inr ⟨1, by decide,
        by obtain rfl : src = ⟨10, false⟩ := by simpa using hsrc
           decide,
        rfl⟩⟩,
      fun dest hdest _ => ⟨
        fun i hi => by
          obtain rfl : dest = 11 := by simpa using hdest
          obtain rfl : i = 1 := List.mem_singleton.mp hi
          exact ⟨by decide, fun src hsrc => nomatch hsrc⟩,
        fun src hsrc => by
          obtain rfl : dest = 11 := by simpa using hdest
          obtain rfl : src = ⟨10, false⟩ := by simpa using hsrc
          decide⟩,
      by decide, by decide⟩, rfl⟩
  have hissued : (system fun _ => false).Reaches (produceRead.take 3) _ :=
    hsecond.snoc ⟨⟨by decide, by decide⟩, rfl⟩
  have hwoken : (system fun _ => false).Reaches (produceRead.take 4) _ :=
    hissued.snoc ⟨⟨by decide, by decide, rfl⟩, rfl⟩
  exact ⟨_, hwoken, by decide, by decide, by decide⟩

theorem never_fails_produceRead : ∃ s, (system fun _ => false).Reaches produceRead s ∧
    ∃ s', s.step (fun _ => false) (.squash 1) = some s' := by
  obtain ⟨s, hs, -⟩ := produceRead_reaches
  exact ⟨s, hs, never_fails hs trivial⟩

theorem readied_iff_produceRead : ∃ s, (system fun _ => false).Reaches produceRead s ∧
    s.readied.count 2 ≤ 1 ∧
    ∀ src ∈ (s.inst 2).srcs, src.ready = true ∨ false = true ∨ s.regScoreboard src.reg = true := by
  obtain ⟨s, hs, hi, hinsert, hreadied⟩ := produceRead_reaches
  obtain ⟨hiff, hcount, -, -⟩ := readied_iff hs hi hinsert
  exact ⟨s, hs, hcount, hiff.mp (by simp [hreadied])⟩

end Runs

end WakeUp
end Runahead
end Gem5
