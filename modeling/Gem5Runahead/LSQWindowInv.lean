import Gem5Runahead.RequestOwnerInv

/-!
# LSQWindowInv

The invariant of `RequestOwnerInv` for all instructions, in every run. What it needs of the other
instructions is small: the head of the ROB stays there until it is committed, and what has left the
CPU's list is committed or squashed.

* `MemInst.setRunahead_spec` — an instruction is marked, with its request.
* `LSQWindow.Inv` — the invariant; `step_inv` — each step succeeds and keeps it.
-/

namespace Gem5
namespace Runahead

open Arena

namespace MemInst

variable {marked : Prop} {mode : Bool} {head : Prop} {m m' : MemInst} {r : Nat} {q : MemRequest}

theorem setRunahead_of_none (hs : m.savedRequest = none) :
    m.setRunahead = some { m with runahead := true } := by
  simp only [setRunahead]
  split
  · rename_i r _ hr
    rw [hs] at hr
    cases hr
  · rfl

theorem setRunahead_of_some (hmade : m.reqMade = true) (hs : m.savedRequest = some r) :
    m.setRunahead = { m with runahead := true }.modifyRequest r fun q =>
      { q with data := { q.data with isRunahead := true } } := by
  simp only [setRunahead]
  split
  · rename_i r' _ hr
    rw [hs] at hr
    cases hr
    rfl
  · rename_i hnone
    exact absurd hs (hnone r hmade)

/-- The mark of the instruction, and of the request it has. -/
theorem setRunahead_spec (h : Inv marked mode head m)
    (hmarked : marked → ∀ r q, m.requests.get? r = some q → q.hasReqs = true)
    (hstore : m.isStore = true → m.committed = false ∧ ¬ head) :
    ∃ m', m.setRunahead = some m' ∧ Inv marked mode head m' ∧ m'.runahead = true ∧
      m'.threadNumber = m.threadNumber ∧ m'.committed = m.committed := by
  rcases h.live with hquiet | ⟨r, q, ho, hl⟩
  · exact ⟨_, setRunahead_of_none hquiet.saved,
      ⟨h.done, h.forged, h.freed, .inl (hquiet.congr rfl rfl rfl rfl rfl)⟩,
      rfl, rfl, rfl⟩
  · by_cases hreqs : q.hasReqs = true
    · have hsaved : m.savedRequest = some r := by rw [hl.saved, if_pos hreqs]
      let q₁ : MemRequest := { q with data := { q.data with isRunahead := true } }
      let m₁ : MemInst := { m with runahead := true }
      have hset : m.setRunahead = some { m₁ with requests := m.requests.put r q₁ } := by
        rw [setRunahead_of_some hl.reqMade hsaved, modifyRequest_eq (m := m₁) ho]
      refine ⟨_, hset, h.put ho rfl h.done h.forged ?_, rfl, rfl, rfl⟩
      exact { hl with
        bare := fun hbare => by
          rw [show q.hasReqs = false from hbare] at hreqs
          cases hreqs
        counted := ⟨hl.counted.count, hl.counted.unsent, hl.counted.single⟩
        loadDone := fun hk hd => (hl.loadDone hk hd).imp_right fun hor =>
          hor.imp_right fun hrun => ⟨rfl, hrun.2⟩
        rCache := fun _ => rfl
        flag := fun _ => rfl
        flagged := fun _ => rfl
        stores := fun hst hne => by
          obtain ⟨hc, hnot⟩ := hstore hst
          obtain ⟨-, hor⟩ := hl.stores hst hne
          rcases hor with hc' | hhead
          · rw [hc] at hc'
            cases hc'
          · exact absurd hhead hnot }
    · have hsaved : m.savedRequest = none := by rw [hl.saved, if_neg hreqs]
      obtain ⟨-, -, hidle⟩ := hl.bare (by simpa using hreqs)
      refine ⟨_, setRunahead_of_none hsaved,
        ⟨h.done, h.forged, h.freed, .inr ⟨r, q, ho, ?_⟩⟩, rfl, rfl, rfl⟩
      exact { hl with
        loadDone := fun hk hd => (hl.loadDone hk hd).imp_right fun hor =>
          hor.imp_right fun hrun => ⟨rfl, hrun.2⟩
        rCache := fun _ => rfl
        flag := fun hm => absurd (hm.elim id fun hm => hmarked hm r q ho.get) hreqs
        flagged := fun _ => rfl
        stores := fun _ hne => absurd hidle.inDCache hne }

end MemInst

/-! ## All instructions -/

/-- A load is not forwarded to, or put off, by a store while packets of its request are on their
way. -/
def WindowOp.Unforwarded (s : LSQWindow) : WindowOp → Prop
  | .inst i op => op.Unforwarded (s.insts i)
  | _ => True

/-- At the entry, every request of an instruction that is marked accesses some byte. -/
def WindowOp.Accessing (s : LSQWindow) : WindowOp → Prop
  | .enterRunahead tid => ∀ i ∈ s.instList, (s.insts i).threadNumber = tid →
      (s.insts i).committed = false → ∀ r q, (s.insts i).requests.get? r = some q →
        q.hasReqs = true
  | _ => True

namespace LSQWindow

/-- The invariant of every instruction. -/
structure Inv (marked : Prop) (s : LSQWindow) : Prop where
  inst : ∀ i, (s.insts i).Inv marked (s.inRunahead (s.insts i).threadNumber) (s.AtHead i)
  gone : ∀ i, i ∉ s.instList → (s.insts i).committed = true ∨ (s.insts i).squashed = true ∨
    (s.insts i).runahead = false
  nodup : s.instList.Nodup
  old : ∀ i ∈ s.instList, i < s.globalSeqNum

variable {marked : Prop} {s s' : LSQWindow} {i tid : Nat}

theorem inv_init (marked : Prop) : Inv marked {} where
  inst _ := MemInst.inv_new 0 .other false
  gone _ _ := .inr (.inr rfl)
  nodup := List.nodup_nil
  old _ hi := nomatch hi

theorem fetch_inv (h : Inv marked s) (tid : Nat) (kind : MemKind) :
    Inv marked (s.fetch tid kind) where
  inst i := by
    by_cases hi : i = s.globalSeqNum
    · subst hi
      simp only [LSQWindow.fetch, AtHead, Function.update_self]
      exact MemInst.inv_new tid kind _
    · simp only [LSQWindow.fetch, AtHead, Function.update_of_ne hi]
      exact h.inst i
  gone i hi := by
    simp only [LSQWindow.fetch, List.mem_append, List.mem_singleton, not_or] at hi
    simp only [LSQWindow.fetch, Function.update_of_ne hi.2]
    exact h.gone i hi.1
  nodup := by
    have hnew : s.globalSeqNum ∉ s.instList := fun hmem => Nat.lt_irrefl _ (h.old _ hmem)
    exact List.nodup_append.mpr ⟨h.nodup, by simp, by
      intro a ha b hb hab
      rw [List.mem_singleton] at hb
      exact hnew (hb ▸ hab ▸ ha)⟩
  old i hi := by
    simp only [LSQWindow.fetch, List.mem_append, List.mem_singleton] at hi
    change i < s.globalSeqNum + 1
    rcases hi with hi | rfl
    · exact Nat.lt_succ_of_lt (h.old i hi)
    · exact Nat.lt_succ_self _

theorem dispatch_inv (h : Inv marked s) (i : Nat) : Inv marked (s.dispatch i) where
  inst j := by
    refine (h.inst j).congr_head fun hat => .inr ?_
    simp only [AtHead, LSQWindow.dispatch] at hat ⊢
    by_cases htid : (s.insts j).threadNumber = (s.insts i).threadNumber
    · rw [htid] at hat ⊢
      rw [Function.update_self, List.head?_append, hat]
      rfl
    · rw [Function.update_of_ne htid]
      exact hat
  gone := h.gone
  nodup := h.nodup
  old := h.old

/-- Only commit takes an instruction from the head of the ROB. -/
theorem act_inv (h : Inv marked s) (op : MemOp) (ha : (WindowOp.inst i op).Allowed s)
    (hu : op.Unforwarded (s.insts i)) :
    ∃ s', s.act i op = some s' ∧ Inv marked s' := by
  obtain ⟨-, hallowed, hop⟩ := ha
  have hw : ∀ env, op = .writebackStore env → (s.insts i).committed = true ∨ s.AtHead i := by
    rintro env rfl
    exact hop.imp_right And.left
  obtain ⟨m, hstep, hinv, hkept⟩ := MemInst.step_inv (h.inst i) op hallowed hu hw
  obtain ⟨rob, hact, hsame, hother⟩ : ∃ rob,
      s.act i op = some { s with insts := Function.update s.insts i m, rob := rob } ∧
      (op ≠ .commit → rob = s.rob) ∧
      ∀ tid, tid ≠ (s.insts i).threadNumber → rob tid = s.rob tid := by
    refine ⟨_, by simp only [act, hstep, Option.bind_eq_bind, Option.bind_some]; rfl, ?_, ?_⟩
    · intro hc
      cases op <;> first | rfl | exact absurd rfl hc
    · intro tid htid
      cases op <;> first | rfl | exact Function.update_of_ne htid _ _
  let s' : LSQWindow := { s with insts := Function.update s.insts i m, rob := rob }
  have hthread : ∀ j, (s'.insts j).threadNumber = (s.insts j).threadNumber := by
    intro j
    by_cases hj : j = i
    · subst hj
      simp only [s', Function.update_self]
      exact hkept.threadNumber
    · simp only [s', Function.update_of_ne hj]
  -- an instruction stays at the head, or is the one that is committed
  have hhead : ∀ j, s.AtHead j → (s'.insts j).committed = true ∨ s'.AtHead j := by
    intro j hat
    by_cases hc : op = .commit
    · subst hc
      by_cases hj : j = i
      · subst hj
        refine .inl ?_
        cases hstep
        simp only [s', Function.update_self]
      · refine .inr ?_
        unfold AtHead at hat ⊢
        rw [hthread]
        have hne : (s.insts j).threadNumber ≠ (s.insts i).threadNumber := by
          intro htid
          have hhead : s.AtHead i := hop
          unfold AtHead at hhead
          rw [htid, hhead] at hat
          exact hj (Option.some.inj hat).symm
        change (rob _).head? = some j
        rw [hother _ hne]
        exact hat
    · refine .inr ?_
      unfold AtHead at hat ⊢
      rw [hthread]
      change (rob _).head? = some j
      rw [hsame hc]
      exact hat
  refine ⟨s', hact, ⟨fun j => ?_, fun j hj => ?_, h.nodup, h.old⟩⟩
  · rw [hthread]
    by_cases hj : j = i
    · subst hj
      refine @MemInst.Inv.congr_head _ _ (s.AtHead j) _ ?_ _ (hhead j)
      simp only [s', Function.update_self]
      exact hinv
    · refine @MemInst.Inv.congr_head _ _ (s.AtHead j) _ ?_ _ (hhead j)
      simp only [s', Function.update_of_ne hj]
      exact h.inst j
  · by_cases hji : j = i
    · subst hji
      simp only [s', Function.update_self]
      rw [hkept.runahead]
      exact (h.gone j hj).imp hkept.committed fun hor => hor.imp_left hkept.squashed
    · simp only [s', Function.update_of_ne hji]
      exact h.gone j hj

/-- What is done to an instruction at the entry. -/
theorem enterRunahead_step (m : MemInst) (tid : Nat) :
    (if m.threadNumber ≠ tid ∨ m.committed = true then some m else m.setRunahead) =
      if m.threadNumber = tid ∧ m.committed = false then m.setRunahead else some m := by
  by_cases htid : m.threadNumber = tid <;> cases m.committed <;> simp [htid]

/-- An instruction that is marked at the entry is not a store that is being written back. -/
theorem Enters.isStore (he : s.Enters tid) (htid : (s.insts i).threadNumber = tid)
    (hat : s.AtHead i) : (s.insts i).isStore = false := by
  obtain ⟨-, ⟨h, hh, -, hk, -⟩, -⟩ := he
  unfold AtHead at hat
  rw [htid, show (s.rob tid).head? = some h from hh] at hat
  cases hat
  simp [MemInst.isStore, hk]

theorem enterRunahead_inv (h : Inv marked s) (he : s.Enters tid)
    (hm : marked → (WindowOp.enterRunahead tid).Accessing s) :
    ∃ s', s.enterRunahead tid = some s' ∧ Inv marked s' ∧
      (∀ i ∈ s.instList, (s.insts i).threadNumber = tid → (s.insts i).committed = false →
        (s'.insts i).runahead = true) ∧
      (∀ i, i ∉ s.instList ∨ (s.insts i).threadNumber ≠ tid ∨ (s.insts i).committed = true →
        s'.insts i = s.insts i) ∧
      ∀ i, (s'.insts i).threadNumber = (s.insts i).threadNumber ∧
        (s'.insts i).committed = (s.insts i).committed := by
  let f : Nat → MemInst → Option MemInst := fun _ m =>
    if m.threadNumber ≠ tid ∨ m.committed = true then some m else m.setRunahead
  -- in the new mode, before it is marked
  have hmode : ∀ i, (s.insts i).threadNumber = tid →
      (s.insts i).Inv marked true (s.AtHead i) := by
    intro i htid
    refine (h.inst i).changeMode fun _ hrun => ?_
    by_cases hc : (s.insts i).committed = true
    · exact (h.inst i).done hc
    · by_cases hmem : i ∈ s.instList
      · exact .inl (he.2.2 i hmem htid (by simpa using hc) hrun)
      · rcases h.gone i hmem with hc' | hs | hoff
        · exact absurd hc' hc
        · exact .inl hs
        · rw [hrun] at hoff
          cases hoff
  have hset : ∀ i ∈ s.instList, (s.insts i).threadNumber = tid →
      (s.insts i).committed = false → ∃ m', (s.insts i).setRunahead = some m' ∧
        m'.Inv marked true (s.AtHead i) ∧ m'.runahead = true ∧
        m'.threadNumber = (s.insts i).threadNumber ∧ m'.committed = (s.insts i).committed := by
    intro i hmem htid hc
    refine MemInst.setRunahead_spec (hmode i htid) (fun hmk => hm hmk i hmem htid hc)
      fun hst => ⟨hc, fun hat => ?_⟩
    rw [he.isStore htid hat] at hst
    cases hst
  have hsome : (updateEach f s.instList s.insts).isSome := by
    refine updateEach_isSome h.nodup fun i hmem => ?_
    simp only [f, enterRunahead_step]
    split
    · rename_i hcond
      obtain ⟨m', hm', -⟩ := hset i hmem hcond.1 hcond.2
      rw [hm']
      rfl
    · rfl
  obtain ⟨insts, hinsts⟩ := Option.isSome_iff_exists.mp hsome
  let s' : LSQWindow :=
    { s with insts := insts, inRunahead := Function.update s.inRunahead tid true }
  have henter : s.enterRunahead tid = some s' := by
    have hfold : updateEach (fun _ m =>
        if m.threadNumber ≠ tid ∨ m.committed = true then some m else m.setRunahead)
        s.instList s.insts = some insts := hinsts
    simp only [enterRunahead, hfold, Option.bind_eq_bind, Option.bind_some]
    rfl
  have hmarkedInst : ∀ i ∈ s.instList, (s.insts i).threadNumber = tid →
      (s.insts i).committed = false → (insts i).Inv marked true (s.AtHead i) ∧
        (insts i).runahead = true ∧ (insts i).threadNumber = (s.insts i).threadNumber ∧
        (insts i).committed = (s.insts i).committed := by
    intro i hmem htid hc
    obtain ⟨m', hm', hrest⟩ := hset i hmem htid hc
    have hf := updateEach_mem hinsts h.nodup hmem
    simp only [f, enterRunahead_step, if_pos (And.intro htid hc), hm'] at hf
    rw [← Option.some.inj hf]
    exact hrest
  have hother : ∀ i, i ∉ s.instList ∨ (s.insts i).threadNumber ≠ tid ∨
      (s.insts i).committed = true → insts i = s.insts i := by
    intro i hcond
    by_cases hmem : i ∈ s.instList
    · have hf := updateEach_mem hinsts h.nodup hmem
      have hnot : ¬ ((s.insts i).threadNumber = tid ∧ (s.insts i).committed = false) := by
        rintro ⟨htid, hc⟩
        rw [hc] at hcond
        simp [hmem, htid] at hcond
      simp only [f, enterRunahead_step, if_neg hnot] at hf
      exact (Option.some.inj hf).symm
    · exact updateEach_not_mem hinsts hmem
  have hsame : ∀ i, (insts i).threadNumber = (s.insts i).threadNumber ∧
      (insts i).committed = (s.insts i).committed := by
    intro i
    by_cases hcond : i ∉ s.instList ∨ (s.insts i).threadNumber ≠ tid ∨
        (s.insts i).committed = true
    · rw [hother i hcond]
      exact ⟨rfl, rfl⟩
    · simp only [not_or, not_not, Bool.not_eq_true] at hcond
      obtain ⟨-, -, hboth⟩ := hmarkedInst i hcond.1 hcond.2.1 hcond.2.2
      exact hboth
  have hhead : ∀ i, s.AtHead i → s'.AtHead i := by
    intro i hat
    unfold AtHead at hat ⊢
    rw [show (s'.insts i).threadNumber = (s.insts i).threadNumber from (hsame i).1]
    exact hat
  refine ⟨s', henter, ⟨fun i => ?_, fun i hi => ?_, h.nodup, h.old⟩,
    fun i hmem htid hc => (hmarkedInst i hmem htid hc).2.1, hother, hsame⟩
  · refine @MemInst.Inv.congr_head _ _ (s.AtHead i) _ ?_ _ fun hat => .inr (hhead i hat)
    rw [show (s'.insts i).threadNumber = (s.insts i).threadNumber from (hsame i).1]
    by_cases htid : (s.insts i).threadNumber = tid
    · have hon : s'.inRunahead (s.insts i).threadNumber = true := by
        rw [htid]
        exact Function.update_self _ _ _
      rw [hon]
      by_cases hcond : i ∉ s.instList ∨ (s.insts i).threadNumber ≠ tid ∨
          (s.insts i).committed = true
      · rw [show s'.insts i = s.insts i from hother i hcond]
        exact hmode i htid
      · simp only [not_or, not_not, Bool.not_eq_true] at hcond
        exact (hmarkedInst i hcond.1 hcond.2.1 hcond.2.2).1
    · have hoff : s'.inRunahead (s.insts i).threadNumber =
          s.inRunahead (s.insts i).threadNumber := Function.update_of_ne htid _ _
      rw [hoff, show s'.insts i = s.insts i from hother i (.inr (.inl htid))]
      exact h.inst i
  · rw [show s'.insts i = s.insts i from hother i (.inl hi)]
    exact h.gone i hi

theorem exitRunahead_inv (h : Inv marked s) (tid : Nat) :
    Inv marked { s with inRunahead := Function.update s.inRunahead tid false } where
  inst i := by
    by_cases htid : (s.insts i).threadNumber = tid
    · simp only [htid, Function.update_self]
      exact (h.inst i).changeMode fun hon => nomatch hon
    · simp only [Function.update_of_ne htid]
      exact h.inst i
  gone := h.gone
  nodup := h.nodup
  old := h.old

theorem remove_inv (h : Inv marked s)
    (hi : (s.insts i).committed = true ∨ (s.insts i).squashed = true) :
    Inv marked { s with instList := s.instList.erase i } where
  inst := h.inst
  gone j hj := by
    by_cases hji : j = i
    · subst hji
      exact hi.imp_right .inl
    · exact h.gone j fun hmem => hj ((List.mem_erase_of_ne hji).mpr hmem)
  nodup := h.nodup.erase i
  old j hj := h.old j (List.mem_of_mem_erase hj)

theorem step_inv (h : Inv marked s) {op : WindowOp} (ha : op.Allowed s) (hu : op.Unforwarded s)
    (hm : marked → op.Accessing s) : ∃ s', s.step op = some s' ∧ Inv marked s' := by
  cases op with
  | fetch tid kind => exact ⟨_, rfl, fetch_inv h tid kind⟩
  | dispatch i => exact ⟨_, rfl, dispatch_inv h i⟩
  | inst i op => exact act_inv h op ha hu
  | enterRunahead tid =>
    obtain ⟨s', henter, hinv, -⟩ := enterRunahead_inv h ha hm
    exact ⟨s', henter, hinv⟩
  | exitRunahead tid => exact ⟨_, rfl, exitRunahead_inv h tid⟩
  | remove i => exact ⟨_, rfl, remove_inv h ha⟩

end LSQWindow
end Runahead
end Gem5
