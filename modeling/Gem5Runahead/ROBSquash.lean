import Gem5Runahead.ROB

/-!
# ROBSquash

A squash of the ROB from its start to its end. `Commit::tick` calls `doSquash` once a cycle until
`doneSquashing` is set, and each call goes on where the one before stopped.

* `squashWalk` — a squash, and the cycles after it.
* `Progress` — where a squash has got to: what it has passed is marked, and nothing else.
* `walk_ends`, `walk_marks` — a walk that goes on ends, and marks what is younger.
* `squash_exact` — the squash marks what it is to mark, and ends; and an older one on top of it
  makes no difference to the older one.
-/

namespace Gem5
namespace Runahead
namespace ROB

section Walk

variable (squashWidth numEntries : Nat)

/-- How many instructions a call of `doSquash` marks at most. -/
def numInstsToSquash (exiting : Bool) : Nat := if exiting then numEntries else squashWidth

/-- The cycles of the walk; a call says whether the thread is exiting. -/
def walk : List Bool → ROB → Insts → Option (ROB × Insts)
  | [], rob, insts => some (rob, insts)
  | exiting :: calls, rob, insts =>
    if rob.doneSquashing then some (rob, insts)
    else do
      let (rob, insts) ← rob.doSquash (numInstsToSquash squashWidth numEntries exiting) insts
      walk calls rob insts

/-- A squash, with its first cycle, and the cycles after it. -/
def squashWalk (rob : ROB) (squashNum : Nat) (exiting : Bool) (calls : List Bool) (insts : Insts) :
    Option (ROB × Insts) := do
  let (rob, insts) ← rob.squash (numInstsToSquash squashWidth numEntries exiting) squashNum insts
  walk squashWidth numEntries calls rob insts

end Walk

/-- The instructions of `l` are marked as squashed and able to commit, and no others. -/
def Marks (l : List Nat) (insts insts' : Insts) : Prop :=
  ∀ i, insts' i = if i ∈ l then (insts i).setSquashed.setCanCommit else insts i

/-- The squash down to `s` that began with `insts` has got to the iterator, or to its end. -/
inductive Progress (list : List Nat) (s : Nat) (insts : Insts) : ROB → Insts → Prop
  | walking {passed it : List Nat} {insts' : Insts} (hne : it ≠ [])
      (hpassed : list.reverse = passed ++ it) (hyounger : ∀ i ∈ passed, s < i)
      (hmarks : Marks passed insts insts') :
      Progress list s insts ⟨list, s, it, false⟩ insts'
  | done {insts' : Insts} (hmarks : Marks (list.filter (s < ·)) insts insts') :
      Progress list s insts ⟨list, s, [], true⟩ insts'

section Exact

variable {rob rob' : ROB} {insts insts' : Insts} {s n : Nat} {list : List Nat}

theorem Marks.refl (insts : Insts) : Marks [] insts insts := fun _ => by simp

theorem Marks.congr {l l' : List Nat} (h : Marks l insts insts') (hl : ∀ i, i ∈ l ↔ i ∈ l') :
    Marks l' insts insts' := by
  intro i
  rw [h i]
  simp only [hl]

/-- An instruction may be marked twice. -/
theorem Marks.trans {l l' : List Nat} {insts'' : Insts} (h : Marks l insts insts')
    (h' : Marks l' insts' insts'') : Marks (l ++ l') insts insts'' := by
  intro i
  rw [h' i, h i]
  by_cases hi' : i ∈ l'
  · by_cases hi : i ∈ l
    · simp only [hi, hi', List.mem_append, or_self, if_true]
      rfl
    · simp [hi, hi']
  · simp [hi']

/-- The loop passes a part of what is before it, and stops at its end, at an older instruction, or
when it has marked as many as it may. -/
theorem squashInsts_exact (sq : Nat) : ∀ (w : Nat) (it : List Nat) (insts : Insts),
    ∃ passed, it = passed ++ (squashInsts sq w it insts).1 ∧ passed.length ≤ w ∧
      (∀ i ∈ passed, sq < i) ∧ Marks passed insts (squashInsts sq w it insts).2 ∧
      ((squashInsts sq w it insts).1.head?.all (· ≤ sq) = false → passed.length = w) := by
  intro w it
  induction it generalizing w with
  | nil =>
    intro insts
    cases w <;> exact ⟨[], rfl, by simp, by simp, .refl _, by simp [squashInsts]⟩
  | cons a it ih =>
    intro insts
    cases w with
    | zero => exact ⟨[], rfl, Nat.le_refl _, by simp, .refl _, fun _ => rfl⟩
    | succ w =>
      by_cases hlt : sq < a
      · simp only [squashInsts, if_pos hlt]
        obtain ⟨passed, hit, hlength, hyounger, hmarks, hstop⟩ :=
          ih w (insts.modify a fun inst => inst.setSquashed.setCanCommit)
        refine ⟨a :: passed, by rw [List.cons_append, ← hit], by simpa using hlength, ?_, ?_, ?_⟩
        · intro i hi
          rcases List.mem_cons.mp hi with rfl | hi
          · exact hlt
          · exact hyounger i hi
        · have hfirst : Marks [a] insts
              (insts.modify a fun inst => inst.setSquashed.setCanCommit) := by
            intro i
            rw [Insts.modify_apply]
            simp
          exact hfirst.trans hmarks
        · intro hhead
          simp [hstop hhead]
      · simp only [squashInsts, if_neg hlt]
        exact ⟨[], rfl, by simp, by simp, .refl _, by simp; omega⟩

/-- What the loop has passed when it stops at an older instruction, or at the end, are all the
younger ones. -/
theorem mem_passed {passed it : List Nat} (hsorted : list.Pairwise (· < ·))
    (hpassed : list.reverse = passed ++ it) (hyounger : ∀ i ∈ passed, s < i)
    (hstop : it.head?.all (· ≤ s) = true) (i : Nat) : i ∈ passed ↔ i ∈ list.filter (s < ·) := by
  have hmem : ∀ i, i ∈ list ↔ i ∈ passed ∨ i ∈ it := by
    intro i
    rw [← List.mem_reverse, hpassed, List.mem_append]
  have holder : ∀ i ∈ it, i ≤ s := by
    intro i hi
    have hsorted : it.Pairwise (· > ·) := by
      have hall : list.reverse.Pairwise (· > ·) := List.pairwise_reverse.mpr hsorted
      rw [hpassed] at hall
      exact (List.pairwise_append.mp hall).2.1
    cases it with
    | nil => cases hi
    | cons a it =>
      have ha : a ≤ s := by simpa using hstop
      rcases List.mem_cons.mp hi with rfl | hi
      · exact ha
      · exact Nat.le_trans (Nat.le_of_lt ((List.pairwise_cons.mp hsorted).1 i hi)) ha
  simp only [List.mem_filter, decide_eq_true_eq, hmem]
  constructor
  · exact fun hi => ⟨.inl hi, hyounger i hi⟩
  · rintro ⟨hi | hi, hlt⟩
    · exact hi
    · exact absurd hlt (Nat.not_lt_of_le (holder i hi))

/-- A cycle of the walk marks no more than it may, and gets on if it may mark one. -/
theorem Progress.doSquash (h : Progress list s insts rob insts') (hsorted : list.Pairwise (· < ·))
    (hdone : rob.doneSquashing = false) (w : Nat) : ∃ rob'' insts'' l,
      rob.doSquash w insts' = some (rob'', insts'') ∧ l.length ≤ w ∧ Marks l insts' insts'' ∧
      Progress list s insts rob'' insts'' ∧
      (0 < w → rob''.doneSquashing = true ∨ rob''.squashIt.length < rob.squashIt.length) := by
  cases h with
  | done => cases hdone
  | @walking passed it _ hne hpassed hyounger hmarks =>
    obtain ⟨a, rest, rfl⟩ := List.exists_cons_of_ne_nil hne
    simp only [ROB.doSquash]
    by_cases hlt : a < s
    · have hstop : (a :: rest).head?.all (· ≤ s) = true := by simp; omega
      rw [if_pos hlt]
      exact ⟨_, _, [], rfl, by simp, .refl _,
        .done (hmarks.congr (mem_passed hsorted hpassed hyounger hstop)), fun _ => .inl rfl⟩
    · rw [if_neg hlt]
      obtain ⟨more, hit, hlength, hmore, hmarks', hwidth⟩ :=
        squashInsts_exact s w (a :: rest) insts'
      generalize squashInsts s w (a :: rest) insts' = r at *
      have hpassed' : list.reverse = (passed ++ more) ++ r.1 := by
        rw [hpassed, hit, List.append_assoc]
      have hyounger' : ∀ i ∈ passed ++ more, s < i := by
        intro i hi
        rcases List.mem_append.mp hi with hi | hi
        · exact hyounger i hi
        · exact hmore i hi
      have hboth := hmarks.trans hmarks'
      by_cases hstop : r.1.head?.all (· ≤ s) = true
      · rw [if_pos hstop]
        exact ⟨_, _, more, rfl, hlength, hmarks',
          .done (hboth.congr (mem_passed hsorted hpassed' hyounger' hstop)), fun _ => .inl rfl⟩
      · rw [if_neg hstop]
        have hne' : r.1 ≠ [] := by
          intro hnil
          rw [hnil] at hstop
          exact hstop rfl
        refine ⟨_, _, more, rfl, hlength, hmarks', .walking hne' hpassed' hyounger' hboth,
          fun hpos => .inr ?_⟩
        have hlen := congrArg List.length hit
        have hmoreLength := hwidth (by simpa using hstop)
        simp only [List.length_append] at hlen
        change r.1.length < (a :: rest).length
        omega

theorem Progress.instList (h : Progress list s insts rob insts') : rob.instList = list := by
  cases h <;> rfl

/-- The walk never meets the end iterator, and ends. -/
theorem Progress.walk {squashWidth numEntries : Nat} (hsorted : list.Pairwise (· < ·))
    (hwidth : 0 < squashWidth) (hsize : 0 < numEntries) (calls : List Bool)
    (h : Progress list s insts rob insts') : ∃ rob'' insts'',
      ROB.walk squashWidth numEntries calls rob insts' = some (rob'', insts'') ∧
      Progress list s insts rob'' insts'' ∧
      (rob.squashIt.length ≤ calls.length → rob''.doneSquashing = true) := by
  induction calls generalizing rob insts' with
  | nil =>
    refine ⟨rob, insts', rfl, h, fun hlen => ?_⟩
    cases h with
    | walking hne => exact absurd (List.length_eq_zero_iff.mp (Nat.le_zero.mp hlen)) hne
    | done => rfl
  | cons exiting calls ih =>
    simp only [ROB.walk]
    by_cases hdone : rob.doneSquashing = true
    · rw [if_pos hdone]
      exact ⟨rob, insts', rfl, h, fun _ => hdone⟩
    · rw [if_neg hdone]
      have hlimit : 0 < numInstsToSquash squashWidth numEntries exiting := by
        cases exiting
        · exact hwidth
        · exact hsize
      obtain ⟨rob₁, insts₁, _, hcall, -, -, h₁, hless⟩ :=
        h.doSquash hsorted (by simpa using hdone) (numInstsToSquash squashWidth numEntries exiting)
      obtain ⟨rob₂, insts₂, hwalk, h₂, hlast⟩ := ih h₁
      refine ⟨rob₂, insts₂, ?_, h₂, fun hlen => hlast ?_⟩
      · rw [hcall]
        exact hwalk
      · rcases hless hlimit with hdone₁ | hlt
        · cases h₁ with
          | walking => cases hdone₁
          | done => exact Nat.zero_le _
        · simp only [List.length_cons] at hlen
          omega

/-- The first cycle. -/
theorem squash_progress (hsorted : rob.instList.Pairwise (· < ·)) (hne : rob.instList ≠ [])
    (w : Nat) : ∃ rob' insts' l, rob.squash w s insts = some (rob', insts') ∧ l.length ≤ w ∧
      Marks l insts insts' ∧ Progress rob.instList s insts rob' insts' ∧
      (0 < w → rob'.squashIt.length < rob.instList.length) := by
  have hstart : Progress rob.instList s insts ⟨rob.instList, s, rob.instList.reverse, false⟩ insts :=
    @Progress.walking _ _ _ [] _ _ (by simpa using hne) rfl (by simp) (.refl _)
  obtain ⟨rob', insts', l, hcall, hlength, hmarks, h, hless⟩ := hstart.doSquash hsorted rfl w
  refine ⟨rob', insts', l, ?_, hlength, hmarks, h, fun hw => ?_⟩
  · rw [squash, if_neg hne]
    exact hcall
  · rcases hless hw with hdone | hlt
    · cases h with
      | walking => cases hdone
      | done => exact List.length_pos_iff.mpr hne
    · simpa using hlt

theorem squashWalk_progress {squashWidth numEntries : Nat} (hsorted : rob.instList.Pairwise (· < ·))
    (hne : rob.instList ≠ []) (hwidth : 0 < squashWidth)
    (hsize : rob.instList.length ≤ numEntries) (exiting : Bool) (calls : List Bool) :
    ∃ rob' insts', rob.squashWalk squashWidth numEntries s exiting calls insts = some (rob', insts') ∧
      Progress rob.instList s insts rob' insts' ∧
      (rob.instList.length ≤ calls.length + 1 → rob'.doneSquashing = true) := by
  have hpos : 0 < numEntries := Nat.lt_of_lt_of_le (List.length_pos_iff.mpr hne) hsize
  have hlimit : 0 < numInstsToSquash squashWidth numEntries exiting := by
    cases exiting
    · exact hwidth
    · exact hpos
  obtain ⟨rob₁, insts₁, _, hsquash, -, -, h₁, hless⟩ :=
    @squash_progress _ insts s hsorted hne
      (numInstsToSquash squashWidth numEntries exiting)
  obtain ⟨rob₂, insts₂, hwalk, h₂, hlast⟩ := h₁.walk hsorted hwidth hpos calls
  refine ⟨rob₂, insts₂, ?_, h₂, fun hlen => hlast ?_⟩
  · rw [squashWalk, hsquash]
    exact hwalk
  · have := hless hlimit
    omega

/-- A squash on top of one that is under way ends as it does alone. -/
theorem Progress.restart {s' : Nat} {rob₂ rob₃ : ROB} {insts₂ insts₃ : Insts}
    (h : Progress list s insts rob insts') (hdone : rob.doneSquashing = false) (holder : s' < s)
    (h₂ : Progress list s' insts' rob₂ insts₂) (hdone₂ : rob₂.doneSquashing = true)
    (h₃ : Progress list s' insts rob₃ insts₃) (hdone₃ : rob₃.doneSquashing = true) :
    rob₂ = rob₃ ∧ insts₂ = insts₃ := by
  cases h with
  | done => cases hdone
  | @walking passed it _ hne hpassed hyounger hmarks =>
    cases h₂ with
    | walking => cases hdone₂
    | done hmarks₂ =>
      cases h₃ with
      | walking => cases hdone₃
      | done hmarks₃ =>
        refine ⟨rfl, funext fun i => ?_⟩
        rw [hmarks₂ i, hmarks₃ i, hmarks i]
        by_cases hi : i ∈ passed
        · have hmem : i ∈ list.filter (s' < ·) := by
            have hlist : i ∈ list := by
              rw [← List.mem_reverse, hpassed]
              exact List.mem_append_left _ hi
            have hlt := hyounger i hi
            exact List.mem_filter.mpr ⟨hlist, by simpa using Nat.lt_trans holder hlt⟩
          rw [if_pos hmem, if_pos hmem, if_pos hi]
          rfl
        · rw [if_neg hi]

/-- A cycle of a walk that has an instruction to point to: it ends, or gets on if it may mark
one. -/
theorem doSquash_less {w : Nat} (hw : 0 < w) (hne : rob.squashIt ≠ []) :
    ∃ rob' insts', rob.doSquash w insts = some (rob', insts') ∧ (rob'.doneSquashing = true ∨
      rob'.squashIt ≠ [] ∧ rob'.squashIt.length < rob.squashIt.length) := by
  obtain ⟨a, rest, hit⟩ := List.exists_cons_of_ne_nil hne
  simp only [ROB.doSquash, hit]
  by_cases hlt : a < rob.squashedSeqNum
  · rw [if_pos hlt]
    exact ⟨_, _, rfl, .inl rfl⟩
  · rw [if_neg hlt]
    obtain ⟨passed, hpassed, -, -, -, hwidth⟩ :=
      squashInsts_exact rob.squashedSeqNum w (a :: rest) insts
    generalize squashInsts rob.squashedSeqNum w (a :: rest) insts = r at *
    by_cases hstop : r.1.head?.all (· ≤ rob.squashedSeqNum) = true
    · rw [if_pos hstop]
      exact ⟨_, _, rfl, .inl rfl⟩
    · rw [if_neg hstop]
      have hlength := hwidth (by simpa using hstop)
      have hsum := congrArg List.length hpassed
      rw [List.length_append] at hsum
      refine ⟨_, _, rfl, .inr ⟨fun hnil => ?_, by change r.1.length < _; omega⟩⟩
      have hnil : r.1 = [] := hnil
      rw [hnil] at hstop
      exact hstop rfl

/-- A walk that goes on comes to its end. -/
theorem walk_ends {squashWidth numEntries : Nat} (hwidth : 0 < squashWidth)
    (hne : rob.squashIt ≠ []) {k : Nat} (hk : rob.squashIt.length ≤ k) : ∃ rob' insts',
      ROB.walk squashWidth numEntries (List.replicate k false) rob insts = some (rob', insts') ∧
        rob'.doneSquashing = true := by
  induction k generalizing rob insts with
  | zero => exact absurd (List.length_eq_zero_iff.mp (Nat.le_zero.mp hk)) hne
  | succ k ih =>
    simp only [List.replicate_succ, ROB.walk]
    by_cases hdone : rob.doneSquashing = true
    · rw [if_pos hdone]
      exact ⟨rob, insts, rfl, hdone⟩
    · rw [if_neg hdone]
      obtain ⟨rob₁, insts₁, hcall, hless⟩ := @doSquash_less rob insts _ hwidth hne
      have hcall : rob.doSquash (numInstsToSquash squashWidth numEntries false) insts =
          some (rob₁, insts₁) := hcall
      rw [hcall]
      rcases hless with hdone₁ | ⟨hne₁, hlt⟩
      · refine ⟨rob₁, insts₁, ?_, hdone₁⟩
        cases k with
        | zero => rfl
        | succ k => exact if_pos hdone₁
      · have hk₁ : rob₁.squashIt.length ≤ k := by omega
        exact ih hne₁ hk₁

/-- A walk that goes on marks every younger instruction before it ends. -/
theorem walk_marks {squashWidth numEntries i : Nat} {calls : List Bool} (hw : Walking rob insts)
    (hdone : rob.doneSquashing = false) (hi : i ∈ rob.instList) (hlt : rob.squashedSeqNum < i)
    (h : ROB.walk squashWidth numEntries calls rob insts = some (rob', insts'))
    (hdone' : rob'.doneSquashing = true) : (insts' i).squashed = true := by
  have hdoomed : ∀ calls {rob insts}, (rob.doneSquashing = false → Walking rob insts) →
      i ∈ rob.instList → Doomed rob insts i →
      ROB.walk squashWidth numEntries calls rob insts = some (rob', insts') →
      Doomed rob' insts' i := by
    intro calls
    induction calls with
    | nil =>
      intro rob insts _ _ hd h
      cases h
      exact hd
    | cons exiting calls ih =>
      intro rob insts hw hi hd h
      simp only [ROB.walk] at h
      split at h
      · cases h
        exact hd
      · rename_i hgoes
        have hgoes : rob.doneSquashing = false := by simpa using hgoes
        obtain ⟨⟨rob₁, insts₁⟩, hcall, h⟩ := Option.bind_eq_some_iff.mp h
        obtain ⟨hlist, -, -, -, hwalk⟩ := doSquash_spec hgoes (hw hgoes) hcall
        refine ih hwalk (hlist ▸ hi) ((doSquash_doomed hgoes (hw hgoes) hcall hi).mpr ?_) h
        exact hd.imp_right And.right
  rcases hdoomed calls (fun _ => hw) hi (.inr ⟨hdone, hlt⟩) h with hq | ⟨hgoes, -⟩
  · exact hq
  · rw [hdone'] at hgoes
    cases hgoes

/-- What there is to say about a squash down to `s` and the cycles after it, from `rob` and `insts`
to `rob'` and `insts'`. -/
structure SquashExact (squashWidth numEntries s : Nat) (exiting : Bool) (calls : List Bool)
    (rob : ROB) (insts : Insts) (rob' : ROB) (insts' : Insts) : Prop where
  instList : rob'.instList = rob.instList
  ends : rob.instList.length ≤ calls.length + 1 → rob'.doneSquashing = true
  marks : rob'.doneSquashing = true → Marks (rob.instList.filter (s < ·)) insts insts'
  inside : rob'.doneSquashing = false →
    rob'.squashIt ≠ [] ∧ rob'.squashIt <:+ rob.instList.reverse
  first : ∃ rob₁ insts₁ l,
    rob.squash (numInstsToSquash squashWidth numEntries exiting) s insts = some (rob₁, insts₁) ∧
      l.length ≤ numInstsToSquash squashWidth numEntries exiting ∧ Marks l insts insts₁
  next : ∀ exiting', rob'.doneSquashing = false → ∃ rob₁ insts₁ l,
    rob'.doSquash (numInstsToSquash squashWidth numEntries exiting') insts' =
        some (rob₁, insts₁) ∧
      l.length ≤ numInstsToSquash squashWidth numEntries exiting' ∧ Marks l insts' insts₁
  restart : rob'.doneSquashing = false → ∀ s' < s, ∀ exiting₂ calls₂ rob₂ insts₂ exiting₃ calls₃
      rob₃ insts₃,
    rob'.squashWalk squashWidth numEntries s' exiting₂ calls₂ insts' = some (rob₂, insts₂) →
    rob₂.doneSquashing = true →
    rob.squashWalk squashWidth numEntries s' exiting₃ calls₃ insts = some (rob₃, insts₃) →
    rob₃.doneSquashing = true → rob₂ = rob₃ ∧ insts₂ = insts₃

/-- **A squash of the ROB marks exactly the younger instructions, no more than the width of them a
cycle, never leaves the list and ends; and an older squash on top of it ends as it does alone.** -/
theorem squash_exact {squashWidth numEntries : Nat} (hsorted : rob.instList.Pairwise (· < ·))
    (hwidth : 0 < squashWidth) (hsize : rob.instList.length ≤ numEntries)
    (hidle : rob.instList = [] → rob.doneSquashing = true) (s : Nat) (exiting : Bool)
    (calls : List Bool) (insts : Insts) : ∃ rob' insts',
      rob.squashWalk squashWidth numEntries s exiting calls insts = some (rob', insts') ∧
      SquashExact squashWidth numEntries s exiting calls rob insts rob' insts' := by
  by_cases hne : rob.instList = []
  · have hdone := hidle hne
    have hsquash : ∀ w, rob.squash w s insts = some (rob, insts) := fun w => by
      rw [squash, if_pos hne]
    refine ⟨rob, insts, ?_, rfl, fun _ => hdone, fun _ => ?_, fun hnot => ?_,
      ⟨_, _, [], hsquash _, by simp, .refl _⟩, fun _ hnot => ?_, fun hnot => ?_⟩
    · rw [squashWalk, hsquash]
      cases calls with
      | nil => rfl
      | cons => exact if_pos hdone
    · rw [hne]
      exact .refl _
    all_goals
      rw [hdone] at hnot
      cases hnot
  · obtain ⟨rob', insts', hrun, h, hends⟩ :=
      @squashWalk_progress _ insts s _ _ hsorted hne hwidth hsize exiting calls
    have hlist := h.instList
    obtain ⟨rob₁, insts₁, l, hfirst, hlength, hmarks, -⟩ :=
      @squash_progress _ insts s hsorted hne
        (numInstsToSquash squashWidth numEntries exiting)
    refine ⟨rob', insts', hrun, hlist, hends, fun hdone => ?_, fun hdone => ?_,
      ⟨rob₁, insts₁, l, hfirst, hlength, hmarks⟩, fun exiting' hdone => ?_, fun hdone => ?_⟩
    · cases h with
      | walking => cases hdone
      | done hmarks => exact hmarks
    · cases h with
      | walking hit hpassed => exact ⟨hit, hpassed ▸ List.suffix_append _ _⟩
      | done => cases hdone
    · obtain ⟨rob₁, insts₁, l, hcall, hlength, hmarks, -⟩ := h.doSquash hsorted hdone
        (numInstsToSquash squashWidth numEntries exiting')
      exact ⟨rob₁, insts₁, l, hcall, hlength, hmarks⟩
    · intro s' holder exiting₂ calls₂ rob₂ insts₂ exiting₃ calls₃ rob₃ insts₃ hrun₂ hdone₂ hrun₃
        hdone₃
      obtain ⟨_, _, hrun₂', h₂, -⟩ := @squashWalk_progress rob' insts' s' _ _
        (hlist ▸ hsorted) (hlist ▸ hne) hwidth (hlist ▸ hsize) exiting₂ calls₂
      obtain ⟨_, _, hrun₃', h₃, -⟩ := @squashWalk_progress _ insts s' _ _ hsorted hne
        hwidth hsize exiting₃ calls₃
      cases hrun₂.symm.trans hrun₂'
      cases hrun₃.symm.trans hrun₃'
      rw [hlist] at h₂
      exact h.restart hdone holder h₂ hdone₂ h₃ hdone₃

/-- Five instructions are squashed down to the second, one a cycle; the walk is done after the third
cycle. -/
theorem squash_exact_five : ∃ rob' insts',
    ({ instList := [1, 2, 4, 5, 7] } : ROB).squashWalk 1 8 2 false [false, false, false, false]
      (fun _ => {}) = some (rob', insts') ∧ rob'.doneSquashing = true ∧
      ∀ i, (insts' i).squashed = true ↔ i = 4 ∨ i = 5 ∨ i = 7 := by
  obtain ⟨rob', insts', hrun, h⟩ := @squash_exact { instList := [1, 2, 4, 5, 7] }
    1 8 (by simp) (by simp) (by simp) (by simp) 2 false
    [false, false, false, false] (fun _ => {})
  have hdone := h.ends (by simp)
  refine ⟨rob', insts', hrun, hdone, fun i => ?_⟩
  rw [h.marks hdone i]
  by_cases hi : i ∈ [1, 2, 4, 5, 7].filter (2 < ·)
  · rw [if_pos hi]
    simp at hi
    simp only [DynInst.setSquashed, DynInst.setCanCommit, true_iff]
    omega
  · rw [if_neg hi]
    simp at hi
    simp only [Bool.false_eq_true, false_iff]
    omega

end Exact

end ROB
end Runahead
end Gem5
