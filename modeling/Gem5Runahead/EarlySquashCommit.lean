import Gem5Runahead.EarlySquashInv

/-!
# EarlySquashCommit

Commit's part of a tick keeps the invariant of the early squash.

* `Inv.commitTick`, `Inv.squash` — the ROB walks, or a squash starts.
* `Inv.iewSquash` — commit takes a squash from IEW, and the instructions from rename.
* `Inv.commitInst`, `Inv.finish` — the head retires, and the tick ends.
-/

namespace Gem5
namespace Runahead
namespace Backend

open Pipeline (Redirect CommitEnv)

section Squash

variable {s : Backend} {p' : Pipeline} {cfg : PipelineParams}

/-- Commit and the ROB do something, and the ROB may mark instructions. -/
structure AtROB (p p' : Pipeline) : Prop where
  list : p'.list = { p.list with insts := p'.insts }
  insts : ∀ i, p'.insts i = p.insts i ∨ p'.insts i = (p.insts i).setSquashed.setCanCommit
  rob : p'.rob.instList = p.rob.instList
  front : p'.front = p.front
  fetch : p'.fetch = p.fetch
  iew : p'.iew = p.iew

namespace AtROB

variable {p : Pipeline} {i : Nat}

theorem squashed (h : AtROB p p') (hq : (p.insts i).squashed = true) :
    (p'.insts i).squashed = true := by
  rcases h.insts i with heq | heq
  · rwa [heq]
  · rw [heq]
    rfl

theorem executed (h : AtROB p p') : (p'.insts i).executed = (p.insts i).executed := by
  rcases h.insts i with heq | heq <;> rw [heq]
  rfl

theorem listed (h : AtROB p p') (hi : p.window.Listed i) : p'.window.Listed i := by
  refine ⟨?_, ?_⟩
  · change i ∈ p'.list.instList
    rw [h.list]
    exact hi.1
  · change (p'.insts i).removePending = false ∧ (p'.insts i).committed = false
    rcases h.insts i with heq | heq <;> rw [heq]
    · exact hi.2
    · exact hi.2

theorem outside (h : AtROB p p') (hclosed : Closed p → Closed p') (hi : Outside p i) :
    Outside p' i := by
  rcases hi with hq | he | ⟨hlisted, hyounger, hc⟩
  · exact .inl (h.squashed hq)
  · exact .inr (.inl (h.executed.trans he))
  · exact .inr (.inr ⟨h.listed hlisted, h.rob ▸ hyounger, hclosed hc⟩)

theorem covered (h : AtROB p p') (hwalk : i ∈ p.rob.instList → p.rob.doneSquashing = false →
    p.rob.squashedSeqNum < i → p'.rob.Doomed p'.insts i) (hi : Covered p i) : Covered p' i := by
  rcases hi with hq | ⟨he, hnot⟩ | ⟨hmem, hdone, hlt⟩
  · exact .inl (h.squashed hq)
  · exact .inr (.inl ⟨h.executed.trans he, h.rob ▸ hnot⟩)
  · rcases hwalk hmem hdone hlt with hq | ⟨hdone', hlt'⟩
    · exact .inl hq
    · exact .inr (.inr ⟨h.rob ▸ hmem, hdone', hlt'⟩)

end AtROB

/-- The ROB may go on with a squash, or start one. -/
theorem Inv.atROB (h : Inv s) (ha : AtROB s.pipe p')
    (hphase : s.pipe.phase = .commit ∨ s.pipe.phase = .squash ∨ s.pipe.phase = .iewSquash)
    (hphase' : p'.phase = .squash ∨ p'.phase = .iewSquash) (hcore : p'.window.Core)
    (htells : p'.commit.status = .robSquashing → p'.commit.toIEW.robSquashing = true)
    (hwalking : Walking p' → Walking s.pipe) (hclosed : Closed s.pipe → Closed p')
    (hwalk : ∀ i ∈ s.pipe.rob.instList, s.pipe.rob.doneSquashing = false →
      s.pipe.rob.squashedSeqNum < i → p'.rob.Doomed p'.insts i)
    (hwires : Wires p')
    (hnew : ∀ w ∈ announced p', w ∈ announced s.pipe ∨
      ∀ i ∈ s.inIEW ++ s.pipe.rob.instList ++ coming s.pipe, w.1 < i → i ≤ w.2 →
        Covered p' i) : Inv { s with pipe := p' } := by
  have hcoming : coming p' = coming s.pipe := by
    have hearly : afterGetInsts s.pipe.phase = false := by
      rcases hphase with hp | hp | hp <;> rw [hp] <;> rfl
    have hearly' : afterGetInsts p'.phase = false := by
      rcases hphase' with hp | hp <;> rw [hp] <;> rfl
    rw [coming, coming, hearly, hearly', ha.front]
  have hread : s.pipe.iew.fromCommit.squash = false := by
    refine h.stall.read ?_
    rcases hphase with hp | hp | hp <;> rw [hp] <;> rfl
  have hlate : beforeCommit p'.phase = false ∧ unread p'.phase = false ∧
      beforeRename p'.phase = false := by
    rcases hphase' with hp | hp <;> rw [hp] <;> exact ⟨rfl, rfl, rfl⟩
  have hidle : p'.phase ≠ .idle := by
    rcases hphase' with hp | hp <;> rw [hp] <;> exact Phase.noConfusion
  refine ⟨hcore, ?_, hwires, ⟨h.queues.nodup, fun i hi => ?_, fun i hi j hj => ?_,
    fun i hi => ?_⟩, fun i hi hrob => ?_, fun w hw i hi hlt hle => ?_⟩
  · exact {
      told := fun hp => Bool.noConfusion (hp.symm.trans hlate.1)
      tells := fun _ => htells
      same := fun hp => absurd hp hidle
      read := fun _ => by rw [ha.iew]; exact hread
      idle := fun hp => absurd hp hidle
      fetching := fun hp => Bool.noConfusion (hp.symm.trans hlate.2.1)
      sent := fun hw i hi => by
        rw [ha.front] at hi
        exact ha.squashed (h.stall.sent (hwalking hw) i hi)
      blocked := fun _ hp => Bool.noConfusion (hp.symm.trans hlate.2.2)
      blocked' := fun hw _ => by
        rw [ha.front]
        refine h.stall.blocked' (hwalking hw) ?_
        rcases hphase with hp | hp | hp <;> rw [hp] <;> rfl }
  · change i < p'.list.globalSeqNum
    rw [ha.list]
    exact h.queues.lt i hi
  · exact h.queues.older i hi j (hcoming ▸ hj)
  · rw [inst, ha.executed]
    have hi : i ∈ s.undispatched ++ coming p' := hi
    rw [hcoming] at hi
    exact h.queues.fresh i hi
  · exact ha.outside hclosed (h.outside i hi (ha.rob ▸ hrob))
  · have hi : i ∈ s.inIEW ++ p'.rob.instList ++ coming p' := hi
    rw [ha.rob, hcoming] at hi
    rcases hnew w hw with hold | hnew
    · exact ha.covered (hwalk i) (h.agree w hold i hi hlt hle)
    · exact hnew i hi hlt hle

/-- A squash of commit starts, down to `n`. -/
structure Starts (width n : Nat) (p p' : Pipeline) : Prop where
  rob : p.rob.squash width n p.insts = some (p'.rob, p'.insts)
  list : p'.list = { p.list with insts := p'.insts }
  front : p'.front = p.front
  fetch : p'.fetch = p.fetch
  iew : p'.iew = p.iew
  status : p'.commit.status = .robSquashing
  squash : p'.commit.toIEW.squash = true
  robSquashing : p'.commit.toIEW.robSquashing = true
  doneSeqNum : p'.commit.toIEW.doneSeqNum = n
  squashTail : p'.commit.toIEW.squashTail = p.rob.instList.getLast?.getD n

theorem startSquash_starts {n youngest : Nat} {p p' : Pipeline} {pc : PCState}
    (hsorted : p.rob.instList.Pairwise (· < ·)) (h : p.startSquash cfg n youngest pc = some p') :
    Starts cfg.squashWidth n p p' := by
  simp only [Pipeline.startSquash, Option.bind_eq_bind] at h
  obtain ⟨⟨rob, insts⟩, hrob, h⟩ := Option.bind_eq_some_iff.mp h
  cases h
  have hlist : rob.instList = p.rob.instList := by
    by_cases hne : p.rob.instList = []
    · rw [ROB.squash, if_pos hne] at hrob
      cases hrob
      rfl
    · exact (ROB.squash_spec hsorted hne hrob).1
  exact ⟨hrob, rfl, rfl, rfl, rfl, rfl, rfl, rfl, rfl, by rw [← hlist]⟩

theorem Starts.atROB {width n : Nat} {p : Pipeline} (h : Starts width n p p')
    (hsorted : p.rob.instList.Pairwise (· < ·)) : AtROB p p' ∧
      (p.rob.instList = [] → p'.rob = p.rob) ∧ (p.rob.instList ≠ [] →
        p'.rob.squashedSeqNum = n ∧
          ∀ i ∈ p.rob.instList, n < i → p'.rob.Doomed p'.insts i) := by
  have hrob := h.rob
  by_cases hne : p.rob.instList = []
  · rw [ROB.squash, if_pos hne] at hrob
    obtain ⟨hrob, hinsts⟩ := Prod.mk.inj (Option.some.inj hrob)
    refine ⟨⟨h.list, fun i => .inl (congrFun hinsts.symm i), by rw [← hrob], h.front, h.fetch,
      h.iew⟩, fun _ => hrob.symm, fun hn => absurd hne hn⟩
  · obtain ⟨hlist, hsq, hmarks, -, hdoomed⟩ := ROB.squash_spec hsorted hne hrob
    refine ⟨⟨h.list, fun i => ?_, hlist, h.front, h.fetch, h.iew⟩, fun hn => absurd hn hne,
      fun _ => ⟨hsq, fun i hi hlt => (hdoomed i hi).mpr (.inr hlt)⟩⟩
    exact (hmarks i).imp_right fun hmark => hmark.2.2

/-- The window of a new squash ends with the tail of the ROB. What is in it and not in the ROB has
been executed, and is gone. -/
theorem Inv.started {width n : Nat} (h : Inv s) (hs : Starts width n s.pipe p')
    (hphase : s.pipe.phase = .squash ∨ s.pipe.phase = .iewSquash)
    (hphase' : p'.phase = .iewSquash) (hcore : p'.window.Core)
    (holder : ∀ i ∈ s.pipe.rob.instList, s.pipe.rob.doneSquashing = false →
      s.pipe.rob.squashedSeqNum < i → n < i) : Inv { s with pipe := p' } := by
  obtain ⟨hat, hempty, hrob⟩ := hs.atROB h.core.order.rob_sorted
  have hread : p'.iew.fromCommit.squash = false := by
    rw [hs.iew]
    refine h.stall.read ?_
    rcases hphase with hp | hp <;> rw [hp] <;> rfl
  have hearly : coming s.pipe = s.pipe.window.front := by
    refine mem_coming_early ?_
    rcases hphase with hp | hp <;> rw [hp] <;> rfl
  have hannounced : announced p' = [(s.pipe.iew.squashedSeqNum, s.pipe.iew.squashTailSeqNum),
      (n, s.pipe.rob.instList.getLast?.getD n)] := by
    rw [announced, hread, hs.squash, hs.iew, hs.doneSeqNum, hs.squashTail]
    rfl
  refine h.atROB hat (.inr hphase) (.inr hphase') hcore (fun _ => hs.robSquashing) ?_
    (fun _ => .inr (.inl hs.squash)) (fun i hi hdone hlt => ?_) ⟨fun w hw => ?_, fun hdone => ?_⟩
    fun w hw => ?_
  · rintro ⟨-, hsent, -⟩
    rw [hs.squash] at hsent
    cases hsent
  · exact (hrob (List.ne_nil_of_mem hi)).2 i hi (holder i hi hdone hlt)
  · have hnext : p'.list.globalSeqNum = s.pipe.list.globalSeqNum := by rw [hs.list]
    rw [hnext]
    rw [hannounced] at hw
    rcases List.mem_cons.mp hw with rfl | hw
    · exact h.wires.bound _ List.mem_cons_self
    · rw [List.mem_singleton.mp hw]
      cases hlast : s.pipe.rob.instList.getLast? with
      | none => exact .inr (Nat.le_refl n)
      | some tail =>
        exact .inl (h.core.order.lt tail (List.mem_append_left _ (List.mem_of_getLast? hlast)))
  · have hne : s.pipe.rob.instList ≠ [] := by
      intro hnil
      rw [hempty hnil] at hdone
      exact h.core.control.nonempty hdone hnil
    rw [(hrob hne).1, latest, hs.squash, hs.doneSeqNum]
    rfl
  · rw [hannounced] at hw
    rcases List.mem_cons.mp hw with rfl | hw
    · exact .inl List.mem_cons_self
    · right
      rw [List.mem_singleton.mp hw]
      intro i hi hlt hle
      cases hlast : s.pipe.rob.instList.getLast? with
      | none =>
        rw [hlast] at hle
        have hle : i ≤ n := hle
        omega
      | some tail =>
        rw [hlast] at hle
        have hle : i ≤ tail := hle
        have htail : tail ∈ s.pipe.rob.instList := List.mem_of_getLast? hlast
        by_cases hmem : i ∈ s.pipe.rob.instList
        · rcases (hrob (List.ne_nil_of_mem hmem)).2 i hmem hlt with hq | ⟨hdone, hsq⟩
          · exact .inl hq
          · exact .inr (.inr ⟨hat.rob ▸ hmem, hdone, hsq⟩)
        · rcases List.mem_append.mp hi with hi | hi
          · have hi : i ∈ s.inIEW := (List.mem_append.mp hi).resolve_right hmem
            rcases h.outside i hi hmem with hq | he | ⟨-, hyounger, -⟩
            · exact .inl (hat.squashed hq)
            · exact .inr (.inl ⟨hat.executed.trans he, hat.rob ▸ hmem⟩)
            · have := hyounger tail htail
              omega
          · rw [hearly] at hi
            have := h.core.order.lt_front htail hi
            omega

/-- No squash starts. -/
theorem Inv.noSquash (h : Inv s) (ha : AtROB s.pipe p')
    (hphase : s.pipe.phase = .commit ∨ s.pipe.phase = .squash)
    (hphase' : p'.phase = .squash ∨ p'.phase = .iewSquash) (hcore : p'.window.Core)
    (htoIEW : ∃ robSquashing interruptPending, p'.commit.toIEW =
      { s.pipe.commit.toIEW with robSquashing, interruptPending })
    (hstatus : p'.commit.status = s.pipe.commit.status ∨
      p'.commit.status = .running ∧ s.pipe.commit.status ≠ .trapPending)
    (htells : p'.commit.status = .robSquashing → p'.commit.toIEW.robSquashing = true)
    (hsq : p'.rob.squashedSeqNum = s.pipe.rob.squashedSeqNum)
    (hdone : p'.rob.doneSquashing = false → s.pipe.rob.doneSquashing = false)
    (hwalk : ∀ i ∈ s.pipe.rob.instList, s.pipe.rob.doneSquashing = false →
      s.pipe.rob.squashedSeqNum < i → p'.rob.Doomed p'.insts i) :
    Inv { s with pipe := p' } := by
  obtain ⟨_, _, htoIEW⟩ := htoIEW
  have hannounced : announced p' = announced s.pipe := by rw [announced, announced, ha.iew, htoIEW]
  have hlatest : latest p' = latest s.pipe := by rw [latest, latest, ha.iew, htoIEW]
  refine h.atROB ha (hphase.imp_right .inl) hphase' hcore htells ?_ ?_ hwalk ⟨?_, fun hd => ?_⟩
    fun w hw => .inl (hannounced ▸ hw)
  · rintro ⟨hst, hsent, hseen⟩
    refine ⟨?_, ?_, ha.fetch ▸ hseen⟩
    · rcases hstatus with heq | ⟨hrun, -⟩
      · exact heq ▸ hst
      · rw [hrun] at hst
        cases hst
    · rw [htoIEW] at hsent
      exact hsent
  · rintro (htrap | hsent | hseen)
    · rcases hstatus with heq | ⟨-, hnot⟩
      · exact .inl (heq.trans htrap)
      · exact absurd htrap hnot
    · refine .inr (.inl ?_)
      rw [htoIEW]
      exact hsent
    · exact .inr (.inr (ha.fetch ▸ hseen))
  · rw [hannounced, ha.list]
    exact h.wires.bound
  · rw [hlatest, hsq]
    exact h.wires.number (hdone hd)

theorem propagateInterrupt_frame (p : Pipeline) (getInterrupts : Bool) :
    ∃ interrupt interruptPending log, p.propagateInterrupt getInterrupts = { p with
      log
      commit := { p.commit with
        interrupt, toIEW := { p.commit.toIEW with interruptPending } } } := by
  unfold Pipeline.propagateInterrupt
  split
  · exact ⟨_, _, _, rfl⟩
  · split <;> exact ⟨_, _, _, rfl⟩

/-- The start of commit's tick: a squash goes on, or has come to its end. -/
theorem Inv.commitTick {checkInterrupts getInterrupts : Bool} {t : Pipeline} (h : Inv s)
    (hphase : s.pipe.phase = .commit)
    (hp : s.pipe.commitTick cfg checkInterrupts getInterrupts = some t)
    (hp' : p' = { t with phase := .squash }) (hcore : p'.window.Core) :
    Inv { s with pipe := p' } := by
  obtain ⟨u, hu, hp⟩ := Option.bind_eq_some_iff.mp hp
  have hframe : ∃ interrupt interruptPending log, p' = { u with
      phase := .squash
      log
      commit := { u.commit with
        interrupt, toIEW := { u.commit.toIEW with interruptPending } } } := by
    cases hp
    rw [hp']
    split
    · obtain ⟨_, _, _, heq⟩ := propagateInterrupt_frame u getInterrupts
      rw [heq]
      exact ⟨_, _, _, rfl⟩
    · exact ⟨_, _, _, rfl⟩
  obtain ⟨_, _, _, hframe⟩ := hframe
  clear hp hp'
  have hstay : ∀ p : Pipeline, p.rob = s.pipe.rob → p.insts = s.pipe.insts →
      ∀ i ∈ s.pipe.rob.instList, s.pipe.rob.doneSquashing = false →
        s.pipe.rob.squashedSeqNum < i → p.rob.Doomed p.insts i :=
    fun p hrob _ i _ hdone hlt => .inr (hrob ▸ ⟨hdone, hlt⟩)
  unfold Pipeline.tickSquashing at hu
  split at hu
  · rename_i hstatus
    split at hu
    · cases hu
      subst hframe
      exact h.noSquash ⟨rfl, fun _ => .inl rfl, rfl, rfl, rfl, rfl⟩ (.inl hphase) (.inl rfl) hcore
        ⟨_, _, rfl⟩ (.inr ⟨rfl, by rw [hstatus]; simp⟩) (fun hs => by cases hs) rfl id
        (hstay _ rfl rfl)
    · rename_i hdone
      have hdone : s.pipe.rob.doneSquashing = false := by simpa using hdone
      have hwalking := h.core.control.walking hdone
      obtain ⟨⟨rob, insts⟩, hrob, hu⟩ := Option.bind_eq_some_iff.mp hu
      cases hu
      subst hframe
      obtain ⟨hlist, hsq, hmarks, -⟩ := ROB.doSquash_spec hdone hwalking hrob
      refine h.noSquash ⟨rfl, fun i => (hmarks i).imp_right fun hm => hm.2.2, hlist, rfl, rfl, rfl⟩
        (.inl hphase) (.inl rfl) hcore ⟨_, _, rfl⟩ (.inl rfl) (fun _ => rfl) hsq (fun _ => hdone)
        fun i hi _ hlt => ?_
      exact (ROB.doSquash_doomed hdone hwalking hrob hi).mpr (.inr hlt)
  · rename_i hstatus
    cases hu
    subst hframe
    exact h.noSquash ⟨rfl, fun _ => .inl rfl, rfl, rfl, rfl, rfl⟩ (.inl hphase) (.inl rfl) hcore
      ⟨_, _, rfl⟩ (.inl rfl) (fun hs => absurd hs hstatus) rfl id (hstay _ rfl rfl)

theorem Starts.other {width n : Nat} {p t : Pipeline} (h : Starts width n p t)
    (hp' : ∃ phase trapPending trapInFlight trapSquash tcSquash fromIEW log, p' = { t with
      phase, log
      commit := { t.commit with
        trapPending, trapInFlight, trapSquash, tcSquash, fromIEW } }) : Starts width n p p' := by
  obtain ⟨_, _, _, _, _, _, _, rfl⟩ := hp'
  exact ⟨h.rob, h.list, h.front, h.fetch, h.iew, h.status, h.squash, h.robSquashing, h.doneSeqNum,
    h.squashTail⟩

/-- `squashAll` squashes the whole ROB. -/
theorem squashedInst_lt {v : Window} {i : Nat} (ho : v.Order) (hi : i ∈ v.rob.instList) :
    v.squashedInst < i := by
  unfold Window.squashedInst
  cases hl : v.rob.instList with
  | nil =>
    rw [hl] at hi
    cases hi
  | cons head tail =>
    have hpos := ho.pos head (by simp [Window.line, hl])
    have hsorted := ho.rob_sorted
    rw [hl] at hi hsorted
    rcases List.mem_cons.mp hi with rfl | hi
    · exact Nat.sub_lt hpos Nat.one_pos
    · have := (List.pairwise_cons.mp hsorted).1 i hi
      change head - 1 < i
      omega

/-- Commit handles the squash that is due. -/
theorem Inv.squash {t : Pipeline} (h : Inv s) (hphase : s.pipe.phase = .squash)
    (hp : s.pipe.squash cfg = some t) (hp' : p' = { t with phase := .iewSquash })
    (hcore : p'.window.Core) : Inv { s with pipe := p' } := by
  have hsorted := h.core.order.rob_sorted
  have hstart : ∀ {n : Nat} {q u : Pipeline} {youngest : Nat} {pc : PCState},
      q.startSquash cfg n youngest pc = some u → (∀ i ∈ s.pipe.rob.instList, n < i) →
      q.rob = s.pipe.rob → q.list = s.pipe.list → q.front = s.pipe.front →
      q.fetch = s.pipe.fetch → q.iew = s.pipe.iew →
      (∃ phase trapPending trapInFlight trapSquash tcSquash fromIEW log, p' = { u with
        phase, log
        commit := { u.commit with
          trapPending, trapInFlight, trapSquash, tcSquash, fromIEW } }) →
      Inv { s with pipe := p' } := by
    intro n q u youngest pc hu hn hrob hlist hfront hfetch hiew hp''
    have hst := (startSquash_starts (hrob ▸ hsorted) hu).other hp''
    have hinsts : q.insts = s.pipe.insts := congrArg InstList.insts hlist
    have hstarts : Starts cfg.squashWidth n s.pipe p' := {
      rob := by
        rw [← hrob, ← hinsts]
        exact hst.rob
      list := by rw [hst.list, hlist]
      front := hst.front.trans hfront
      fetch := hst.fetch.trans hfetch
      iew := hst.iew.trans hiew
      status := hst.status
      squash := hst.squash
      robSquashing := hst.robSquashing
      doneSeqNum := hst.doneSeqNum
      squashTail := by rw [hst.squashTail, hrob] }
    exact h.started hstarts (.inl hphase) (by rw [hp']) hcore fun i hi _ _ => hn i hi
  have hall : ∀ {u : Pipeline}, s.pipe.squashAll cfg = some u →
      (∃ phase trapPending trapInFlight trapSquash tcSquash fromIEW log, p' = { u with
        phase, log
        commit := { u.commit with
          trapPending, trapInFlight, trapSquash, tcSquash, fromIEW } }) →
      Inv { s with pipe := p' } := fun hu =>
    hstart hu (fun i hi => squashedInst_lt h.core.order hi) rfl rfl rfl rfl rfl
  have hnone : ∀ status, (status = s.pipe.commit.status ∨
      status = .running ∧ s.pipe.commit.status = .squashAfterPending) →
      p' = { s.pipe with commit := { s.pipe.commit with status }, phase := .iewSquash } →
      Inv { s with pipe := p' } := by
    intro status hstatus heq
    subst heq
    refine h.noSquash ⟨rfl, fun _ => .inl rfl, rfl, rfl, rfl, rfl⟩ (.inr hphase) (.inr rfl) hcore
      ⟨_, _, rfl⟩ (hstatus.imp_right fun hs => ⟨hs.1, by rw [hs.2]; simp⟩) (fun hs => ?_) rfl id
      fun i _ hdone hlt => .inr ⟨hdone, hlt⟩
    rcases hstatus with heq | ⟨heq, -⟩
    · exact h.stall.tells (by rw [hphase]; rfl) (heq ▸ hs)
    · rw [heq] at hs
      cases hs
  unfold Pipeline.squash at hp
  split at hp
  · split at hp
    · cases hp
    · obtain ⟨u, hu, hp⟩ := Option.bind_eq_some_iff.mp hp
      cases hp
      exact hall hu ⟨_, _, _, _, _, _, _, hp'⟩
  · split at hp
    · split at hp
      · cases hp
      · obtain ⟨u, hu, hp⟩ := Option.bind_eq_some_iff.mp hp
        split at hp
        · cases hp
        · cases hp
          exact hall hu ⟨_, _, _, _, _, _, _, hp'⟩
    · split at hp
      · rename_i hafter
        split at hp
        · exact hall hp ⟨_, _, _, _, _, _, _, hp'⟩
        · cases hp
          exact hnone .running (.inr ⟨rfl, hafter⟩) hp'
      · split at hp
        · simp only [Pipeline.squashFromRunaheadExit, Option.bind_eq_bind] at hp
          obtain ⟨lll, hlll, hp⟩ := Option.bind_eq_some_iff.mp hp
          obtain ⟨u, hu, hp⟩ := Option.bind_eq_some_iff.mp hp
          cases hp
          refine hstart hu (fun i hi => ?_) rfl rfl rfl rfl rfl ⟨_, _, _, _, _, _, _, hp'⟩
          have hmem : i ∈ s.pipe.window.line := List.mem_append_left _ hi
          have hcause := h.core.modes.commitCause lll hlll
          have hle := h.core.order.cause_le i hmem
          have hpos := h.core.order.pos i hmem
          omega
        · cases hp
          exact hnone _ (.inl rfl) hp'

end Squash

section TakeInsts

variable {s : Backend} {p' : Pipeline} {cfg : PipelineParams}

/-- Commit takes all that is not squashed, or nothing. -/
theorem getInsts_taken {l : List Nat} {p : Pipeline}
    (h : l.foldlM (Pipeline.getInst cfg) p = some p') : ∃ l' : List Nat,
      l'.Sublist l ∧ p' = { p with
        rob := { p.rob with instList := p.rob.instList ++ l' }
        log := p'.log
        commit := { p.commit with youngestSeqNum := p'.commit.youngestSeqNum } } ∧
      (∀ i ∈ l, i ∈ l' ∨ (p.insts i).squashed = true ∨
        p.commit.status = .robSquashing ∨ p.commit.status = .trapPending) ∧
      (l' ≠ [] → p.commit.status ≠ .robSquashing ∧ p.commit.status ≠ .trapPending) := by
  induction l generalizing p with
  | nil =>
    cases h
    exact ⟨[], .slnil, by rw [List.append_nil], fun i hi => absurd hi List.not_mem_nil,
      fun hne => absurd rfl hne⟩
  | cons i l ih =>
    rw [List.foldlM_cons] at h
    obtain ⟨t, ht, h⟩ := Option.bind_eq_some_iff.mp h
    unfold Pipeline.getInst at ht
    split at ht
    · rename_i hdropped
      cases ht
      obtain ⟨l', hsub, hp', hall, hopen⟩ := ih h
      refine ⟨l', hsub.cons i, hp', fun j hj => ?_, hopen⟩
      rcases List.mem_cons.mp hj with rfl | hj
      · exact .inr hdropped
      · exact hall j hj
    · rename_i hlive
      simp only [not_or] at hlive
      split at ht
      · cases ht
      · cases ht
        obtain ⟨l', hsub, hp', hall, -⟩ := ih h
        refine ⟨i :: l', hsub.cons_cons i, ?_, fun j hj => ?_, fun _ => hlive.2⟩
        · rw [hp']
          simp [Pipeline.emit, ROB.insertInst]
        · rcases List.mem_cons.mp hj with rfl | hj
          · exact .inl List.mem_cons_self
          · exact (hall j hj).imp_left (List.mem_cons_of_mem i)

/-- Commit takes instructions from rename, which IEW will read in the next tick. -/
theorem Inv.takeInsts {l : List Nat} (h : Inv s) (hphase : s.pipe.phase = .iewSquash)
    (hp' : p' = { s.pipe with
      phase := p'.phase
      log := p'.log
      rob := { s.pipe.rob with instList := s.pipe.rob.instList ++ l }
      front := { s.pipe.front with fromRename := p'.front.fromRename }
      commit := { s.pipe.commit with
        youngestSeqNum := p'.commit.youngestSeqNum, fromIEW := p'.commit.fromIEW } })
    (hphase' : p'.phase = .finish ∨ p'.phase = .commitInsts 0)
    (hfrom : p'.front.fromRename ⊆ s.pipe.front.fromRename)
    (hsub : l.Sublist s.pipe.front.fromRename)
    (htaken : ∀ i ∈ s.pipe.front.fromRename,
      i ∈ l ∨ (s.pipe.insts i).squashed = true ∨ Closed s.pipe)
    (hopen : l ≠ [] → ¬ Closed s.pipe) (hcore : p'.window.Core) :
    Inv { s with pipe := p', toIEW := s.pipe.front.fromRename } := by
  generalize p'.phase = phase, p'.log = log, p'.front.fromRename = fromRename,
    p'.commit.youngestSeqNum = youngestSeqNum, p'.commit.fromIEW = fromIEW at hp' hphase' hfrom
  have hearly : coming s.pipe = s.pipe.front.fromRename ++ (s.pipe.front.toROB ++
      s.pipe.front.queued ++ s.pipe.front.toDecode) := by
    rw [coming, hphase]
    simp [afterGetInsts, FrontEnd.insts]
  have hsorted : (s.pipe.front.fromRename ++ (s.pipe.front.toROB ++
      s.pipe.front.queued ++ s.pipe.front.toDecode)).Pairwise (· < ·) := by
    rw [← hearly, mem_coming_early (by rw [hphase]; rfl)]
    exact (List.pairwise_append.mp h.core.order.sorted).2.1
  generalize hlater : s.pipe.front.toROB ++ s.pipe.front.queued ++ s.pipe.front.toDecode = later
    at hearly hsorted
  have hcoming : coming p' = later := by
    rw [hp', ← hlater]
    rcases hphase' with rfl | rfl <;> rfl
  have hinsts : p'.insts = s.pipe.insts := by rw [hp']; rfl
  have hrob : p'.rob.instList = s.pipe.rob.instList ++ l := by rw [hp']
  have hannounced : announced p' = announced s.pipe := by rw [hp']; rfl
  have hmem : ∀ {i}, i ∈ s.pipe.front.fromRename → i ∈ coming s.pipe := fun hi =>
    hearly ▸ List.mem_append_left _ hi
  have hyoung : ∀ {i}, i ∈ later → i ∈ coming s.pipe := fun hi =>
    hearly ▸ List.mem_append_right _ hi
  have hundispatched : ∀ {i}, i ∈ s.insts ++ s.fromRename ++ s.pipe.front.fromRename →
      i ∈ s.undispatched ∨ i ∈ s.pipe.front.fromRename := fun hi =>
    (List.mem_append.mp hi).imp_left fun hi => List.mem_append_left _ hi
  have hinIEW : ∀ {i}, i ∈ { s with pipe := p', toIEW := s.pipe.front.fromRename }.inIEW →
      i ∈ s.inIEW ∨ i ∈ s.pipe.front.fromRename := by
    intro i hi
    rw [inIEW_eq] at hi ⊢
    rcases List.mem_append.mp hi with hi | hi
    · exact .inl (List.mem_append_left _ hi)
    · exact (hundispatched hi).imp_left (List.mem_append_right _)
  have hheld : { s with pipe := p', toIEW := s.pipe.front.fromRename }.held =
      s.inMemory ++ (s.instQueue ++ (s.insts ++ s.fromRename)) ++ s.pipe.front.fromRename := by
    simp [held_eq, undispatched]
  have hsame : (s.inMemory ++ (s.instQueue ++ (s.insts ++ s.fromRename))).Sublist s.held := by
    rw [held_eq]
    exact ((List.sublist_append_left _ _).append_left _).append_left _
  have hfresh : ∀ i ∈ coming s.pipe, i < s.pipe.list.globalSeqNum := by
    rw [mem_coming_early (by rw [hphase]; rfl)]
    exact fun i hi => h.core.order.lt i (List.mem_append_right _ hi)
  have hdone : s.pipe.rob.doneSquashing = p'.rob.doneSquashing ∧
      s.pipe.rob.squashedSeqNum = p'.rob.squashedSeqNum := by
    rw [hp']
    exact ⟨rfl, rfl⟩
  have hclosed : Closed s.pipe → Closed p' := by
    rw [hp']
    exact id
  have hold : ∀ {i}, i ∈ s.inIEW ++ p'.rob.instList ++ later →
      i ∈ s.inIEW ++ s.pipe.rob.instList ++ coming s.pipe := by
    intro i hi
    rw [hrob] at hi
    simp only [List.mem_append] at hi ⊢
    rcases hi with (hi | hi | hi) | hi
    · exact .inl (.inl hi)
    · exact .inl (.inr hi)
    · exact .inr (hmem (hsub.subset hi))
    · exact .inr (hyoung hi)
  refine ⟨hcore, ?_, ⟨?_, ?_⟩, ⟨?_, fun i hi => ?_, fun i hi j hj => ?_, fun i hi => ?_⟩,
    fun i hi hnot => ?_, fun w hw i hi hlt hle => ?_⟩
  · have hlate : beforeCommit phase = false ∧ unread phase = false ∧ beforeRename phase = false ∧
        phase ≠ .idle := by
      rcases hphase' with rfl | rfl <;> exact ⟨rfl, rfl, rfl, Phase.noConfusion⟩
    change Stall p'
    rw [hp']
    exact {
      told := fun hp => Bool.noConfusion (hp.symm.trans hlate.1)
      tells := fun _ => h.stall.tells (by rw [hphase]; rfl)
      same := fun hp => absurd hp hlate.2.2.2
      read := fun _ => h.stall.read (by rw [hphase]; rfl)
      idle := fun hp => absurd hp hlate.2.2.2
      fetching := fun hp => Bool.noConfusion (hp.symm.trans hlate.2.1)
      sent := fun hw i hi => h.stall.sent hw i (by
        rcases List.mem_append.mp hi with hi | hi
        · exact List.mem_append_left _ (hfrom hi)
        · exact List.mem_append_right _ hi)
      blocked := fun _ hp => Bool.noConfusion (hp.symm.trans hlate.2.2.1)
      blocked' := fun hw _ => h.stall.blocked' hw (by rw [hphase]; rfl) }
  · rw [hannounced, hp']
    exact h.wires.bound
  · rw [hp']
    exact h.wires.number
  · rw [hheld, List.nodup_append]
    refine ⟨h.queues.nodup.sublist hsame, ?_, fun i hi j hj => ?_⟩
    · exact ((List.pairwise_append.mp hsorted).1).imp Nat.ne_of_lt
    · exact Nat.ne_of_lt (h.queues.older i (hsame.subset hi) j (hmem hj))
  · have hnext : p'.list.globalSeqNum = s.pipe.list.globalSeqNum := by rw [hp']
    rw [hnext]
    rw [hheld] at hi
    rcases List.mem_append.mp hi with hi | hi
    · exact h.queues.lt i (hsame.subset hi)
    · exact hfresh i (hmem hi)
  · have hj : j ∈ later := hcoming ▸ hj
    rw [hheld] at hi
    rcases List.mem_append.mp hi with hi | hi
    · exact h.queues.older i (hsame.subset hi) j (hyoung hj)
    · exact (List.pairwise_append.mp hsorted).2.2 i hi j hj
  · rw [inst, hinsts]
    rcases List.mem_append.mp hi with hi | hi
    · rcases hundispatched hi with hi | hi
      · exact h.queues.fresh i (List.mem_append_left _ hi)
      · exact h.queues.fresh i (List.mem_append_right _ (hmem hi))
    · have hi : i ∈ later := hcoming ▸ hi
      exact h.queues.fresh i (List.mem_append_right _ (hyoung hi))
  · rw [hrob, List.mem_append, not_or] at hnot
    have hlisted : s.pipe.window.Listed i → p'.window.Listed i := by
      rw [hp']
      exact id
    have hrest : Closed s.pipe → ∀ y ∈ p'.rob.instList, y ∈ s.pipe.rob.instList := by
      intro hc y hy
      rw [hrob] at hy
      by_cases hl : l = []
      · rwa [hl, List.append_nil] at hy
      · exact absurd hc (hopen hl)
    rw [Outside, hinsts]
    rcases hinIEW hi with hi | hi
    · rcases h.outside i hi hnot.1 with hq | he | ⟨hl, hyounger, hc⟩
      · exact .inl hq
      · exact .inr (.inl he)
      · exact .inr (.inr ⟨hlisted hl, fun y hy => hyounger y (hrest hc y hy), hclosed hc⟩)
    · rcases (htaken i hi).resolve_left hnot.2 with hq | hc
      · exact .inl hq
      · by_cases hq : (s.pipe.insts i).squashed = true
        · exact .inl hq
        · have hfront : i ∈ s.pipe.window.front := by
            rw [← mem_coming_early (by rw [hphase]; rfl)]
            exact hmem hi
          refine .inr (.inr ⟨hlisted (h.core.order.front i hfront (eq_false_of_ne_true hq)),
            fun y hy => h.core.order.lt_front (hrest hc y hy) hfront, hclosed hc⟩)
  · rw [hannounced] at hw
    have hi : i ∈ s.inIEW ++ p'.rob.instList ++ later ∨ i ∈ s.pipe.front.fromRename := by
      rw [hcoming] at hi
      rcases List.mem_append.mp hi with hi | hi
      · rcases List.mem_append.mp hi with hi | hi
        · exact (hinIEW hi).imp_left fun hi => List.mem_append_left _ (List.mem_append_left _ hi)
        · exact .inl (List.mem_append_left _ (List.mem_append_right _ hi))
      · exact .inl (List.mem_append_right _ hi)
    have hi : i ∈ s.inIEW ++ s.pipe.rob.instList ++ coming s.pipe :=
      hi.elim hold fun hi => List.mem_append_right _ (hmem hi)
    rw [Covered, hinsts, ← hdone.1, ← hdone.2]
    rcases h.agree w hw i hi hlt hle with hq | ⟨he, hnot⟩ | ⟨hin, hwalk⟩
    · exact .inl hq
    · refine .inr (.inl ⟨he, fun hin => ?_⟩)
      rw [hrob] at hin
      have hl := (List.mem_append.mp hin).resolve_left hnot
      have hfresh := h.queues.fresh i (List.mem_append_right _ (hmem (hsub.subset hl)))
      rw [inst, he] at hfresh
      cases hfresh
    · refine .inr (.inr ⟨?_, hwalk⟩)
      rw [hrob]
      exact List.mem_append_left _ hin

/-- Commit takes a squash from IEW. -/
theorem Inv.acceptSquash {t : Pipeline} (h : Inv s) (hphase : s.pipe.phase = .iewSquash)
    (hp : s.pipe.acceptSquash cfg = some t) :
    Inv { s with pipe := t } ∧ t.phase = .iewSquash ∧ t.front = s.pipe.front := by
  have hcore := Window.steps_core (Pipeline.acceptSquash_sim hphase hp).1 h.core
  unfold Pipeline.acceptSquash at hp
  split at hp
  · cases hp
    exact ⟨h, hphase, rfl⟩
  · rename_i sq _
    split at hp
    · rename_i haccept
      simp only [Option.bind_eq_bind] at hp
      obtain ⟨u, hu, hp⟩ := Option.bind_eq_some_iff.mp hp
      cases hp
      have hst := @Starts.other (u.emit
        (.iewSquash sq.squashedSeqNum (s.pipe.mark sq.squashedSeqNum))) _ _ _ _
        (startSquash_starts h.core.order.rob_sorted hu) ⟨_, _, _, _, _, _, _, rfl⟩
      have hphase' : u.phase = .iewSquash := by
        obtain ⟨_, _, _, rfl⟩ := Pipeline.startSquash_frame hu
        exact hphase
      refine ⟨h.started hst (.inr hphase) hphase' hcore fun i hi hdone hlt => ?_, hphase',
        hst.front⟩
      have hyoungest : s.pipe.commit.youngestSeqNum ≤ s.pipe.rob.squashedSeqNum :=
        h.core.control.youngest hdone
      have := haccept.2
      split <;> omega
    · cases hp
      exact ⟨h, hphase, rfl⟩

theorem Inv.iewSquash (h : Inv s) (hphase : s.pipe.phase = .iewSquash)
    (hp : s.pipe.iewSquash cfg = some p') (hcore : p'.window.Core) :
    Inv { s with pipe := p', toIEW := s.pipe.front.fromRename } := by
  simp only [Pipeline.iewSquash, Option.bind_eq_bind] at hp
  obtain ⟨t, ht, hp⟩ := Option.bind_eq_some_iff.mp hp
  obtain ⟨hinv, htphase, htfront⟩ := h.acceptSquash hphase ht
  have hseen : t.fetch.fromCommit.squash = false := by
    refine hinv.core.control.not_seen ?_
    rw [Pipeline.window, htphase]
    exact Phase.noConfusion
  rw [← htfront]
  split at hp
  · rename_i hstatus
    cases hp
    refine hinv.takeInsts (l := []) htphase (by rw [List.append_nil]) (.inl rfl)
      (List.Subset.refl _) (List.nil_sublist _) (fun i hi => ?_) (fun hne => absurd rfl hne) hcore
    right
    by_cases hsent : t.commit.toIEW.squash = true
    · exact .inr (.inr (.inl hsent))
    · have hw : Walking t := ⟨hstatus, eq_false_of_ne_true hsent, hseen⟩
      exact .inl (hinv.stall.sent hw i (List.mem_append_left _ hi))
  · rename_i hstatus
    obtain ⟨u, hu, hp⟩ := Option.bind_eq_some_iff.mp hp
    cases hp
    simp only [Pipeline.getInsts, Option.bind_eq_bind] at hu
    obtain ⟨w, hw, hu⟩ := Option.bind_eq_some_iff.mp hu
    cases hu
    obtain ⟨l, hsub, hwp, hall, hopen⟩ := getInsts_taken hw
    have hstatus : t.commit.status ≠ .robSquashing := hstatus
    have hsent : t.commit.toIEW.squash = false := hinv.core.control.not_sent hstatus
    refine hinv.takeInsts htphase ?_ (.inr rfl) (List.nil_subset _) hsub (fun i hi => ?_)
      (fun hne => ?_) hcore
    · rw [hwp]
    · rcases hall i hi with hl | hq | hsquashing | htrap
      · exact .inl hl
      · exact .inr (.inl hq)
      · exact absurd hsquashing hstatus
      · exact .inr (.inr (.inl htrap))
    · rintro (htrap | hs | hs)
      · exact (hopen hne).2 htrap
      · rw [hsent] at hs
        cases hs
      · rw [hseen] at hs
        cases hs

end TakeInsts

section CommitInsts

variable {s : Backend} {p p' p'' : Pipeline} {cfg : PipelineParams} {inMemory : List Nat}

/-- What a round of commit's loop leaves alone. Of the instructions it may retire the head, which
is squashed or has been executed, and may take a load as executed that waits for its data. -/
structure InRound (inMemory : List Nat) (p p' : Pipeline) : Prop where
  front : p'.front = p.front
  iew : p'.iew = p.iew
  seen : p'.fetch.fromCommit = p.fetch.fromCommit
  squash : p'.commit.toIEW.squash = p.commit.toIEW.squash
  next : p'.list.globalSeqNum = p.list.globalSeqNum
  done : p'.rob.doneSquashing = p.rob.doneSquashing
  sub : ∀ i ∈ p'.rob.instList, i ∈ p.rob.instList
  gone : ∀ i ∈ p.rob.instList, i ∉ p'.rob.instList →
    (p'.insts i).squashed = true ∨ (p'.insts i).executed = true
  squashed : ∀ i, (p.insts i).squashed = true → (p'.insts i).squashed = true
  executed : ∀ i, (p.insts i).executed = true → (p'.insts i).executed = true
  fresh : ∀ i, (p'.insts i).executed = true → (p.insts i).executed = true ∨ i ∈ inMemory
  listed : ∀ i ∉ p.rob.instList, p.window.Listed i → p'.window.Listed i

namespace InRound

theorem trans (h : InRound inMemory p p') (h' : InRound inMemory p' p'') :
    InRound inMemory p p'' where
  front := h'.front.trans h.front
  iew := h'.iew.trans h.iew
  seen := h'.seen.trans h.seen
  squash := h'.squash.trans h.squash
  next := h'.next.trans h.next
  done := h'.done.trans h.done
  sub i hi := h.sub i (h'.sub i hi)
  gone i hi hnot := by
    by_cases hmem : i ∈ p'.rob.instList
    · exact h'.gone i hmem hnot
    · exact (h.gone i hi hmem).imp (h'.squashed i) (h'.executed i)
  squashed i hq := h'.squashed i (h.squashed i hq)
  executed i he := h'.executed i (h.executed i he)
  fresh i he := (h'.fresh i he).elim (h.fresh i) .inr
  listed i hi hl := h'.listed i (mt (h.sub i) hi) (h.listed i hi hl)

/-- Some instructions of the list are changed. -/
theorem of_insts (hp' : ∃ phase drainStall commit log, p' = { p with
      phase, log
      list := { p.list with insts := p'.insts }
      inRunahead := p'.inRunahead
      runaheadCause := p'.runaheadCause
      runaheadPeriods := p'.runaheadPeriods
      runaheadChainSize := p'.runaheadChainSize
      trapEvents := p'.trapEvents
      markedIn := p'.markedIn
      fetch := { p.fetch with drainStall }
      commit })
    (hsquash : p'.commit.toIEW.squash = p.commit.toIEW.squash)
    (hsame : ∀ i, (p'.insts i).squashed = (p.insts i).squashed ∧
      (p'.insts i).removePending = (p.insts i).removePending ∧
      (p'.insts i).committed = (p.insts i).committed)
    (hexecuted : ∀ i, (p'.insts i).executed = (p.insts i).executed ∨
      (p'.insts i).executed = true ∧ i ∈ inMemory) : InRound inMemory p p' := by
  obtain ⟨_, _, _, _, hp'⟩ := hp'
  have hrob : p'.rob = p.rob := by rw [hp']
  have hlist : p'.list.instList = p.list.instList := by rw [hp']
  exact {
    front := by rw [hp']
    iew := by rw [hp']
    seen := by rw [hp']
    squash := hsquash
    next := by rw [hp']
    done := by rw [hrob]
    sub := fun i hi => hrob ▸ hi
    gone := fun i hi hnot => absurd hi (hrob ▸ hnot)
    squashed := fun i hq => (hsame i).1.trans hq
    executed := fun i he => by
      rcases hexecuted i with heq | ⟨he', -⟩
      · exact heq.trans he
      · exact he'
    fresh := fun i he => by
      rcases hexecuted i with heq | ⟨-, hmem⟩
      · exact .inl (heq.symm.trans he)
      · exact .inr hmem
    listed := fun i _ hl => by
      refine ⟨?_, (hsame i).2.1.trans hl.2.1, (hsame i).2.2.trans hl.2.2⟩
      change i ∈ p'.list.instList
      rw [hlist]
      exact hl.1 }

theorem modifyInst {f : DynInst → DynInst} (p : Pipeline) (i : Nat)
    (hf : ∀ inst, ((f inst).squashed = inst.squashed ∧
      (f inst).removePending = inst.removePending ∧ (f inst).committed = inst.committed) ∧
        (f inst).executed = inst.executed) : InRound inMemory p (p.modifyInst i f) := by
  refine .of_insts ⟨_, _, _, _, rfl⟩ rfl (fun j => ?_) fun j => .inl ?_
  · rw [Pipeline.modifyInst_insts, Insts.modify_apply]
    split
    · exact (hf _).1
    · exact ⟨rfl, rfl, rfl⟩
  · rw [Pipeline.modifyInst_insts, Insts.modify_apply]
    split
    · exact (hf _).2
    · rfl

/-- The head leaves the ROB. -/
theorem retire {head : Nat} {tail : List Nat} (hhead : p.rob.instList = head :: tail)
    (hgone : (p.insts head).squashed = true ∨ (p.insts head).executed = true)
    (hlist : p'.list = (p.window.retire head).list) (hrob : p'.rob = p.rob.retireHead)
    (hfront : p'.front = p.front) (hiew : p'.iew = p.iew)
    (hseen : p'.fetch.fromCommit = p.fetch.fromCommit)
    (hsquash : p'.commit.toIEW.squash = p.commit.toIEW.squash) : InRound inMemory p p' := by
  have hinsts : ∀ i, p'.insts i =
      if i = head then (p.insts i).setCommitted.removeFromCPU else p.insts i := by
    intro i
    change p'.list.insts i = _
    rw [hlist]
    simp only [Window.retire, InstList.removeFrontInst, InstList.setRemoving, Insts.modify_apply]
    split <;> rfl
  have hmem : ∀ i, i ∈ p'.rob.instList ↔ i ∈ tail := by
    intro i
    rw [hrob, ROB.retireHead, hhead]
    rfl
  have hboth : ∀ i, (p'.insts i).squashed = (p.insts i).squashed ∧
      (p'.insts i).executed = (p.insts i).executed := by
    intro i
    rw [hinsts]
    split <;> exact ⟨rfl, rfl⟩
  exact {
    front := hfront
    iew := hiew
    seen := hseen
    squash := hsquash
    next := by rw [hlist]; rfl
    done := by rw [hrob]; rfl
    sub := fun i hi => hhead ▸ List.mem_cons_of_mem head ((hmem i).mp hi)
    gone := fun i hi hnot => by
      rw [hhead] at hi
      obtain rfl : i = head := (List.mem_cons.mp hi).resolve_right (mt (hmem i).mpr hnot)
      rw [(hboth i).1, (hboth i).2]
      exact hgone
    squashed := fun i hq => (hboth i).1.trans hq
    executed := fun i he => (hboth i).2.trans he
    fresh := fun i he => .inl ((hboth i).2.symm.trans he)
    listed := fun i hi hl => by
      have hne : i ≠ head := by
        rintro rfl
        exact hi (hhead ▸ List.mem_cons_self)
      refine ⟨?_, ?_⟩
      · change i ∈ p'.list.instList
        rw [hlist]
        exact hl.1
      · change (p'.insts i).removePending = false ∧ (p'.insts i).committed = false
        rw [hinsts, if_neg hne]
        exact hl.2 }

end InRound

theorem afterInterrupt_keeps (p : Pipeline) (e : CommitEnv) : ∃ commit trapEvents log,
    p.afterInterrupt e = { p with commit, trapEvents, log } ∧
      commit.toIEW.squash = p.commit.toIEW.squash ∧
      (commit.status = p.commit.status ∨ commit.status = .trapPending) := by
  unfold Pipeline.afterInterrupt
  split
  · unfold Pipeline.handleInterrupt
    split
    · exact ⟨_, _, _, rfl, rfl, .inl rfl⟩
    · simp only
      split
      · exact ⟨_, _, _, rfl, rfl, .inr rfl⟩
      · exact ⟨_, _, _, rfl, rfl, .inl rfl⟩
  · exact ⟨_, _, _, rfl, rfl, .inl rfl⟩

/-- What commit does to the stages around it when the head commits. -/
theorem commitSuccess_keeps {head : Nat} {e : CommitEnv} {skipped : Bool}
    (h : p.commitSuccess head e = some (p', skipped)) :
    p'.front = p.front ∧ p'.iew = p.iew ∧ p'.fetch.fromCommit = p.fetch.fromCommit ∧
      p'.commit.toIEW.squash = p.commit.toIEW.squash := by
  have hsquash := congrArg Window.squashSent (Pipeline.commitSuccess_window h).1
  have hfetch : p'.fetch.fromCommit = p.fetch.fromCommit := by
    obtain ⟨_, hfetch⟩ := Pipeline.commitSuccess_fetch h
    rw [hfetch]
  have hkeeps : p'.front = p.front ∧ p'.iew = p.iew := by
    obtain ⟨t, ht, hend⟩ := Pipeline.commitSuccess_cases h
    obtain ⟨_, hafter, -⟩ := Pipeline.squashAfterInst_frame p head
    obtain ⟨_, u, _, ⟨⟨_, _, _, rfl⟩, -⟩, rfl, -⟩ := Pipeline.instBoundary_cases hend
    have hretire : (p.squashAfterInst head).front = p.front ∧
        (p.squashAfterInst head).iew = p.iew := by
      rw [hafter]
      simp only [Pipeline.retireInst, Pipeline.updateComInstStats]
      split <;> exact ⟨rfl, rfl⟩
    rcases Pipeline.drainPoint_cases ht with ⟨-, rfl⟩ | ⟨-, rfl⟩
    · exact hretire
    · exact hretire
  exact ⟨hkeeps.1, hkeeps.2, hfetch, hsquash⟩

theorem afterInterrupt_inRound (p : Pipeline) (e : CommitEnv) :
    InRound inMemory p (p.afterInterrupt e) := by
  obtain ⟨_, _, _, heq, hsquash, -⟩ := afterInterrupt_keeps p e
  rw [heq]
  exact .of_insts ⟨_, _, _, _, rfl⟩ hsquash (fun _ => ⟨rfl, rfl, rfl⟩) fun _ => .inl rfl

theorem lllAtHead_inRound {head : Nat} {e : CommitEnv} (h : p.lllAtHead cfg head e = some p')
    (hsent : ∀ request ∈ e.request, request.sent = true → request.complete = false →
      head ∈ inMemory) : InRound inMemory p p' := by
  have hlll : ∀ q : Pipeline, head ∈ inMemory → InRound inMemory q (q.handleRunaheadLLL head) := by
    intro q hmem
    refine .of_insts ⟨_, _, _, _, rfl⟩ rfl (fun i => ?_) fun i => ?_
    · rw [Pipeline.handleRunaheadLLL, Pipeline.modifyInst_insts, Insts.modify_apply]
      split <;> exact ⟨rfl, rfl, rfl⟩
    · by_cases hi : i = head
      · subst hi
        rw [Pipeline.handleRunaheadLLL, Pipeline.modifyInst_insts, Insts.modify_self]
        exact .inr ⟨rfl, hmem⟩
      · rw [Pipeline.handleRunaheadLLL, Pipeline.modifyInst_insts, Insts.modify_of_ne hi]
        exact .inl rfl
  have hmark : ∀ period, InRound inMemory p (p.markRunahead period) := by
    intro period
    have hinsts : ∀ i, (p.markRunahead period).insts i = p.insts i ∨
        (p.markRunahead period).insts i = (p.insts i).setRunahead :=
      fun i => (ite_eq_or_eq _ _ _).symm
    refine .of_insts ⟨_, _, _, _, rfl⟩ rfl (fun i => ?_) fun i => ?_
    · rcases hinsts i with heq | heq <;> rw [heq] <;> exact ⟨rfl, rfl, rfl⟩
    · left
      rcases hinsts i with heq | heq <;> rw [heq]
      rfl
  cases Pipeline.lllAtHead_cases h with
  | waits => exact .of_insts ⟨_, _, _, _, rfl⟩ rfl (fun _ => ⟨rfl, rfl, rfl⟩) fun _ => .inl rfl
  | enter hrequest hcomplete hs =>
    have hmem := hsent _ hrequest hs hcomplete
    refine ((hmark (p.runaheadPeriods + 1)).trans (hlll _ hmem)).trans ?_
    exact .of_insts ⟨_, _, _, _, rfl⟩ rfl (fun _ => ⟨rfl, rfl, rfl⟩) fun _ => .inl rfl
  | again hrequest hcomplete hs => exact hlll p (hsent _ hrequest hs hcomplete)

theorem commitFault_inRound (p : Pipeline) (head : Nat) (e : CommitEnv) :
    InRound inMemory p (p.commitFault head e) ∧
      ((p.commitFault head e).commit.status = p.commit.status ∨
        (p.commitFault head e).commit.status = .trapPending) := by
  have hcompleted : InRound inMemory p (p.modifyInst head DynInst.setCompleted) :=
    .modifyInst p head fun _ => ⟨⟨rfl, rfl, rfl⟩, rfl⟩
  simp only [Pipeline.commitFault]
  generalize ht : p.modifyInst head DynInst.setCompleted = t at hcompleted
  have hstatus : t.commit.status = p.commit.status := by rw [← ht]; rfl
  split
  · refine ⟨hcompleted.trans ?_, .inr rfl⟩
    exact .of_insts ⟨_, _, _, _, rfl⟩ rfl (fun _ => ⟨rfl, rfl, rfl⟩) fun _ => .inl rfl
  · have hpoisoned : InRound inMemory t (t.modifyInst head DynInst.setPoisoned) :=
      .modifyInst t head fun _ => ⟨⟨rfl, rfl, rfl⟩, rfl⟩
    split
    · refine ⟨(hcompleted.trans hpoisoned).trans ?_, .inl hstatus⟩
      exact .of_insts ⟨_, _, _, _, rfl⟩ rfl (fun _ => ⟨rfl, rfl, rfl⟩) fun _ => .inl rfl
    · exact ⟨hcompleted.trans hpoisoned, .inl hstatus⟩

theorem round_inRound {n : Nat} {e : CommitEnv} (h : Pipeline.Round cfg p n e p')
    (hsent : ∀ request ∈ e.request, request.sent = true → request.complete = false →
      ∀ head ∈ p.rob.instList.head?, head ∈ inMemory) :
    InRound inMemory p p' ∧ ((p'.commit.status = p.commit.status ∨
      p'.commit.status = .trapPending) ∨
        p.commit.status ≠ .trapPending ∧ p'.commit.status = .squashAfterPending) := by
  have hinterrupt := @afterInterrupt_inRound inMemory p e
  obtain ⟨commit, trapEvents, log, heq, -, hstatus⟩ := afterInterrupt_keeps p e
  have hstatus : (p.afterInterrupt e).commit.status = p.commit.status ∨
      (p.afterInterrupt e).commit.status = .trapPending := by
    rw [heq]
    exact hstatus
  have hinsts : (p.afterInterrupt e).insts = p.insts := by
    rw [heq]
    rfl
  have hrob : (p.afterInterrupt e).rob = p.rob := by rw [heq]
  have hphase : ∀ {q : Pipeline} (phase : Phase), InRound inMemory p q →
      InRound inMemory p { q with phase } := fun _ hq =>
    hq.trans (.of_insts ⟨_, _, _, _, rfl⟩ rfl (fun _ => ⟨rfl, rfl, rfl⟩) fun _ => .inl rfl)
  have hat : ∀ head, InRound inMemory p (p.atHead e head) := fun _ =>
    hinterrupt.trans (.of_insts ⟨_, _, _, _, rfl⟩ rfl (fun _ => ⟨rfl, rfl, rfl⟩) fun _ => .inl rfl)
  cases h with
  | full =>
    refine ⟨?_, .inl (.inl rfl)⟩
    exact .of_insts ⟨_, _, _, _, rfl⟩ rfl (fun _ => ⟨rfl, rfl, rfl⟩) fun _ => .inl rfl
  | nothing => exact ⟨hphase .finish hinterrupt, .inl hstatus⟩
  | wait => exact ⟨hphase .finish (hat _), .inl hstatus⟩
  | notReady hhead hready hlll =>
    have hkeep := @lllAtHead_inRound _ _ _ inMemory _ _ hlll fun request hr hs hc =>
      hsent request hr hs hc _ (by rw [hhead]; rfl)
    refine ⟨hphase .finish (hinterrupt.trans hkeep), .inl ?_⟩
    cases Pipeline.lllAtHead_cases hlll with
    | waits | enter | again => exact hstatus
  | @squashed head tail hhead hsquashed =>
    refine ⟨hinterrupt.trans (.retire (hrob ▸ hhead) (.inl ?_) rfl rfl rfl rfl rfl rfl),
      .inl hstatus⟩
    rw [hinsts]
    exact hsquashed
  | @unexecuted head =>
    have hclear : InRound inMemory (p.atHead e head)
        ((p.atHead e head).modifyInst head DynInst.clearCanCommit) :=
      .modifyInst _ head fun _ => ⟨⟨rfl, rfl, rfl⟩, rfl⟩
    exact ⟨hphase .finish ((hat head).trans hclear), .inl hstatus⟩
  | @fault head =>
    obtain ⟨hkeep, hfault⟩ := @commitFault_inRound inMemory (p.atHead e head) head e
    refine ⟨hphase .finish ((hat head).trans hkeep), .inl ?_⟩
    rcases hfault with hf | hf
    · exact hstatus.imp hf.trans hf.trans
    · exact .inr hf
  | @success head u skipped hcommits hu =>
    obtain ⟨tail, hhead⟩ := hcommits.atHead
    obtain ⟨hfront, hiew, hseen, hsquash⟩ := commitSuccess_keeps hu
    obtain ⟨hwindow, hafter⟩ := Pipeline.commitSuccess_window hu
    have hretire : InRound inMemory (p.atHead e head) u := by
      refine .retire (hrob ▸ hhead) (.inr ?_) (congrArg Window.list hwindow)
        (congrArg Window.rob hwindow) hfront hiew hseen hsquash
      change ((p.afterInterrupt e).insts head).executed = true
      rw [hinsts]
      exact hcommits.executed
    refine ⟨hphase _ ((hat head).trans hretire), ?_⟩
    rcases hafter with hsame | hsq
    · exact .inl (hstatus.imp hsame.trans hsame.trans)
    · refine .inr ⟨?_, hsq⟩
      rcases hcommits.status with hs | hs | hs <;> rw [hs] <;> simp

/-- While commit retires instructions no squash is on its way, so what IEW may still drop is
squashed or has left the ROB. -/
theorem Inv.inRound {n : Nat} (h : Inv s) (hphase : s.pipe.phase = .commitInsts n)
    (hr : InRound s.inMemory s.pipe p') (hstatus : p'.commit.status ≠ .robSquashing)
    (hclosed : Closed s.pipe → Closed p')
    (hphase' : p'.phase = .finish ∨ ∃ m, p'.phase = .commitInsts m) (hcore : p'.window.Core) :
    Inv { s with pipe := p' } := by
  have hstatus₀ : s.pipe.commit.status ≠ .robSquashing := h.core.control.committing n hphase
  have hdone : s.pipe.rob.doneSquashing = true := h.core.control.done hstatus₀
  have hsent : p'.commit.toIEW.squash = false := hcore.control.not_sent hstatus
  have hsent₀ : s.pipe.commit.toIEW.squash = false := hr.squash.symm.trans hsent
  have hlate : beforeCommit p'.phase = false ∧ unread p'.phase = false ∧
      beforeRename p'.phase = false ∧ p'.phase ≠ .idle ∧ afterGetInsts p'.phase = true := by
    rcases hphase' with hp | ⟨m, hp⟩ <;> rw [hp] <;>
      exact ⟨rfl, rfl, rfl, Phase.noConfusion, rfl⟩
  have hcoming : coming p' = coming s.pipe := by
    rw [coming, coming, hlate.2.2.2.2, hphase, hr.front]
    rfl
  have hannounced : announced p' = announced s.pipe := by
    rw [announced, announced, hr.iew, hsent, hsent₀]
    rfl
  have hcovered : ∀ i, Covered s.pipe i → Covered p' i := by
    rintro i (hq | ⟨he, hnot⟩ | ⟨-, hwalk, -⟩)
    · exact .inl (hr.squashed i hq)
    · exact .inr (.inl ⟨hr.executed i he, mt (hr.sub i) hnot⟩)
    · rw [hdone] at hwalk
      cases hwalk
  refine ⟨hcore, ?_, ⟨?_, fun hd => ?_⟩, ⟨h.queues.nodup, ?_, ?_, fun i hi => ?_⟩,
    fun i hi hnot => ?_, fun w hw i hi hlt hle => ?_⟩
  · have hnot : ∀ {P : Prop}, Walking p' → P := fun hw => absurd hw.1 hstatus
    exact {
      told := fun hp => Bool.noConfusion (hp.symm.trans hlate.1)
      tells := fun _ hs => absurd hs hstatus
      same := fun hp => absurd hp hlate.2.2.2.1
      read := fun _ => by
        rw [hr.iew]
        exact h.stall.read (by rw [hphase]; rfl)
      idle := fun hp => absurd hp hlate.2.2.2.1
      fetching := fun hp => Bool.noConfusion (hp.symm.trans hlate.2.1)
      sent := hnot
      blocked := hnot
      blocked' := hnot }
  · rw [hannounced, hr.next]
    exact h.wires.bound
  · rw [hr.done, hdone] at hd
    cases hd
  · rw [hr.next]
    exact h.queues.lt
  · rw [hcoming]
    exact h.queues.older
  · have hi : i ∈ s.undispatched ++ coming p' := hi
    rw [hcoming] at hi
    have hfresh := h.queues.fresh i hi
    refine eq_false_of_ne_true fun he => ?_
    rcases hr.fresh i he with he₀ | hmem
    · rw [inst, he₀] at hfresh
      cases hfresh
    · -- a load that waits for its data is neither to be dispatched nor to come
      rcases List.mem_append.mp hi with hi | hi
      · have hnodup := h.queues.nodup
        rw [held_eq] at hnodup
        exact (List.nodup_append.mp hnodup).2.2 i hmem i (List.mem_append_right _ hi) rfl
      · have := h.queues.older i (List.mem_append_left _ hmem) i hi
        omega
  · by_cases hrob : i ∈ s.pipe.rob.instList
    · exact (hr.gone i hrob hnot).imp_right .inl
    · rcases h.outside i hi hrob with hq | he | ⟨hl, hyounger, hc⟩
      · exact .inl (hr.squashed i hq)
      · exact .inr (.inl (hr.executed i he))
      · exact .inr (.inr ⟨hr.listed i hrob hl, fun y hy => hyounger y (hr.sub y hy), hclosed hc⟩)
  · rw [hannounced] at hw
    refine hcovered i (h.agree w hw i ?_ hlt hle)
    have hi : i ∈ s.inIEW ++ p'.rob.instList ++ coming p' := hi
    rw [hcoming] at hi
    simp only [List.mem_append] at hi ⊢
    exact hi.imp_left (Or.imp_right (hr.sub i))

theorem Inv.commitInst {n : Nat} {e : CommitEnv} (h : Inv s)
    (hphase : s.pipe.phase = .commitInsts n) (hp : s.pipe.commitInst cfg n e = some p')
    (hsent : s.SentLoad e) (hcore : p'.window.Core) : Inv { s with pipe := p' } := by
  have hround := Pipeline.commitInst_cases hp
  obtain ⟨hr, hstatus⟩ := @round_inRound _ _ _ s.inMemory _ _ hround fun request hr hs hc =>
    hsent request hr hs hc
  have hstatus₀ : s.pipe.commit.status ≠ .robSquashing := h.core.control.committing n hphase
  have hseen : s.pipe.fetch.fromCommit.squash = false := by
    refine h.core.control.not_seen ?_
    rw [Pipeline.window, hphase]
    exact Phase.noConfusion
  have hsent₀ : s.pipe.commit.toIEW.squash = false := h.core.control.not_sent hstatus₀
  refine h.inRound hphase hr ?_ ?_ (Pipeline.round_phase hphase hround) hcore
  · rcases hstatus with (heq | heq) | ⟨-, heq⟩ <;> rw [heq]
    · exact hstatus₀
    · exact CommitStatus.noConfusion
    · exact CommitStatus.noConfusion
  · rintro (htrap | hs | hs)
    · rcases hstatus with (heq | heq) | ⟨hnot, -⟩
      · exact .inl (heq.trans htrap)
      · exact .inl heq
      · exact absurd htrap hnot
    · rw [hsent₀] at hs
      cases hs
    · rw [hseen] at hs
      cases hs

end CommitInsts

section Finish

variable {s : Backend} {p' : Pipeline} {cfg : PipelineParams}

/-- The end of a tick: the wires move on. -/
theorem Inv.finish (h : Inv s) (hphase : s.pipe.phase = .finish) (hp' : p' = s.pipe.finish cfg)
    (hcore : p'.window.Core) :
    Inv { s with pipe := p', fromRename := s.toIEW, toIEW := [] } := by
  obtain ⟨exit, log, hupdate, -⟩ :=
    @Pipeline.updateRunaheadState_cases cfg s.pipe.markCompletedInsts
  rw [Pipeline.finish, hupdate] at hp'
  have hread : s.pipe.iew.fromCommit.squash = false := h.stall.read (by rw [hphase]; rfl)
  have hseen : s.pipe.fetch.fromCommit.squash = false := by
    refine h.core.control.not_seen ?_
    rw [Pipeline.window, hphase]
    exact Phase.noConfusion
  have hinsts : ∀ i, p'.insts i = s.pipe.insts i ∨ p'.insts i = (s.pipe.insts i).setCanCommit := by
    intro i
    have hend := congrFun (Window.endTick_insts s.pipe.markCompletedInsts.list) i
    have heq : p'.insts i = s.pipe.markCompletedInsts.list.endTick.insts i := by
      rw [hp']
      rfl
    rw [heq, hend]
    exact (ite_eq_or_eq _ _ _).symm
  have hsame : ∀ i, (p'.insts i).squashed = (s.pipe.insts i).squashed ∧
      (p'.insts i).executed = (s.pipe.insts i).executed ∧
      (p'.insts i).removePending = (s.pipe.insts i).removePending ∧
      (p'.insts i).committed = (s.pipe.insts i).committed := by
    intro i
    rcases hinsts i with heq | heq <;> rw [heq] <;> exact ⟨rfl, rfl, rfl, rfl⟩
  have hnext : p'.list.globalSeqNum = s.pipe.list.globalSeqNum := by
    rw [hp']
    exact Window.endTick_globalSeqNum s.pipe.markCompletedInsts.list
  have hlisted : ∀ i, s.pipe.window.Listed i → p'.window.Listed i := by
    intro i hl
    refine ⟨?_, (hsame i).2.2.1.trans hl.2.1, (hsame i).2.2.2.trans hl.2.2⟩
    have hpending : (s.pipe.markCompletedInsts.list.insts i).removePending = false := by
      have heq : p'.insts i = s.pipe.markCompletedInsts.list.insts i := by
        rw [hp']
        exact congrFun (Window.endTick_insts s.pipe.markCompletedInsts.list) i
      rw [← heq]
      exact (hsame i).2.2.1.trans hl.2.1
    rw [hp']
    exact Window.mem_endTick (l := s.pipe.markCompletedInsts.list) hl.1 hpending
  have hrob : p'.rob = s.pipe.rob := by
    rw [hp']
    rfl
  have hfront : p'.front = { s.pipe.front with
      toDecode := [], queued := s.pipe.front.queued ++ s.pipe.front.toDecode, toROB := []
      fromRename := s.pipe.front.toROB } := by
    rw [hp']
    rfl
  have hiew : p'.iew = { s.pipe.iew with toCommit := {}, fromCommit := s.pipe.commit.toIEW } := by
    rw [hp']
    rfl
  have hfetch : p'.fetch = { s.pipe.fetch with fromCommit := s.pipe.commit.toIEW } := by
    rw [hp']
    rfl
  have hcommit : p'.commit.status = s.pipe.commit.status ∧ p'.commit.toIEW = {} ∧
      p'.phase = .idle := by
    rw [hp']
    exact ⟨rfl, rfl, rfl⟩
  obtain ⟨hstatus, htoIEW, hidle⟩ := hcommit
  clear hp' hupdate
  have hcoming : coming p' = coming s.pipe := by
    rw [coming, coming, hphase, hidle, hfront]
    simp [FrontEnd.insts, afterGetInsts]
  have hannounced : announced p' = announced s.pipe ∧ latest p' = latest s.pipe := by
    rw [announced, announced, latest, latest, hread, hiew, htoIEW]
    cases s.pipe.commit.toIEW.squash <;> exact ⟨rfl, rfl⟩
  have hwalking : Walking p' → Walking s.pipe := by
    rintro ⟨hs, -, hseen'⟩
    rw [hfetch] at hseen'
    exact ⟨hstatus ▸ hs, hseen', hseen⟩
  have hclosed : Closed s.pipe → Closed p' := by
    rintro (htrap | hs | hs)
    · exact .inl (hstatus.trans htrap)
    · refine .inr (.inr ?_)
      rw [hfetch]
      exact hs
    · rw [hseen] at hs
      cases hs
  have hund : ({ s with pipe := p', fromRename := s.toIEW, toIEW := [] } :
      Backend).undispatched.Sublist s.undispatched := by
    simp only [undispatched, List.append_nil]
    exact (List.sublist_append_left _ _).append_right _
  have hinIEW : ({ s with pipe := p', fromRename := s.toIEW, toIEW := [] } :
      Backend).inIEW.Sublist s.inIEW := by
    rw [inIEW_eq, inIEW_eq]
    exact hund.append_left _
  have hheld : ({ s with pipe := p', fromRename := s.toIEW, toIEW := [] } :
      Backend).held.Sublist s.held := hinIEW.append_left _
  refine ⟨hcore, ?_, ⟨?_, ?_⟩, ⟨h.queues.nodup.sublist hheld, fun i hi => ?_, fun i hi j hj => ?_,
    fun i hi => ?_⟩, fun i hi hnot => ?_, fun w hw i hi hlt hle => ?_⟩
  · exact {
      told := fun _ hs => by
        rw [hiew]
        exact h.stall.tells (by rw [hphase]; rfl) (hstatus ▸ hs)
      tells := fun hp => by
        rw [hidle] at hp
        cases hp
      same := fun _ => by rw [hiew, hfetch]
      read := fun hp => by
        rw [hidle] at hp
        cases hp
      idle := fun _ => by
        rw [hfront]
        exact ⟨rfl, rfl⟩
      fetching := fun _ hp => absurd hidle hp
      sent := fun hw i hi => by
        rw [hfront] at hi
        refine (hsame i).1.trans (h.stall.sent (hwalking hw) i (List.mem_append_right _ ?_))
        simpa using hi
      blocked := fun hw _ => by
        rw [hfront]
        refine (h.stall.blocked' (hwalking hw) (by rw [hphase]; rfl)).imp_right fun hnil => ?_
        rw [hnil.1, hnil.2]
        rfl
      blocked' := fun _ hp => by
        rw [hidle] at hp
        cases hp }
  · rw [hannounced.1, hnext]
    exact h.wires.bound
  · rw [hannounced.2, hrob]
    exact h.wires.number
  · rw [hnext]
    exact h.queues.lt i (hheld.subset hi)
  · exact h.queues.older i (hheld.subset hi) j (hcoming ▸ hj)
  · rw [inst, (hsame i).2.1]
    rcases List.mem_append.mp hi with hi | hi
    · exact h.queues.fresh i (List.mem_append_left _ (hund.subset hi))
    · exact h.queues.fresh i (List.mem_append_right _ (hcoming ▸ hi))
  · rw [hrob] at hnot
    rcases h.outside i (hinIEW.subset hi) hnot with hq | he | ⟨hl, hyounger, hc⟩
    · exact .inl ((hsame i).1.trans hq)
    · exact .inr (.inl ((hsame i).2.1.trans he))
    · exact .inr (.inr ⟨hlisted i hl, hrob ▸ hyounger, hclosed hc⟩)
  · rw [hannounced.1] at hw
    rw [hrob, hcoming] at hi
    rw [Covered, (hsame i).1, (hsame i).2.1, hrob]
    refine h.agree w hw i ?_ hlt hle
    simp only [List.mem_append] at hi ⊢
    exact hi.imp_left (Or.imp_left fun hi => hinIEW.subset hi)

end Finish

end Backend
end Runahead
end Gem5
