import Gem5Runahead.DependenceChain

/-!
# ChainExact

What is in a dependence chain. The chain names instructions by PC, and the search follows one
instruction for each PC back to its producers: the first one it finds. A second instance of a PC is
taken to be in the chain already, and its own sources are not looked for.

* `Asks` — the registers that are looked for, for a set of followed instructions.
* `Found` — the instructions that a search follows, one after the other; `Found.inSlice` — each
  is in the backward slice `InSlice` of the younger instance.
* `Followed` — what holds between the followed instructions and the chain; `visit_followed` — a
  visit keeps it.
* `chain_exact` — the chain of a search that stays in the ROB.
* `slice_left_out` — slices that are longer than their chains.
-/

namespace Gem5
namespace Runahead
namespace DependenceChain

variable {PC : Type} {pair : PC → PCPair} {rob : List (ChainInst PC)}
  {storeQueue : List (ChainStore PC)} {younger inst st : ChainInst PC} {youngerPos pos p q : Nat}
  {reg : PhysRegId} {E : List Nat} {chain keys : List PCPair} {entry : SRSLEntry}
  {todo rest items : List SRSLEntry}

section Followed

/-- `p` is the nearest position before `pos` with a producer of `reg`. -/
def Producer (rob : List (ChainInst PC)) (pos : Nat) (reg : PhysRegId) (p : Nat) : Prop :=
  p < pos ∧ Produces rob p reg ∧ ∀ q, p < q → q < pos → ¬ Produces rob q reg

/-- A followed instruction other than the younger instance adds a store. -/
def AddsStore (rob : List (ChainInst PC)) (storeQueue : List (ChainStore PC)) (youngerPos : Nat)
    (E : List Nat) (st : ChainInst PC) : Prop :=
  ∃ m ∈ E, m ≠ youngerPos ∧ ∃ inst ∈ rob[m]?, addedStore storeQueue inst = some st

/-- `reg` is looked for from before `pos` on: it is a source of the followed instruction there, or
of a store there that a followed load adds. -/
def Asks (rob : List (ChainInst PC)) (storeQueue : List (ChainStore PC)) (youngerPos : Nat)
    (E : List Nat) (pos : Nat) (reg : PhysRegId) : Prop :=
  (pos ∈ E ∧ ∃ inst ∈ rob[pos]?, reg ∈ searched inst.renamedSrcIdx) ∨
    ∃ st, AddsStore rob storeQueue youngerPos E st ∧ reg ∈ searched st.renamedSrcIdx ∧
      pos = findInst rob st

/-- The followed instructions, the last one found first: the younger instance, and after it always
the nearest producer of a register that is looked for already. -/
inductive Found (rob : List (ChainInst PC)) (storeQueue : List (ChainStore PC))
    (youngerPos : Nat) : List Nat → Prop where
  | younger : Found rob storeQueue youngerPos [youngerPos]
  | producer {E : List Nat} {pos p : Nat} {reg : PhysRegId} :
      Found rob storeQueue youngerPos E → Asks rob storeQueue youngerPos E pos reg →
      Producer rob pos reg p → Found rob storeQueue youngerPos (p :: E)

/-- The backward slice of the younger instance as the chain takes it: nearest producers of the
sources of its members, and of the sources of the stores that its members but the younger instance
add. -/
inductive InSlice (rob : List (ChainInst PC)) (storeQueue : List (ChainStore PC))
    (youngerPos : Nat) : Nat → Prop where
  | younger : InSlice rob storeQueue youngerPos youngerPos
  | producer {m p : Nat} {inst : ChainInst PC} {reg : PhysRegId} :
      InSlice rob storeQueue youngerPos m → inst ∈ rob[m]? → reg ∈ searched inst.renamedSrcIdx →
      Producer rob m reg p → InSlice rob storeQueue youngerPos p
  | storeProducer {m p : Nat} {inst st : ChainInst PC} {reg : PhysRegId} :
      InSlice rob storeQueue youngerPos m → m ≠ youngerPos → inst ∈ rob[m]? →
      addedStore storeQueue inst = some st → reg ∈ searched st.renamedSrcIdx →
      Producer rob (findInst rob st) reg p → InSlice rob storeQueue youngerPos p

/-- The chain so far and the registers still to be looked for, with the instructions followed. -/
structure Followed (pair : PC → PCPair) (rob : List (ChainInst PC))
    (storeQueue : List (ChainStore PC)) (youngerPos : Nat) (younger : ChainInst PC)
    (chain : List PCPair) (todo : List SRSLEntry) (E : List Nat) : Prop where
  found : Found rob storeQueue youngerPos E
  inROB : ∀ p ∈ E, p < rob.length
  nodup : chain.Nodup
  first : chain.head? = some (pair younger.pcState)
  /-- One instruction for each PC. -/
  instances : ∀ p ∈ E, ∀ q ∈ E, ∀ i ∈ rob[p]?, ∀ j ∈ rob[q]?,
    pair i.pcState = pair j.pcState → p = q
  mem_chain : ∀ k, k ∈ chain ↔ (∃ p ∈ E, ∃ i ∈ rob[p]?, pair i.pcState = k) ∨
    ∃ st, AddsStore rob storeQueue youngerPos E st ∧ pair st.pcState = k
  pos : ∀ pos reg, Asks rob storeQueue youngerPos E pos reg → 0 < pos
  asked : ∀ entry ∈ todo, Asks rob storeQueue youngerPos E (entry.startIt + 1) entry.srcReg
  /-- The nearest producer is in the chain, unless the register is still to be looked for. -/
  closed : ∀ pos reg, Asks rob storeQueue youngerPos E pos reg → ⟨reg, pos - 1⟩ ∉ todo →
    ∀ p, 2 ≤ p → Producer rob pos reg p → ∃ i ∈ rob[p]?, pair i.pcState ∈ chain

theorem Producer.unique (h : Producer rob pos reg p) (h' : Producer rob pos reg q) : p = q := by
  rcases Nat.lt_trichotomy p q with hlt | heq | hlt
  · exact absurd h'.2.1 (h.2.2 q hlt h'.1)
  · exact heq
  · exact absurd h.2.1 (h'.2.2 p hlt h.1)

theorem AddsStore.mono (h : AddsStore rob storeQueue youngerPos E st) :
    AddsStore rob storeQueue youngerPos (p :: E) st := by
  obtain ⟨m, hm, hrest⟩ := h
  exact ⟨m, List.mem_cons_of_mem _ hm, hrest⟩

theorem Asks.mono (h : Asks rob storeQueue youngerPos E pos reg) :
    Asks rob storeQueue youngerPos (p :: E) pos reg := by
  rcases h with ⟨hm, hsrc⟩ | ⟨st, hst, hrest⟩
  · exact .inl ⟨List.mem_cons_of_mem _ hm, hsrc⟩
  · exact .inr ⟨st, hst.mono, hrest⟩

theorem Found.start (h : Found rob storeQueue youngerPos E) : youngerPos ∈ E := by
  induction h with
  | younger => exact List.mem_singleton_self _
  | producer _ _ _ ih => exact List.mem_cons_of_mem _ ih

/-- What is followed is in the slice, since what asked for it was followed before. -/
theorem Found.inSlice (h : Found rob storeQueue youngerPos E) :
    ∀ p ∈ E, InSlice rob storeQueue youngerPos p := by
  induction h with
  | younger =>
    intro p hp
    rw [List.mem_singleton.mp hp]
    exact .younger
  | producer _ hasks hprod ih =>
    intro p hp
    rcases List.mem_cons.mp hp with rfl | hp
    · rcases hasks with ⟨hm, inst, hinst, hreg⟩ | ⟨st, ⟨m, hm, hne, inst, hinst, hst⟩, hreg, rfl⟩
      · exact (ih _ hm).producer hinst hreg hprod
      · exact (ih m hm).storeProducer hne hinst hst hreg hprod
    · exact ih p hp

/-- The registers that are looked for once `p` is followed, too. -/
theorem asks_cons (hinst : rob[p]? = some inst)
    (h : Asks rob storeQueue youngerPos (p :: E) pos reg) :
    Asks rob storeQueue youngerPos E pos reg ∨
      (pos = p ∧ reg ∈ searched inst.renamedSrcIdx) ∨
      ∃ st, addedStore storeQueue inst = some st ∧ reg ∈ searched st.renamedSrcIdx ∧
        pos = findInst rob st := by
  rcases h with ⟨hm, i, hi, hreg⟩ | ⟨st, ⟨m, hm, hne, i, hi, hst⟩, hreg, hpos⟩
  · rcases List.mem_cons.mp hm with rfl | hm
    · obtain rfl := Option.some.inj (hinst.symm.trans hi)
      exact .inr (.inl ⟨rfl, hreg⟩)
    · exact .inl (.inl ⟨hm, i, hi, hreg⟩)
  · rcases List.mem_cons.mp hm with rfl | hm
    · obtain rfl := Option.some.inj (hinst.symm.trans hi)
      exact .inr (.inr ⟨st, hst, hreg, hpos⟩)
    · exact .inl (.inr ⟨st, ⟨m, hm, hne, i, hi, hst⟩, hreg, hpos⟩)

/-- A register is looked for, and its nearest producer is in the chain already or there is none. -/
theorem Followed.answered
    (h : Followed pair rob storeQueue youngerPos younger chain (entry :: rest) E)
    (hans : ∀ p, 2 ≤ p → Producer rob (entry.startIt + 1) entry.srcReg p →
      ∃ i ∈ rob[p]?, pair i.pcState ∈ chain) :
    Followed pair rob storeQueue youngerPos younger chain rest E := by
  refine { h with
    asked := fun e he => h.asked e (List.mem_cons_of_mem _ he)
    closed := fun pos reg hasks hnot p hp hprod => ?_ }
  by_cases heq : (⟨reg, pos - 1⟩ : SRSLEntry) = entry
  · subst heq
    have hpos : pos - 1 + 1 = pos := Nat.sub_add_cancel (h.pos pos reg hasks)
    exact hans p hp (by rw [hpos]; exact hprod)
  · refine h.closed pos reg hasks (fun hmem => ?_) p hp hprod
    rcases List.mem_cons.mp hmem with he | he
    · exact heq he
    · exact hnot he

/-- What a visit adds for a new instruction: its pair and its sources, and those of its store. -/
structure Additions (pair : PC → PCPair) (rob : List (ChainInst PC))
    (storeQueue : List (ChainStore PC)) (chain keys : List PCPair) (items : List SRSLEntry)
    (p : Nat) (inst : ChainInst PC) : Prop where
  nodup : (chain ++ keys).Nodup
  mem_keys : ∀ k, k ∈ chain ++ keys ↔ k ∈ chain ∨ pair inst.pcState = k ∨
    ∃ st, addedStore storeQueue inst = some st ∧ pair st.pcState = k
  entries : ∀ e ∈ items, (e.startIt + 1 = p ∧ e.srcReg ∈ searched inst.renamedSrcIdx) ∨
    ∃ st, addedStore storeQueue inst = some st ∧ e.startIt + 1 = findInst rob st ∧
      e.srcReg ∈ searched st.renamedSrcIdx
  own : ∀ reg ∈ searched inst.renamedSrcIdx, 0 < p ∧ ⟨reg, p - 1⟩ ∈ items
  store : ∀ st, addedStore storeQueue inst = some st → ∀ reg ∈ searched st.renamedSrcIdx,
    0 < findInst rob st ∧ ⟨reg, findInst rob st - 1⟩ ∈ items

theorem Followed.follow
    (h : Followed pair rob storeQueue youngerPos younger chain (entry :: rest) E)
    (hprod : Producer rob (entry.startIt + 1) entry.srcReg p) (hinst : rob[p]? = some inst)
    (hnew : pair inst.pcState ∉ chain)
    (hadd : Additions pair rob storeQueue chain keys items p inst) :
    Followed pair rob storeQueue youngerPos younger (chain ++ keys) (rest ++ items) (p :: E) := by
  have hknown : ∀ q ∈ E, ∀ i ∈ rob[q]?, pair i.pcState ∈ chain := fun q hq i hi =>
    (h.mem_chain _).mpr (.inl ⟨q, hq, i, hi, rfl⟩)
  have hfresh : p ∉ E := fun hp => hnew (hknown p hp inst hinst)
  have hyoung : p ≠ youngerPos := fun heq => hfresh (heq ▸ h.found.start)
  have hkeep : ∀ k ∈ chain, k ∈ chain ++ keys := fun k hk => List.mem_append_left _ hk
  have hkey : pair inst.pcState ∈ chain ++ keys := (hadd.mem_keys _).mpr (.inr (.inl rfl))
  have hadds : ∀ st, addedStore storeQueue inst = some st →
      AddsStore rob storeQueue youngerPos (p :: E) st := fun st hst =>
    ⟨p, List.mem_cons_self, hyoung, inst, hinst, hst⟩
  constructor
  case found => exact .producer h.found (h.asked entry List.mem_cons_self) hprod
  case inROB =>
    intro q hq
    rcases List.mem_cons.mp hq with rfl | hq
    · exact (List.getElem?_eq_some_iff.mp hinst).1
    · exact h.inROB q hq
  case nodup => exact hadd.nodup
  case first =>
    rw [List.head?_append, h.first]
    rfl
  case instances =>
    intro q hq q' hq' i hi j hj heq
    rcases List.mem_cons.mp hq with rfl | hold
    · rcases List.mem_cons.mp hq' with rfl | hold'
      · rfl
      · obtain rfl := Option.some.inj (hinst.symm.trans hi)
        exact absurd (heq ▸ hknown q' hold' j hj) hnew
    · rcases List.mem_cons.mp hq' with rfl | hold'
      · obtain rfl := Option.some.inj (hinst.symm.trans hj)
        exact absurd (heq ▸ hknown q hold i hi) hnew
      · exact h.instances q hold q' hold' i hi j hj heq
  case mem_chain =>
    intro k
    rw [hadd.mem_keys, h.mem_chain]
    constructor
    · rintro ((⟨q, hq, hk⟩ | ⟨st, hst, hk⟩) | hk | ⟨st, hst, hk⟩)
      · exact .inl ⟨q, List.mem_cons_of_mem _ hq, hk⟩
      · exact .inr ⟨st, hst.mono, hk⟩
      · exact .inl ⟨p, List.mem_cons_self, inst, hinst, hk⟩
      · exact .inr ⟨st, hadds st hst, hk⟩
    · rintro (⟨q, hq, i, hi, hk⟩ | ⟨st, ⟨m, hm, hne, i, hi, hst⟩, hk⟩)
      · rcases List.mem_cons.mp hq with rfl | hq
        · obtain rfl := Option.some.inj (hinst.symm.trans hi)
          exact .inr (.inl hk)
        · exact .inl (.inl ⟨q, hq, i, hi, hk⟩)
      · rcases List.mem_cons.mp hm with rfl | hm
        · obtain rfl := Option.some.inj (hinst.symm.trans hi)
          exact .inr (.inr ⟨st, hst, hk⟩)
        · exact .inl (.inr ⟨st, ⟨m, hm, hne, i, hi, hst⟩, hk⟩)
  case pos =>
    intro pos reg hasks
    rcases asks_cons hinst hasks with hold | ⟨rfl, hreg⟩ | ⟨st, hst, hreg, rfl⟩
    · exact h.pos pos reg hold
    · exact (hadd.own reg hreg).1
    · exact (hadd.store st hst reg hreg).1
  case asked =>
    intro e he
    rcases List.mem_append.mp he with he | he
    · exact (h.asked e (List.mem_cons_of_mem _ he)).mono
    · rcases hadd.entries e he with ⟨heq, hreg⟩ | ⟨st, hst, heq, hreg⟩
      · rw [heq]
        exact .inl ⟨List.mem_cons_self, inst, hinst, hreg⟩
      · exact .inr ⟨st, hadds st hst, hreg, heq⟩
  case closed =>
    intro pos reg hasks hnot q hq hprodq
    rcases asks_cons hinst hasks with hold | ⟨rfl, hreg⟩ | ⟨st, hst, hreg, rfl⟩
    · by_cases heq : (⟨reg, pos - 1⟩ : SRSLEntry) = entry
      · subst heq
        have hpos : pos - 1 + 1 = pos := Nat.sub_add_cancel (h.pos pos reg hold)
        rw [hpos] at hprod
        obtain rfl := hprod.unique hprodq
        exact ⟨inst, hinst, hkey⟩
      · have hnot' : (⟨reg, pos - 1⟩ : SRSLEntry) ∉ entry :: rest := fun hmem => by
          rcases List.mem_cons.mp hmem with he | he
          · exact heq he
          · exact hnot (List.mem_append_left _ he)
        obtain ⟨i, hi, hk⟩ := h.closed pos reg hold hnot' q hq hprodq
        exact ⟨i, hi, hkeep _ hk⟩
    · exact absurd (List.mem_append_right _ (hadd.own reg hreg).2) hnot
    · exact absurd (List.mem_append_right _ (hadd.store st hst reg hreg).2) hnot

end Followed

section Visit

theorem nodup_snoc {α : Type} {l : List α} {a : α} (h : l.Nodup) (ha : a ∉ l) :
    (l ++ [a]).Nodup := by
  rw [List.nodup_append_comm]
  exact List.nodup_cons.mpr ⟨ha, h⟩

/-- Every visit keeps it. The younger instance has the PC of the head, so nothing is followed at
the head. -/
theorem visit_followed
    (h : Followed pair rob storeQueue youngerPos younger chain (entry :: rest) E)
    (hhead : ∀ head ∈ rob[0]?, pair head.pcState ∈ chain)
    (hvisit : visit pair rob storeQueue chain entry = some (keys, items)) :
    ∃ E', Followed pair rob storeQueue youngerPos younger (chain ++ keys) (rest ++ items) E' := by
  -- a producer that is new is behind the head, and the nearest one
  have hnearest : ∀ {p : Nat} {inst : ChainInst PC},
      findProducer rob 1 entry.srcReg entry.startIt = some (some p) → rob[p]? = some inst →
      pair inst.pcState ∉ chain → Producer rob (entry.startIt + 1) entry.srcReg p := by
    intro p inst hfind hinst hnew
    rcases Nat.eq_zero_or_pos entry.startIt with hz | hpos
    · rw [hz] at hfind
      cases (findProducer_zero hfind).1
      exact absurd (hhead inst hinst) hnew
    · obtain ⟨-, hle, hprod, hnone⟩ := findProducer_spec hpos hfind
      exact ⟨Nat.lt_succ_of_le hle, hprod, fun q hq hlt => hnone q hq (Nat.le_of_lt_succ hlt)⟩
  cases visit_cases hvisit with
  | nothing hfind =>
    refine ⟨E, ?_⟩
    rw [List.append_nil, List.append_nil]
    refine h.answered fun p hp hprod => ?_
    rcases Nat.eq_zero_or_pos entry.startIt with hz | hpos
    · have := hprod.1
      omega
    · exact absurd hprod.2.1 (findProducer_spec hpos hfind p hp (Nat.le_of_lt_succ hprod.1))
  | @known pos inst hfind hinst hin =>
    refine ⟨E, ?_⟩
    rw [List.append_nil, List.append_nil]
    refine h.answered fun p hp hprod => ?_
    rcases Nat.eq_zero_or_pos entry.startIt with hz | hpos
    · have := hprod.1
      omega
    · obtain ⟨-, hle, hfound, hnone⟩ := findProducer_spec hpos hfind
      have heq : p = pos := hprod.unique
        ⟨Nat.lt_succ_of_le hle, hfound, fun q hq hlt => hnone q hq (Nat.le_of_lt_succ hlt)⟩
      exact ⟨inst, heq ▸ hinst, hin⟩
  | @inst pos inst _ hfind hinst hnew hstore hsrcs =>
    refine ⟨pos :: E, h.follow (hnearest hfind hinst hnew) hinst hnew ?_⟩
    constructor
    case nodup => exact nodup_snoc h.nodup hnew
    case mem_keys =>
      intro k
      simp [hstore, eq_comm]
    case entries =>
      intro e he
      obtain ⟨hstart, -, hreg⟩ := mem_addSources hsrcs he
      exact .inl ⟨hstart, hreg⟩
    case own =>
      intro reg hreg
      obtain ⟨hmem, hpos, -⟩ := addSources_mem hsrcs hreg
      exact ⟨hpos, hmem⟩
    case store =>
      intro st hst
      rw [hstore] at hst
      cases hst
  | @withStore pos inst st srcs storeSrcs _ hfind hinst hnew hstore hsrcs hstoreSrcs hkeys =>
    refine ⟨pos :: E, h.follow (hnearest hfind hinst hnew) hinst hnew ?_⟩
    have hone : (chain ++ [pair inst.pcState]).Nodup := nodup_snoc h.nodup hnew
    constructor
    case nodup =>
      rcases hkeys with ⟨rfl, -⟩ | ⟨rfl, hout⟩
      · exact hone
      · have hsplit : chain ++ [pair inst.pcState, pair st.pcState] =
            (chain ++ [pair inst.pcState]) ++ [pair st.pcState] := by simp
        rw [hsplit]
        exact nodup_snoc hone hout
    case mem_keys =>
      intro k
      rcases hkeys with ⟨rfl, hin⟩ | ⟨rfl, -⟩
      · simp only [List.mem_append, List.mem_singleton] at hin
        simp only [hstore, List.mem_append, List.mem_singleton, Option.some.injEq, exists_eq_left']
        constructor
        · rintro (hk | rfl)
          · exact .inl hk
          · exact .inr (.inl rfl)
        · rintro (hk | rfl | rfl)
          · exact .inl hk
          · exact .inr rfl
          · exact hin
      · simp [hstore, eq_comm]
    case entries =>
      intro e he
      rcases List.mem_append.mp he with he | he
      · obtain ⟨hstart, -, hreg⟩ := mem_addSources hsrcs he
        exact .inl ⟨hstart, hreg⟩
      · obtain ⟨hstart, -, hreg⟩ := mem_addSources hstoreSrcs he
        exact .inr ⟨st, hstore, hstart, hreg⟩
    case own =>
      intro reg hreg
      obtain ⟨hmem, hpos, -⟩ := addSources_mem hsrcs hreg
      exact ⟨hpos, List.mem_append_left _ hmem⟩
    case store =>
      intro st' hst' reg hreg
      obtain rfl := Option.some.inj (hstore.symm.trans hst')
      obtain ⟨hmem, hpos, -⟩ := addSources_mem hstoreSrcs hreg
      exact ⟨hpos, List.mem_append_right _ hmem⟩

end Visit

section Chain

variable [DecidableEq PC] {w : Worklist PCPair SRSLEntry}

theorem start_followed (hy : findYounger rob = some youngerPos)
    (hyounger : rob[youngerPos]? = some younger) (hw : start pair rob youngerPos = some w) :
    Followed pair rob storeQueue youngerPos younger w.done w.todo [youngerPos] := by
  obtain ⟨head, younger₁, -, hyounger₁, hpos, -⟩ := findYounger_spec hy
  obtain ⟨younger₀, w₀, hyounger₀, hw₀, hdone, htodo⟩ := @start_isSome _ _ pair _ _ hy
  obtain rfl := Option.some.inj (hw₀.symm.trans hw)
  obtain rfl := Option.some.inj (hyounger₀.symm.trans hyounger)
  have hasks : ∀ {pos : Nat} {reg : PhysRegId},
      Asks rob storeQueue youngerPos [youngerPos] pos reg →
        pos = youngerPos ∧ reg ∈ searched younger₀.renamedSrcIdx := by
    rintro pos reg (⟨hm, i, hi, hreg⟩ | ⟨st, ⟨m, hm, hne, -⟩, -⟩)
    · rw [List.mem_singleton] at hm
      subst hm
      obtain rfl := Option.some.inj (hyounger₀.symm.trans hi)
      exact ⟨rfl, hreg⟩
    · exact absurd (List.mem_singleton.mp hm) hne
  rw [hdone]
  constructor
  case found => exact .younger
  case inROB =>
    intro p hp
    rw [List.mem_singleton.mp hp]
    exact (List.getElem?_eq_some_iff.mp hyounger).1
  case nodup => exact List.nodup_singleton _
  case first => rfl
  case instances =>
    intro p hp q hq _ _ _ _ _
    rw [List.mem_singleton.mp hp, List.mem_singleton.mp hq]
  case mem_chain =>
    intro k
    rw [List.mem_singleton]
    constructor
    · rintro rfl
      exact .inl ⟨youngerPos, List.mem_singleton_self _, younger₀, hyounger, rfl⟩
    · rintro (⟨p, hp, i, hi, rfl⟩ | ⟨st, ⟨m, hm, hne, -⟩, -⟩)
      · rw [List.mem_singleton.mp hp] at hi
        rw [Option.some.inj (hyounger.symm.trans hi)]
      · exact absurd (List.mem_singleton.mp hm) hne
  case pos =>
    intro pos reg h
    rw [(hasks h).1]
    exact hpos
  case asked =>
    intro e he
    obtain ⟨hstart, -, hreg⟩ := mem_addSources htodo he
    rw [hstart]
    exact .inl ⟨List.mem_singleton_self _, younger₀, hyounger, hreg⟩
  case closed =>
    intro pos reg h hnot
    obtain ⟨rfl, hreg⟩ := hasks h
    exact absurd (addSources_mem htodo hreg).1 hnot

/-- The chain: instructions of the younger instance's slice and the stores they add, in the order in
which they were found. -/
def IsChain (pair : PC → PCPair) (rob : List (ChainInst PC)) (storeQueue : List (ChainStore PC))
    (buffer : List PCPair) : Prop :=
  match findYounger rob with
  | none => buffer = []
  | some youngerPos => ∃ younger E, rob[youngerPos]? = some younger ∧
      (∀ p ∈ E, InSlice rob storeQueue youngerPos p) ∧
      Followed pair rob storeQueue youngerPos younger buffer.reverse [] E

/-- A search that stays in the ROB yields a chain. -/
theorem chain_exact (hinside : StaysInside pair rob storeQueue) :
    ∃ buffer, generateChainBuffer pair rob storeQueue = some buffer ∧
      IsChain pair rob storeQueue buffer := by
  unfold generateChainBuffer IsChain
  cases hy : findYounger rob with
  | none => exact ⟨[], rfl, rfl⟩
  | some youngerPos =>
    obtain ⟨head, younger, hhead, hyounger, -, hsame, -⟩ := findYounger_spec hy
    obtain ⟨-, w, -, hw, -⟩ := @start_isSome _ _ pair _ _ hy
    obtain ⟨w', hrun⟩ := search_isSome hinside hy hw
    let I (v : Worklist PCPair SRSLEntry) : Prop :=
      ∃ E, Followed pair rob storeQueue youngerPos younger v.done v.todo E
    obtain ⟨E, hE⟩ : I w' := by
      refine Worklist.run_invariant hrun ⟨_, start_followed hy hyounger hw⟩ ?_
      rintro done a rest keys items - ⟨E, hE⟩ hvisit
      refine visit_followed hE (fun h hh => ?_) hvisit
      rw [← Option.some.inj (hhead.symm.trans hh), ← hsame]
      exact List.mem_of_mem_head? hE.first
    rw [search_ends hrun] at hE
    refine ⟨w'.done.reverse, by simp [hw, hrun], younger, E, hyounger, hE.found.inSlice, ?_⟩
    rwa [List.reverse_reverse]

end Chain

section Slice

/-- The nearest instruction before `pos` that writes the register, control or not. -/
def NearestWriter (rob : List (ChainInst PC)) (pos : Nat) (reg : PhysRegId) (p : Nat) : Prop :=
  p < pos ∧ (∃ inst ∈ rob[p]?, reg ∈ inst.renamedDestIdx) ∧
    ∀ q < pos, p < q → ¬ ∃ inst ∈ rob[q]?, reg ∈ inst.renamedDestIdx

instance (rob : List (ChainInst PC)) (pos : Nat) (reg : PhysRegId) (p : Nat) :
    Decidable (NearestWriter rob pos reg p) := inferInstanceAs (Decidable (_ ∧ _))

/-- The backward slice of the younger instance, instance by instance. -/
inductive Slice (rob : List (ChainInst PC)) (storeQueue : List (ChainStore PC))
    (youngerPos : Nat) : Nat → Prop where
  | younger : Slice rob storeQueue youngerPos youngerPos
  | writer {m p : Nat} {inst : ChainInst PC} {reg : PhysRegId} :
      Slice rob storeQueue youngerPos m → inst ∈ rob[m]? → reg ∈ searched inst.renamedSrcIdx →
      NearestWriter rob m reg p → Slice rob storeQueue youngerPos p
  | store {m : Nat} {inst st : ChainInst PC} :
      Slice rob storeQueue youngerPos m → inst ∈ rob[m]? → addedStore storeQueue inst = some st →
      findInst rob st < rob.length → Slice rob storeQueue youngerPos (findInst rob st)

/-- The address of a load is computed by two instances of one instruction, from what the
instruction at PC `2` yields. -/
def computedTwice : List (ChainInst PCPair) :=
  [{ seqNum := 1, pcState := ⟨0, 0⟩, isLoad := true, renamedSrcIdx := [⟨.int, 1⟩],
      renamedDestIdx := [⟨.int, 2⟩] },
    { seqNum := 2, pcState := ⟨1, 0⟩ },
    { seqNum := 3, pcState := ⟨2, 0⟩, renamedDestIdx := [⟨.int, 3⟩] },
    { seqNum := 4, pcState := ⟨3, 0⟩, renamedSrcIdx := [⟨.int, 3⟩], renamedDestIdx := [⟨.int, 4⟩] },
    { seqNum := 5, pcState := ⟨3, 0⟩, renamedSrcIdx := [⟨.int, 4⟩], renamedDestIdx := [⟨.int, 5⟩] },
    { seqNum := 6, pcState := ⟨0, 0⟩, isLoad := true, renamedSrcIdx := [⟨.int, 5⟩],
      renamedDestIdx := [⟨.int, 6⟩] }]

theorem chain_exact_computedTwice :
    ∃ buffer, generateChainBuffer id computedTwice [] = some buffer ∧ buffer.length = 2 ∧
      IsChain id computedTwice [] buffer := by
  have hinside : StaysInside id computedTwice [] := by
    refine staysInside_of_search fun youngerPos w hy hw => ?_
    have hfive : findYounger computedTwice = some 5 := by decide
    obtain rfl := Option.some.inj (hfive.symm.trans hy)
    have hstart : start id computedTwice 5 = some ⟨[⟨0, 0⟩], [⟨⟨.int, 5⟩, 4⟩]⟩ := by rfl
    obtain rfl := Option.some.inj (hstart.symm.trans hw)
    exact ⟨_, rfl⟩
  obtain ⟨buffer, hbuffer, hchain⟩ := chain_exact hinside
  have htwo : generateChainBuffer id computedTwice [] = some [⟨3, 0⟩, ⟨0, 0⟩] := by decide
  refine ⟨buffer, hbuffer, ?_, hchain⟩
  rw [← Option.some.inj (htwo.symm.trans hbuffer)]
  rfl

/-- The address of a load comes from a call, which gets its own source from the instruction before
it. -/
def calledAddress : List (ChainInst PCPair) :=
  [{ seqNum := 1, pcState := ⟨0, 0⟩, isLoad := true, renamedSrcIdx := [⟨.int, 1⟩],
      renamedDestIdx := [⟨.int, 2⟩] },
    { seqNum := 2, pcState := ⟨1, 0⟩ },
    { seqNum := 3, pcState := ⟨2, 0⟩, renamedDestIdx := [⟨.int, 3⟩] },
    { seqNum := 4, pcState := ⟨3, 0⟩, isControl := true, renamedSrcIdx := [⟨.int, 3⟩],
      renamedDestIdx := [⟨.int, 4⟩] },
    { seqNum := 5, pcState := ⟨0, 0⟩, isLoad := true, renamedSrcIdx := [⟨.int, 4⟩],
      renamedDestIdx := [⟨.int, 5⟩] }]

/-- The younger instance loads what the store at PC `2` has stored. -/
def storedBefore : List (ChainInst PCPair) × List (ChainStore PCPair) :=
  let store : ChainInst PCPair :=
    { seqNum := 3, pcState := ⟨2, 0⟩, renamedSrcIdx := [⟨.int, 1⟩] }
  ([{ seqNum := 1, pcState := ⟨0, 0⟩, isLoad := true, renamedSrcIdx := [⟨.int, 1⟩],
        renamedDestIdx := [⟨.int, 2⟩] },
      { seqNum := 2, pcState := ⟨1, 0⟩ },
      store,
      { seqNum := 4, pcState := ⟨0, 0⟩, isLoad := true, renamedSrcIdx := [⟨.int, 1⟩],
        renamedDestIdx := [⟨.int, 3⟩],
        savedRequest := some { vaddr := 64, size := 16, nonempty := by decide } }],
    [{ inst := store, size := 16, access := { effAddr := 64, data := fun _ => 0 } }])

/-- The instruction at `p` is in the slice, between the head and the younger instance and no control
instruction, and the chain does not have it. -/
def LeftOut (rob : List (ChainInst PCPair)) (storeQueue : List (ChainStore PCPair)) (p : Nat) :
    Prop :=
  ∃ youngerPos buffer inst, findYounger rob = some youngerPos ∧
    generateChainBuffer id rob storeQueue = some buffer ∧ 0 < p ∧ p < youngerPos ∧
    Slice rob storeQueue youngerPos p ∧ rob[p]? = some inst ∧ inst.isControl = false ∧
    inst.pcState ∉ buffer

/-- An instruction of the slice that the chain leaves out: the source of a second instance of a PC,
since the first one found counts for both; the source of a call, since control instructions are not
followed; and the store that the younger instance overlaps, since only its registers are looked
for. -/
theorem slice_left_out : LeftOut computedTwice [] 2 ∧ LeftOut calledAddress [] 2 ∧
    LeftOut storedBefore.1 storedBefore.2 2 := by
  refine ⟨⟨5, [⟨3, 0⟩, ⟨0, 0⟩], _, by decide, by decide, by decide, by decide, ?_, rfl, rfl,
    by decide⟩, ⟨4, [⟨0, 0⟩], _, by decide, by decide, by decide, by decide, ?_, rfl, rfl,
    by decide⟩, ⟨3, [⟨0, 0⟩], _, by decide, by decide, by decide, by decide, ?_, rfl, rfl,
    by decide⟩⟩
  · have hfour : Slice computedTwice [] 5 4 :=
      @Slice.writer _ _ _ _ _ _ _ ⟨.int, 5⟩ .younger rfl (by decide) (by decide)
    have hthree : Slice computedTwice [] 5 3 :=
      @Slice.writer _ _ _ _ _ _ _ ⟨.int, 4⟩ hfour rfl (by decide) (by decide)
    exact @Slice.writer _ _ _ _ _ _ _ ⟨.int, 3⟩ hthree rfl (by decide) (by decide)
  · have hcall : Slice calledAddress [] 4 3 :=
      @Slice.writer _ _ _ _ _ _ _ ⟨.int, 4⟩ .younger rfl (by decide) (by decide)
    exact @Slice.writer _ _ _ _ _ _ _ ⟨.int, 3⟩ hcall rfl (by decide) (by decide)
  · have hstore : addedStore storedBefore.2 storedBefore.1[3] = some storedBefore.1[2] := rfl
    exact .store .younger rfl hstore (by decide)

end Slice

end DependenceChain
end Runahead
end Gem5
