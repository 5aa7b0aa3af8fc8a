import Gem5Runahead.Lib.Worklist
import Gem5Runahead.OverlappingStore
import Gem5Runahead.RegState

/-!
# DependenceChain

The dependence chain of a runahead period. When runahead is entered, the ROB is searched for a
younger instance of the load at its head, and back from there for what produces its sources, the
sources of those producers, and so on. A producer that is a load adds the store it overlaps. An
instruction is in the chain by its PC, so each PC is followed back once.

A ROB is a list with the head in front, and an iterator is an index into it: `0` is the first
element, the length is the end. `none` stands for an iterator that is moved from or read where there
is no element to move from or to read. The PC state is compared as a whole to find the younger
instance, and by its `PCPair` in the chain.

* `findProducer` — a scan from a position back to the one behind the head.
* `visit` — what the search does for one register; `generateChainBuffer` — the whole search.
* `rounds` — how many registers are searched for at most.
-/

namespace Gem5
namespace Runahead

structure PCPair where
  pc : Nat
  upc : Nat
deriving DecidableEq

/-- What the search reads of an instruction. -/
structure ChainInst (PC : Type) where
  seqNum : Nat
  pcState : PC
  isControl : Bool := false
  isLoad : Bool := false
  isAtomic : Bool := false
  renamedSrcIdx : List PhysRegId := []
  renamedDestIdx : List PhysRegId := []
  /-- Of a load that has one. -/
  savedRequest : Option LoadRequest := none

/-- An entry of the store queue. -/
structure ChainStore (PC : Type) where
  inst : ChainInst PC
  size : StoreSize
  access : StoreAccess

/-- A register to look for, and the ROB position to start looking for producers at. -/
structure SRSLEntry where
  srcReg : PhysRegId
  startIt : Nat
deriving DecidableEq

namespace DependenceChain

section Code

variable {PC : Type} [DecidableEq PC] (pair : PC → PCPair) (rob : List (ChainInst PC))
  (storeQueue : List (ChainStore PC))

/-- `cpu->getOverlappingStore`, if `cpu->hasOverlappingStore`. -/
def getOverlappingStore (inst : ChainInst PC) : Option (ChainInst PC) :=
  (firstOverlapping (fun request (e : ChainStore PC) =>
    getAddrRangeCoverage request e.access e.size e.inst.isAtomic ≠ .noAddrRangeCoverage)
    storeQueue inst.savedRequest).map fun e => e.inst

def produces (inst : ChainInst PC) (reg : PhysRegId) : Bool :=
  !inst.isControl && decide (reg ∈ inst.renamedDestIdx)

/-- The scan for a producer, from a position back to `instPos`. -/
def findProducer (instPos : Nat) (reg : PhysRegId) : Nat → Option (Option Nat)
  | 0 =>
    if instPos = 0 then some none
    else do
      let inst ← rob[0]?
      if produces inst reg then some (some 0) else none
  | it + 1 =>
    if it + 1 = instPos then some none
    else do
      let inst ← rob[it + 1]?
      if produces inst reg then some (some (it + 1)) else findProducer instPos reg it

/-- The sources that are looked for. -/
def searched (srcIdx : List PhysRegId) : List PhysRegId := srcIdx.filter fun reg => !reg.isFixedMapping

/-- The sources of the instruction at `pos` join the search list; each looks from the position
before `pos` on. -/
def addSources (srcIdx : List PhysRegId) (pos : Nat) : Option (List SRSLEntry) :=
  if (searched srcIdx).isEmpty || decide (0 < pos ∧ pos < rob.length) then
    some ((searched srcIdx).map fun reg => ⟨reg, pos - 1⟩)
  else none

/-- `std::find` in the ROB, which is the end if there is none. -/
def findInst (inst : ChainInst PC) : Nat := rob.findIdx fun i => i.seqNum == inst.seqNum

/-- The search for one register, with the pairs in the buffer: the pairs and the registers that it
adds. The head is at `0`, so the scans stop at `1`. -/
def visit (buffer : List PCPair) (entry : SRSLEntry) : Option (List PCPair × List SRSLEntry) := do
  match ← findProducer rob 1 entry.srcReg entry.startIt with
  | none => return ([], [])
  | some pos =>
    let inst ← rob[pos]?
    if pair inst.pcState ∈ buffer then return ([], [])
    else
      let srcs ← addSources rob inst.renamedSrcIdx pos
      match if inst.isLoad then getOverlappingStore storeQueue inst else none with
      | none => return ([pair inst.pcState], srcs)
      | some prodStore =>
        let storeSrcs ← addSources rob prodStore.renamedSrcIdx (findInst rob prodStore)
        return (if pair prodStore.pcState ∈ buffer ++ [pair inst.pcState] then [pair inst.pcState]
          else [pair inst.pcState, pair prodStore.pcState], srcs ++ storeSrcs)

/-- The first instance of the head behind it. -/
def findYounger : Option Nat :=
  match rob with
  | [] => none
  | head :: rest => (rest.findIdx? fun inst => inst.pcState = head.pcState).map (· + 1)

/-- The search begins with the younger instance. -/
def start (youngerPos : Nat) : Option (Worklist PCPair SRSLEntry) := do
  let inst ← rob[youngerPos]?
  let srcs ← addSources rob inst.renamedSrcIdx youngerPos
  return ⟨[pair inst.pcState], srcs⟩

/-- How many registers an instruction adds to the search, its store included. -/
def sources (inst : ChainInst PC) : Nat :=
  (searched inst.renamedSrcIdx).length +
    ((getOverlappingStore storeQueue inst).map fun st =>
      (searched st.renamedSrcIdx).length).getD 0

/-- The registers that may still be added: those of the instructions whose PC is not in the
buffer. -/
def sourcesLeft (buffer : List PCPair) : Nat :=
  ((rob.filter fun inst => pair inst.pcState ∉ buffer).map (sources storeQueue)).sum

def rounds (w : Worklist PCPair SRSLEntry) : Nat :=
  w.todo.length + sourcesLeft pair rob storeQueue w.done

/-- `ROB::generateChainBuffer` for the head of the ROB. -/
def generateChainBuffer : Option (List PCPair) :=
  match findYounger rob with
  | none => some []
  | some youngerPos => do
    let w ← start pair rob youngerPos
    let w ← w.run (visit pair rob storeQueue) (rounds pair rob storeQueue w)
    return w.done.reverse

end Code

section Scan

variable {PC : Type} {rob : List (ChainInst PC)} {reg : PhysRegId} {it pos : Nat}
  {r : Option Nat}

/-- The instruction at `pos` is no control instruction and writes `reg`. -/
def Produces (rob : List (ChainInst PC)) (pos : Nat) (reg : PhysRegId) : Prop :=
  ∃ inst ∈ rob[pos]?, produces inst reg = true

instance (rob : List (ChainInst PC)) (pos : Nat) (reg : PhysRegId) :
    Decidable (Produces rob pos reg) := inferInstanceAs (Decidable (∃ inst ∈ rob[pos]?, _))

theorem findProducer_zero (h : findProducer rob 1 reg 0 = some r) :
    r = some 0 ∧ Produces rob 0 reg := by
  rw [findProducer, if_neg (by decide)] at h
  obtain ⟨inst, hinst, h⟩ := Option.bind_eq_some_iff.mp h
  split at h
  · rename_i hprod
    exact ⟨(Option.some.inj h).symm, inst, hinst, hprod⟩
  · cases h

/-- A scan from the head itself comes to an end only if the head is a producer. -/
theorem findProducer_zero_isSome :
    (findProducer rob 1 reg 0).isSome ↔ Produces rob 0 reg := by
  constructor
  · intro h
    obtain ⟨r, hr⟩ := Option.isSome_iff_exists.mp h
    exact (findProducer_zero hr).2
  · rintro ⟨inst, hinst, hprod⟩
    have hinst : rob[0]? = some inst := hinst
    simp [findProducer, hinst, hprod]

/-- A scan from behind the head stays in the ROB. -/
theorem findProducer_isSome (hpos : 0 < it) (hlt : it < rob.length) :
    (findProducer rob 1 reg it).isSome := by
  induction it with
  | zero => exact absurd hpos (Nat.lt_irrefl 0)
  | succ it ih =>
    rw [findProducer]
    split
    · rfl
    · rename_i hne
      rw [List.getElem?_eq_getElem hlt, Option.bind_eq_bind, Option.bind_some]
      split
      · rfl
      · exact ih (by omega) (by omega)

/-- A scan from behind the head finds the nearest producer, or there is none down to the position
where it stops. -/
theorem findProducer_spec (hpos : 0 < it) (h : findProducer rob 1 reg it = some r) :
    match r with
    | none => ∀ q, 2 ≤ q → q ≤ it → ¬ Produces rob q reg
    | some pos => 2 ≤ pos ∧ pos ≤ it ∧ Produces rob pos reg ∧
        ∀ q, pos < q → q ≤ it → ¬ Produces rob q reg := by
  induction it with
  | zero => exact absurd hpos (Nat.lt_irrefl 0)
  | succ it ih =>
    rw [findProducer] at h
    split at h
    · cases h
      intro q hq hle
      omega
    · rename_i hne
      obtain ⟨inst, hinst, h⟩ := Option.bind_eq_some_iff.mp h
      split at h
      · rename_i hprod
        cases h
        exact ⟨by omega, Nat.le_refl _, ⟨inst, hinst, hprod⟩, fun q hq hle => by omega⟩
      · rename_i hnot
        have hthis : ¬ Produces rob (it + 1) reg := by
          rintro ⟨inst', hinst', hprod⟩
          obtain rfl : inst = inst' := Option.some.inj (hinst.symm.trans hinst')
          exact hnot hprod
        have hrest := ih (by omega) h
        have hskip : ∀ q, q ≤ it + 1 → Produces rob q reg → q ≤ it := by
          intro q hq hprod
          rcases Nat.lt_or_ge it q with hlt | hle
          · obtain rfl : q = it + 1 := by omega
            exact absurd hprod hthis
          · exact hle
        cases r with
        | none => exact fun q hq hle hprod => hrest q hq (hskip q hle hprod) hprod
        | some pos =>
          refine ⟨hrest.1, by omega, hrest.2.2.1, fun q hq hle hprod => ?_⟩
          exact hrest.2.2.2 q hq (hskip q hle hprod) hprod

end Scan

section Sources

variable {PC : Type} {rob : List (ChainInst PC)} {entry : SRSLEntry} {items : List SRSLEntry}
  {inst : ChainInst PC} {pos : Nat}

/-- A search for `reg` may start before `pos`: that is not the head, and if it is directly behind
the head, the head produces the register. -/
def MaySearchBefore (rob : List (ChainInst PC)) (pos : Nat) (reg : PhysRegId) : Prop :=
  0 < pos ∧ pos < rob.length ∧ (pos = 1 → Produces rob 0 reg)

instance (rob : List (ChainInst PC)) (pos : Nat) (reg : PhysRegId) :
    Decidable (MaySearchBefore rob pos reg) := inferInstanceAs (Decidable (_ ∧ _))

theorem mem_addSources (h : addSources rob inst.renamedSrcIdx pos = some items)
    (hentry : entry ∈ items) : entry.startIt + 1 = pos ∧ pos < rob.length ∧
      entry.srcReg ∈ searched inst.renamedSrcIdx := by
  unfold addSources at h
  split at h
  · rename_i hinside
    cases h
    obtain ⟨reg, hreg, rfl⟩ := List.mem_map.mp hentry
    rw [Bool.or_eq_true, List.isEmpty_iff, decide_eq_true_eq] at hinside
    rcases hinside with hnil | hinside
    · rw [hnil] at hreg
      cases hreg
    · exact ⟨by dsimp only; omega, hinside.2, hreg⟩
  · cases h

theorem addSources_mem {reg : PhysRegId} (h : addSources rob inst.renamedSrcIdx pos = some items)
    (hreg : reg ∈ searched inst.renamedSrcIdx) :
    (⟨reg, pos - 1⟩ : SRSLEntry) ∈ items ∧ 0 < pos ∧ pos < rob.length := by
  unfold addSources at h
  split at h
  · rename_i hinside
    cases h
    rw [Bool.or_eq_true, List.isEmpty_iff, decide_eq_true_eq] at hinside
    rcases hinside with hnil | hinside
    · rw [hnil] at hreg
      cases hreg
    · exact ⟨List.mem_map.mpr ⟨reg, hreg, rfl⟩, hinside⟩
  · cases h

theorem addSources_length (h : addSources rob inst.renamedSrcIdx pos = some items) :
    items.length = (searched inst.renamedSrcIdx).length := by
  unfold addSources at h
  split at h
  · cases h
    rw [List.length_map]
  · cases h

theorem addSources_isSome (h : ∀ reg ∈ searched inst.renamedSrcIdx, 0 < pos ∧ pos < rob.length) :
    ∃ items, addSources rob inst.renamedSrcIdx pos = some items := by
  unfold addSources
  cases hsrcs : searched inst.renamedSrcIdx with
  | nil => exact ⟨_, rfl⟩
  | cons reg rest =>
    have hinside := h reg (by simp [hsrcs])
    rw [if_pos (by simp [hinside])]
    exact ⟨_, rfl⟩

end Sources

section Visit

variable {PC : Type} {pair : PC → PCPair} {rob : List (ChainInst PC)}
  {storeQueue : List (ChainStore PC)} {entry : SRSLEntry} {buffer keys : List PCPair}
  {items : List SRSLEntry} {w w' : Worklist PCPair SRSLEntry}

/-- The store that a producer adds: loads add the one they overlap. -/
def addedStore (storeQueue : List (ChainStore PC)) (inst : ChainInst PC) :
    Option (ChainInst PC) :=
  if inst.isLoad then getOverlappingStore storeQueue inst else none

/-- What the search for a register finds: nothing new, or an instruction whose PC is not in the
buffer. -/
inductive Visited (pair : PC → PCPair) (rob : List (ChainInst PC))
    (storeQueue : List (ChainStore PC)) (buffer : List PCPair) (entry : SRSLEntry) :
    List PCPair → List SRSLEntry → Prop where
  | nothing : findProducer rob 1 entry.srcReg entry.startIt = some none →
      Visited pair rob storeQueue buffer entry [] []
  | known {pos : Nat} {inst : ChainInst PC} :
      findProducer rob 1 entry.srcReg entry.startIt = some (some pos) → rob[pos]? = some inst →
      pair inst.pcState ∈ buffer → Visited pair rob storeQueue buffer entry [] []
  | inst {pos : Nat} {inst : ChainInst PC} {srcs : List SRSLEntry} :
      findProducer rob 1 entry.srcReg entry.startIt = some (some pos) → rob[pos]? = some inst →
      pair inst.pcState ∉ buffer → addedStore storeQueue inst = none →
      addSources rob inst.renamedSrcIdx pos = some srcs →
      Visited pair rob storeQueue buffer entry [pair inst.pcState] srcs
  | withStore {pos : Nat} {inst prodStore : ChainInst PC} {srcs storeSrcs : List SRSLEntry}
      {keys : List PCPair} :
      findProducer rob 1 entry.srcReg entry.startIt = some (some pos) → rob[pos]? = some inst →
      pair inst.pcState ∉ buffer → addedStore storeQueue inst = some prodStore →
      addSources rob inst.renamedSrcIdx pos = some srcs →
      addSources rob prodStore.renamedSrcIdx (findInst rob prodStore) = some storeSrcs →
      (keys = [pair inst.pcState] ∧ pair prodStore.pcState ∈ buffer ++ [pair inst.pcState] ∨
        keys = [pair inst.pcState, pair prodStore.pcState] ∧
          pair prodStore.pcState ∉ buffer ++ [pair inst.pcState]) →
      Visited pair rob storeQueue buffer entry keys (srcs ++ storeSrcs)

theorem visit_cases (h : visit pair rob storeQueue buffer entry = some (keys, items)) :
    Visited pair rob storeQueue buffer entry keys items := by
  obtain ⟨r, hfind, h⟩ := Option.bind_eq_some_iff.mp h
  cases r with
  | none =>
    cases h
    exact .nothing hfind
  | some pos =>
    obtain ⟨inst, hinst, h⟩ := Option.bind_eq_some_iff.mp h
    split at h
    · rename_i hknown
      cases h
      exact .known hfind hinst hknown
    · rename_i hnew
      obtain ⟨srcs, hsrcs, h⟩ := Option.bind_eq_some_iff.mp h
      split at h
      · rename_i hstore
        cases h
        exact .inst hfind hinst hnew hstore hsrcs
      · rename_i prodStore hstore
        obtain ⟨storeSrcs, hstoreSrcs, h⟩ := Option.bind_eq_some_iff.mp h
        cases h
        refine .withStore hfind hinst hnew hstore hsrcs hstoreSrcs ?_
        split
        · rename_i hin
          exact .inl ⟨rfl, hin⟩
        · rename_i hout
          exact .inr ⟨rfl, hout⟩

/-- A scan from within the ROB comes to an end, and finds the head only from the head. -/
theorem findProducer_inside {reg : PhysRegId} {it : Nat} (hlt : it < rob.length)
    (hzero : it = 0 → Produces rob 0 reg) :
    ∃ r, findProducer rob 1 reg it = some r ∧ ∀ pos, r = some pos → pos = 0 ∨ 2 ≤ pos := by
  rcases Nat.eq_zero_or_pos it with rfl | hpos
  · obtain ⟨r, hr⟩ := Option.isSome_iff_exists.mp (findProducer_zero_isSome.mpr (hzero rfl))
    exact ⟨r, hr, fun pos hpos => .inl (Option.some.inj (hpos.symm.trans (findProducer_zero hr).1))⟩
  · obtain ⟨r, hr⟩ := Option.isSome_iff_exists.mp (@findProducer_isSome _ _ reg _ hpos hlt)
    refine ⟨r, hr, ?_⟩
    rintro pos rfl
    exact .inr (findProducer_spec hpos hr).1

/-- A visit fails only if its scan leaves the ROB or the sources of a store have no place to start
from. -/
theorem visit_isSome (hlt : entry.startIt < rob.length)
    (hzero : entry.startIt = 0 → Produces rob 0 entry.srcReg)
    (hhead : ∀ inst, rob[0]? = some inst → pair inst.pcState ∈ buffer)
    (hstore : ∀ pos inst, findProducer rob 1 entry.srcReg entry.startIt = some (some pos) →
      rob[pos]? = some inst → pair inst.pcState ∉ buffer → ∀ st, addedStore storeQueue inst = some st →
      ∀ reg ∈ searched st.renamedSrcIdx, MaySearchBefore rob (findInst rob st) reg) :
    (visit pair rob storeQueue buffer entry).isSome := by
  obtain ⟨r, hfind, hbehind⟩ := findProducer_inside hlt hzero
  unfold visit
  rw [hfind, Option.bind_eq_bind, Option.bind_some]
  cases r with
  | none => rfl
  | some pos =>
    have hpos : pos < rob.length := by
      rcases Nat.eq_zero_or_pos entry.startIt with hz | hp
      · rw [hz] at hfind
        have := (findProducer_zero hfind).1
        cases this
        omega
      · exact Nat.lt_of_le_of_lt (findProducer_spec hp hfind).2.1 hlt
    have hget : rob[pos]? = some rob[pos] := List.getElem?_eq_getElem hpos
    simp only [hget, Option.bind_eq_bind, Option.bind_some]
    split
    · rfl
    · rename_i hnew
      have htwo : 2 ≤ pos := by
        rcases hbehind pos rfl with rfl | htwo
        · exact absurd (hhead _ hget) hnew
        · exact htwo
      obtain ⟨srcs, hsrcs⟩ := @addSources_isSome _ rob rob[pos] pos
        fun _ _ => ⟨by omega, hpos⟩
      simp only [hsrcs, Option.bind_some]
      split
      · rfl
      · rename_i st hst
        obtain ⟨storeSrcs, hstoreSrcs⟩ := @addSources_isSome _ rob st
          (findInst rob st) fun reg hreg =>
            have hmay := hstore pos _ hfind hget hnew st hst reg hreg
            ⟨hmay.1, hmay.2.1⟩
        simp [hstoreSrcs]

/-- What is left of a sum when an element is taken out of a filtered list. -/
theorem sum_filter_add_le {α : Type} {l : List α} {f : α → Nat} {p q : α → Bool} {a : α}
    (hqp : ∀ b, q b = true → p b = true) (ha : a ∈ l) (hpa : p a = true) (hqa : q a = false) :
    f a + ((l.filter q).map f).sum ≤ ((l.filter p).map f).sum := by
  have hmono : ∀ l : List α, ((l.filter q).map f).sum ≤ ((l.filter p).map f).sum := by
    intro l
    induction l with
    | nil => exact Nat.le_refl _
    | cons b l ih =>
      cases hq : q b <;> cases hp : p b <;> simp [hq, hp] <;> first | omega | skip
      exact absurd (hqp b hq) (by simp [hp])
  induction l with
  | nil => cases ha
  | cons b l ih =>
    rcases List.mem_cons.mp ha with rfl | ha
    · have := hmono l
      simp only [List.filter_cons, hpa, hqa, if_true, Bool.false_eq_true, if_false, List.map_cons,
        List.sum_cons]
      omega
    · have hrest := ih ha
      cases hq : q b <;> cases hp : p b <;> simp [hq, hp] <;> first | omega | skip
      exact absurd (hqp b hq) (by simp [hp])

/-- The registers that a visit adds are no longer left. -/
theorem visit_sourcesLeft (h : visit pair rob storeQueue buffer entry = some (keys, items)) :
    items.length + sourcesLeft pair rob storeQueue (buffer ++ keys) ≤
      sourcesLeft pair rob storeQueue buffer := by
  have hnew : ∀ (inst : ChainInst PC) (pos : Nat) (keys : List PCPair), rob[pos]? = some inst →
      pair inst.pcState ∉ buffer → pair inst.pcState ∈ keys →
      sources storeQueue inst + sourcesLeft pair rob storeQueue (buffer ++ keys) ≤
        sourcesLeft pair rob storeQueue buffer := by
    intro inst pos keys hinst hbuffer hkeys
    refine sum_filter_add_le (fun b hb => ?_) (List.mem_of_getElem? hinst) (by simp [hbuffer])
      (by simp [hkeys])
    simp only [decide_eq_true_eq, List.mem_append, not_or] at hb ⊢
    exact hb.1
  cases visit_cases h with
  | nothing _ => simp
  | known _ _ _ => simp
  | @inst pos inst srcs _ hinst hbuffer hnone hsrcs =>
    have := hnew inst pos _ hinst hbuffer (List.mem_singleton_self _)
    have := addSources_length hsrcs
    unfold sources at *
    omega
  | @withStore pos inst st srcs storeSrcs keys _ hinst hbuffer hst hsrcs hstoreSrcs hkeys =>
    have hmem : pair inst.pcState ∈ keys := by
      rcases hkeys with ⟨rfl, -⟩ | ⟨rfl, -⟩ <;> simp
    have hload : getOverlappingStore storeQueue inst = some st := by
      unfold addedStore at hst
      split at hst
      · exact hst
      · cases hst
    have hcost : sources storeQueue inst =
        (searched inst.renamedSrcIdx).length + (searched st.renamedSrcIdx).length := by
      simp [sources, hload]
    have := hnew inst pos _ hinst hbuffer hmem
    have := addSources_length hsrcs
    have := addSources_length hstoreSrcs
    rw [List.length_append]
    omega

/-- The search list gets empty. -/
theorem search_ends (h : w.run (visit pair rob storeQueue) (rounds pair rob storeQueue w) = some w') :
    w'.todo = [] :=
  Worklist.run_todo_eq_nil (fun _ _ _ _ => visit_sourcesLeft) h (Nat.le_refl _)

end Visit

section Inside

variable {PC : Type} [DecidableEq PC] {pair : PC → PCPair} {rob : List (ChainInst PC)}
  {storeQueue : List (ChainStore PC)} {youngerPos : Nat} {w : Worklist PCPair SRSLEntry}

theorem findYounger_spec (h : findYounger rob = some youngerPos) :
    ∃ head younger, rob[0]? = some head ∧ rob[youngerPos]? = some younger ∧ 0 < youngerPos ∧
      younger.pcState = head.pcState ∧
      ∀ q inst, 0 < q → q < youngerPos → rob[q]? = some inst → inst.pcState ≠ head.pcState := by
  unfold findYounger at h
  split at h
  · cases h
  · rename_i head rest
    obtain ⟨k, hk, rfl⟩ := Option.map_eq_some_iff.mp h
    obtain ⟨hlt, heq, hfirst⟩ := List.findIdx?_eq_some_iff_getElem.mp hk
    refine ⟨head, rest[k], rfl, by simp [hlt], Nat.succ_pos k, of_decide_eq_true heq, ?_⟩
    intro q inst hq hqk hinst
    obtain ⟨j, rfl⟩ := Nat.exists_eq_add_of_lt hq
    simp only [Nat.zero_add, List.getElem?_cons_succ] at hinst hqk
    obtain ⟨hj, rfl⟩ := List.getElem?_eq_some_iff.mp hinst
    have := hfirst j (by omega)
    simpa using this

/-- The search adds the instruction to the chain. -/
def Adds (pair : PC → PCPair) (rob : List (ChainInst PC)) (storeQueue : List (ChainStore PC))
    (w : Worklist PCPair SRSLEntry) (inst : ChainInst PC) : Prop :=
  ∃ buffer entry pos, w.Visits (visit pair rob storeQueue) buffer entry ∧
    findProducer rob 1 entry.srcReg entry.startIt = some (some pos) ∧ rob[pos]? = some inst ∧
    pair inst.pcState ∉ buffer

/-- The condition: the registers of the younger instance, and of each store that a load in the
chain adds, may be searched for before it. -/
def StaysInside (pair : PC → PCPair) (rob : List (ChainInst PC))
    (storeQueue : List (ChainStore PC)) : Prop :=
  ∀ youngerPos younger w, findYounger rob = some youngerPos → rob[youngerPos]? = some younger →
    start pair rob youngerPos = some w →
    (∀ reg ∈ searched younger.renamedSrcIdx, MaySearchBefore rob youngerPos reg) ∧
    ∀ inst, Adds pair rob storeQueue w inst → ∀ st, addedStore storeQueue inst = some st →
      ∀ reg ∈ searched st.renamedSrcIdx, MaySearchBefore rob (findInst rob st) reg

theorem start_isSome (hy : findYounger rob = some youngerPos) :
    ∃ younger w, rob[youngerPos]? = some younger ∧ start pair rob youngerPos = some w ∧
      w.done = [pair younger.pcState] ∧
      addSources rob younger.renamedSrcIdx youngerPos = some w.todo := by
  obtain ⟨head, younger, -, hyounger, hpos, -⟩ := findYounger_spec hy
  have hlt := (List.getElem?_eq_some_iff.mp hyounger).1
  obtain ⟨items, hitems⟩ := @addSources_isSome _ rob younger youngerPos
    fun _ _ => ⟨hpos, hlt⟩
  exact ⟨younger, ⟨_, items⟩, hyounger, by simp [start, hyounger, hitems], rfl, hitems⟩

/-- A search that stays inside has only registers to look for that it may search for. -/
theorem visits_isSome (hinside : StaysInside pair rob storeQueue)
    (hy : findYounger rob = some youngerPos) (hw : start pair rob youngerPos = some w)
    {buffer : List PCPair} {entry : SRSLEntry}
    (hvisits : w.Visits (visit pair rob storeQueue) buffer entry) :
    (visit pair rob storeQueue buffer entry).isSome := by
  obtain ⟨head, younger, hhead, hyounger, -, hsame, -⟩ := findYounger_spec hy
  obtain ⟨younger', w₀, hyounger', hw₀, hdone, htodo⟩ := @start_isSome _ _ pair _ _ hy
  obtain rfl := Option.some.inj (hw₀.symm.trans hw)
  obtain rfl := Option.some.inj (hyounger'.symm.trans hyounger)
  obtain ⟨hown, hstores⟩ := hinside _ _ _ hy hyounger hw
  let I (v : Worklist PCPair SRSLEntry) : Prop := pair head.pcState ∈ v.done ∧
    ∀ e ∈ v.todo, e.startIt < rob.length ∧ (e.startIt = 0 → Produces rob 0 e.srcReg)
  -- the entry of a register that may be searched for before `pos`
  have hentry : ∀ {e : SRSLEntry} {pos : Nat}, e.startIt + 1 = pos →
      MaySearchBefore rob pos e.srcReg →
      e.startIt < rob.length ∧ (e.startIt = 0 → Produces rob 0 e.srcReg) := by
    rintro e pos rfl ⟨-, hlt, hone⟩
    exact ⟨by omega, fun hz => hone (by omega)⟩
  have hI : ∀ {n v}, w₀.run (visit pair rob storeQueue) n = some v → I v := by
    intro n v hrun
    refine Worklist.run_invariant hrun ⟨by simp [hdone, hsame], fun e he => ?_⟩ ?_
    · obtain ⟨hstart, -, hreg⟩ := mem_addSources htodo he
      exact hentry hstart (hown _ hreg)
    · rintro done a rest keys items hv ⟨hin, hok⟩ hvisit
      refine ⟨List.mem_append_left _ hin, fun e he => ?_⟩
      rcases List.mem_append.mp he with hold | hadded
      · exact hok e (List.mem_cons_of_mem _ hold)
      · have hplace := hok a List.mem_cons_self
        have hsrc : ∀ {pos inst srcs}, findProducer rob 1 a.srcReg a.startIt = some (some pos) →
            rob[pos]? = some inst → pair inst.pcState ∉ done →
            addSources rob inst.renamedSrcIdx pos = some srcs → e ∈ srcs →
            e.startIt < rob.length ∧ (e.startIt = 0 → Produces rob 0 e.srcReg) := by
          intro pos inst srcs hfind hinst hnew hsrcs he
          obtain ⟨r, hr, hbehind⟩ := findProducer_inside hplace.1 hplace.2
          obtain rfl := Option.some.inj (hr.symm.trans hfind)
          obtain ⟨hstart, hlt, -⟩ := mem_addSources hsrcs he
          rcases hbehind pos rfl with rfl | htwo
          · rw [Option.some.inj (hinst.symm.trans hhead)] at hnew
            exact absurd hin hnew
          · exact ⟨by omega, fun hz => by omega⟩
        cases visit_cases hvisit with
        | nothing _ => cases hadded
        | known _ _ _ => cases hadded
        | inst hfind hinst hnew _ hsrcs => exact hsrc hfind hinst hnew hsrcs hadded
        | @withStore pos inst st _ _ _ hfind hinst hnew hst hsrcs hstoreSrcs _ =>
          rcases List.mem_append.mp hadded with hown | hstore
          · exact hsrc hfind hinst hnew hsrcs hown
          · obtain ⟨hstart, -, hreg⟩ := mem_addSources hstoreSrcs hstore
            exact hentry hstart (hstores inst ⟨_, _, _, hv, hfind, hinst, hnew⟩ st hst _ hreg)
  obtain ⟨n, rest, hrun⟩ := hvisits
  obtain ⟨hin, hok⟩ := hI hrun
  have hplace := hok entry List.mem_cons_self
  refine visit_isSome hplace.1 hplace.2 (fun inst hinst => ?_) fun pos inst hfind hinst hnew => ?_
  · rw [Option.some.inj (hinst.symm.trans hhead)]
    exact hin
  · exact hstores inst ⟨_, _, _, ⟨n, rest, hrun⟩, hfind, hinst, hnew⟩

/-- A search that stays inside comes to its end. -/
theorem search_isSome (hinside : StaysInside pair rob storeQueue)
    (hy : findYounger rob = some youngerPos) (hw : start pair rob youngerPos = some w) :
    ∃ w', w.run (visit pair rob storeQueue) (rounds pair rob storeQueue w) = some w' :=
  Worklist.exists_run (fun _ _ => visits_isSome hinside hy hw) _

/-- A search that comes to its end has stayed inside. -/
theorem staysInside_of_search (hsearch : ∀ youngerPos w, findYounger rob = some youngerPos →
    start pair rob youngerPos = some w →
    ∃ w', w.run (visit pair rob storeQueue) (rounds pair rob storeQueue w) = some w') :
    StaysInside pair rob storeQueue := by
  intro youngerPos younger w hy hyounger hw
  obtain ⟨head, younger', -, hyounger', hpos, -⟩ := findYounger_spec hy
  obtain ⟨w', hrun⟩ := hsearch _ _ hy hw
  have hend := search_ends hrun
  -- a register that was searched for before `pos` was found at the head, if `pos` is behind it
  have hscanned : ∀ {done : List PCPair} {e : SRSLEntry} {pos : Nat}, e.startIt = pos - 1 →
      0 < pos → pos < rob.length → (visit pair rob storeQueue done e).isSome →
      MaySearchBefore rob pos e.srcReg := by
    intro done e pos hstart hpos hlt hsome
    refine ⟨hpos, hlt, fun hone => ?_⟩
    obtain ⟨out, hvisit⟩ := Option.isSome_iff_exists.mp hsome
    obtain ⟨r, hr, -⟩ := Option.bind_eq_some_iff.mp hvisit
    have hzero : e.startIt = 0 := by omega
    rw [hzero] at hr
    exact (findProducer_zero hr).2
  refine ⟨fun reg hreg => ?_, ?_⟩
  · obtain ⟨younger₀, w₀, hyounger₀, hw₀, -, htodo⟩ := @start_isSome _ _ pair _ _ hy
    obtain rfl := Option.some.inj (hw₀.symm.trans hw)
    obtain rfl := Option.some.inj (hyounger₀.symm.trans hyounger)
    obtain ⟨hmem, hplace⟩ := addSources_mem htodo hreg
    obtain ⟨done, -, hsome⟩ := Worklist.visits_of_mem hrun hend hmem
    exact hscanned rfl hplace.1 hplace.2 hsome
  · rintro inst ⟨buffer, entry, pos, hvisits, hfind, hinst, hnew⟩ st hst reg hreg
    obtain ⟨keys, items, hvisit, hlater⟩ := hvisits.later hrun hend
    cases visit_cases hvisit with
    | nothing hnone =>
      rw [hfind] at hnone
      cases hnone
    | known hfind' hinst' hknown =>
      rw [hfind] at hfind'
      cases hfind'
      rw [Option.some.inj (hinst.symm.trans hinst')] at hnew
      exact absurd hknown hnew
    | inst hfind' hinst' _ hnone _ =>
      rw [hfind] at hfind'
      cases hfind'
      rw [← Option.some.inj (hinst.symm.trans hinst'), hst] at hnone
      cases hnone
    | withStore hfind' hinst' _ hst' _ hstoreSrcs _ =>
      rw [hfind] at hfind'
      cases hfind'
      rw [← Option.some.inj (hinst.symm.trans hinst'), hst] at hst'
      cases hst'
      obtain ⟨hmem, hplace⟩ := addSources_mem hstoreSrcs hreg
      obtain ⟨done, -, hsome⟩ := hlater _ (List.mem_append_right _ hmem)
      exact hscanned rfl hplace.1 hplace.2 hsome

/-- The search ends with an empty list whenever it does not leave the ROB, and it leaves the ROB in
no case but those that the condition names. -/
theorem generateChainBuffer_isSome_iff (pair : PC → PCPair) (rob : List (ChainInst PC))
    (storeQueue : List (ChainStore PC)) :
    ((generateChainBuffer pair rob storeQueue).isSome ↔ StaysInside pair rob storeQueue) ∧
      ∀ youngerPos w w', findYounger rob = some youngerPos → start pair rob youngerPos = some w →
        w.run (visit pair rob storeQueue) (rounds pair rob storeQueue w) = some w' →
        w'.todo = [] := by
  refine ⟨⟨fun h => ?_, fun hinside => ?_⟩, fun _ _ _ _ _ => search_ends⟩
  · refine staysInside_of_search fun youngerPos w hy hw => ?_
    obtain ⟨buffer, hbuffer⟩ := Option.isSome_iff_exists.mp h
    simp only [generateChainBuffer, hy, hw, Option.bind_eq_bind, Option.bind_some] at hbuffer
    obtain ⟨w', hrun, -⟩ := Option.bind_eq_some_iff.mp hbuffer
    exact ⟨w', hrun⟩
  · cases hy : findYounger rob with
    | none => simp [generateChainBuffer, hy]
    | some youngerPos =>
      obtain ⟨-, w, -, hw, -⟩ := @start_isSome _ _ pair _ _ hy
      obtain ⟨w', hrun⟩ := search_isSome hinside hy hw
      simp [generateChainBuffer, hy, hw, hrun]

/-- A load and its next instance directly behind it, with the same source. -/
def loadTwice : List (ChainInst PCPair) :=
  [{ seqNum := 1, pcState := ⟨0, 0⟩, isLoad := true, renamedSrcIdx := [⟨.int, 1⟩],
      renamedDestIdx := [⟨.int, 2⟩] },
    { seqNum := 2, pcState := ⟨0, 0⟩, isLoad := true, renamedSrcIdx := [⟨.int, 1⟩],
      renamedDestIdx := [⟨.int, 3⟩] }]

/-- An address is stored to memory directly behind the load, and loaded again for the load's next
instance. -/
def spilledAddress : List (ChainInst PCPair) × List (ChainStore PCPair) :=
  let spill : ChainInst PCPair :=
    { seqNum := 2, pcState := ⟨1, 0⟩, renamedSrcIdx := [⟨.int, 3⟩, ⟨.int, 4⟩] }
  ([{ seqNum := 1, pcState := ⟨0, 0⟩, isLoad := true, renamedSrcIdx := [⟨.int, 1⟩],
        renamedDestIdx := [⟨.int, 2⟩] },
      spill,
      { seqNum := 3, pcState := ⟨2, 0⟩, isLoad := true, renamedSrcIdx := [⟨.int, 3⟩],
        renamedDestIdx := [⟨.int, 5⟩],
        savedRequest := some { vaddr := 64, size := 8, nonempty := by decide } },
      { seqNum := 4, pcState := ⟨3, 0⟩, isControl := true },
      { seqNum := 5, pcState := ⟨0, 0⟩, isLoad := true, renamedSrcIdx := [⟨.int, 5⟩],
        renamedDestIdx := [⟨.int, 6⟩] }],
    [{ inst := spill, size := 8, access := { effAddr := 64, data := fun _ => 0 } }])

/-- The scan starts at the head, before the position where it stops, and leaves the ROB: for the
younger instance directly behind the head, and for a store there that a load of the chain
overlaps. -/
theorem younger_behind_head_leaves_rob :
    (findYounger loadTwice = some 1 ∧ generateChainBuffer id loadTwice [] = none) ∧
      findYounger spilledAddress.1 = some 4 ∧
        generateChainBuffer id spilledAddress.1 spilledAddress.2 = none := by
  decide

end Inside

end DependenceChain

end Runahead
end Gem5
