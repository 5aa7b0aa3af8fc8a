import Gem5Runahead.LoadForwarding
import Mathlib.Data.List.Find
import Mathlib.Tactic.IntervalCases

/-!
# OverlappingStore

The store that the dependence chain takes for the producer of a load's data. It is looked up with
the coverage test of `LSQUnit::read`, but from the head of the store queue on and without the
other tests that `read` makes.

* `firstOverlapping` — the walk; `hasOverlappingStore`, `getOverlappingStore` — the code.
* `OlderOverlap` — a store in the queue that is older than the load and shares a byte with it.
* `findsYoungest_iff` — when the store found is the youngest of these.
-/

namespace Gem5
namespace Runahead
/-- The walk from the head of the queue to the first entry that is `flagged`: one that
`getAddrRangeCoverage` finds something of. -/
def firstOverlapping {Entry : Type} (flagged : LoadRequest → Entry → Bool)
    (storeQueue : List Entry) (savedRequest : Option LoadRequest) : Option Entry := do
  let request ← savedRequest
  storeQueue.find? (flagged request)

namespace LSQUnit

section Search

variable (s : LSQUnit) (mem : Nat → StoreAccess)

/-- `getAddrRangeCoverage` finds something. -/
def flagged (request : LoadRequest) (e : SQEntry) : Bool :=
  getAddrRangeCoverage request (mem e.inst) e.size (s.insts e.inst).isAtomic ≠ .noAddrRangeCoverage

/-- `hasRequest` is the flag of the instruction; its request may be released already. -/
def hasOverlappingStore (hasRequest : Bool) (savedRequest : Option LoadRequest) : Bool :=
  if s.storeQueue.items = [] then false
  else if !hasRequest then false
  else match savedRequest with
    | none => false
    | some request => s.storeQueue.items.any (s.flagged mem request)

/-- `none` is the panic, or a null request. -/
def getOverlappingStore (savedRequest : Option LoadRequest) : Option Nat :=
  (firstOverlapping (s.flagged mem) s.storeQueue.items savedRequest).map fun e => e.inst

end Search

section Youngest

variable (s : LSQUnit) (mem : Nat → StoreAccess) (load : Load)

/-- The store is in the queue, is older than the load, and shares a byte with it. -/
structure OlderOverlap (idx : Nat) (e : SQEntry) : Prop where
  get : s.storeQueue.get? idx = some e
  older : e.inst < load.seqNum
  overlaps : (storeRange mem e).Overlaps load.request.range

/-- For a load with a live request: an overlapping store is found if there is an older one, and it
is the youngest of those. -/
structure FindsYoungest : Prop where
  has : s.hasOverlappingStore mem true (some load.request) = true ↔
    ∃ idx e, OlderOverlap s mem load idx e
  get : s.hasOverlappingStore mem true (some load.request) = true →
    ∃ idx e, s.getOverlappingStore mem (some load.request) = some e.inst ∧
      OlderOverlap s mem load idx e ∧
      ∀ idx' e', OlderOverlap s mem load idx' e' → e'.inst ≤ e.inst

/-- Nothing is flagged and nothing older overlaps; or what is flagged first from the head is an
older store that overlaps, and none of those behind it in the queue overlaps. -/
def FirstIsOnly : Prop :=
  (∀ idx e, s.storeQueue.get? idx = some e →
      s.flagged mem load.request e = false ∧ ¬ OlderOverlap s mem load idx e) ∨
    ∃ idx e, OlderOverlap s mem load idx e ∧ s.flagged mem load.request e = true ∧
      (∀ idx' e', s.storeQueue.get? idx' = some e' → idx' < idx →
        s.flagged mem load.request e' = false) ∧
      ∀ idx' e', idx < idx' → ¬ OlderOverlap s mem load idx' e'

/-- The store queue is in program order. -/
def AgeOrdered : Prop :=
  ∀ idx idx' e e', s.storeQueue.get? idx = some e → s.storeQueue.get? idx' = some e' →
    idx < idx' → e.inst < e'.inst

variable {s mem load}

/-- The first flagged entry, and its place. -/
theorem getOverlappingStore_eq_some {i : Nat}
    (h : s.getOverlappingStore mem (some load.request) = some i) :
    ∃ idx e, e.inst = i ∧ s.storeQueue.get? idx = some e ∧
      s.flagged mem load.request e = true ∧
      ∀ idx' e', s.storeQueue.get? idx' = some e' → idx' < idx →
        s.flagged mem load.request e' = false := by
  obtain ⟨e, hfind, rfl⟩ := Option.map_eq_some_iff.mp h
  obtain ⟨hflag, k, hk, rfl, hbefore⟩ := List.find?_eq_some_iff_getElem.mp hfind
  refine ⟨s.storeQueue.head + k, _, rfl, ?_, hflag, fun idx' e' he' hlt => ?_⟩
  · rw [IndexedQueue.get?_add, List.getElem?_eq_getElem hk]
  · have hhead := (IndexedQueue.lt_of_get? he').1
    have hidx : idx' = s.storeQueue.head + (idx' - s.storeQueue.head) := by omega
    rw [hidx, IndexedQueue.get?_add] at he'
    obtain ⟨hlen, rfl⟩ := List.getElem?_eq_some_iff.mp he'
    simpa using hbefore (idx' - s.storeQueue.head) (by omega)

theorem hasOverlappingStore_iff : s.hasOverlappingStore mem true (some load.request) = true ↔
    ∃ idx e, s.storeQueue.get? idx = some e ∧ s.flagged mem load.request e = true := by
  have hany : s.hasOverlappingStore mem true (some load.request) = true ↔
      ∃ e ∈ s.storeQueue.items, s.flagged mem load.request e = true := by
    unfold hasOverlappingStore
    by_cases hempty : s.storeQueue.items = []
    · simp [hempty]
    · simp [hempty]
  rw [hany]
  constructor
  · rintro ⟨e, hmem, hflag⟩
    obtain ⟨idx, hget⟩ := IndexedQueue.exists_get? hmem
    exact ⟨idx, e, hget, hflag⟩
  · rintro ⟨idx, e, hget, hflag⟩
    exact ⟨e, IndexedQueue.mem_items hget, hflag⟩

theorem getOverlappingStore_isSome
    (h : s.hasOverlappingStore mem true (some load.request) = true) :
    ∃ i, s.getOverlappingStore mem (some load.request) = some i := by
  obtain ⟨idx, e, hget, hflag⟩ := hasOverlappingStore_iff.mp h
  have hsome : (s.storeQueue.items.find? (s.flagged mem load.request)).isSome :=
    List.find?_isSome.mpr ⟨e, IndexedQueue.mem_items hget, hflag⟩
  obtain ⟨e', he'⟩ := Option.isSome_iff_exists.mp hsome
  exact ⟨e'.inst, by simp [getOverlappingStore, firstOverlapping, he']⟩

/-- In program order a store is at one place only. -/
theorem AgeOrdered.inj (h : AgeOrdered s) {idx idx' : Nat} {e e' : SQEntry}
    (hget : s.storeQueue.get? idx = some e) (hget' : s.storeQueue.get? idx' = some e')
    (heq : e.inst = e'.inst) : idx = idx' ∧ e = e' := by
  have hidx : idx = idx' := by
    rcases Nat.lt_trichotomy idx idx' with hlt | heq' | hlt
    · have := h idx idx' e e' hget hget' hlt
      omega
    · exact heq'
    · have := h idx' idx e' e hget' hget hlt
      omega
  subst hidx
  exact ⟨rfl, Option.some.inj (hget.symm.trans hget')⟩

/-- **The overlapping store of a chain.** For every store queue in program order and every load
with a live request: what the two functions find is the youngest older store that overlaps the
load exactly if the walk from the head cannot find anything else first. It is then the store that
`read` decides on, if it is one that `read` takes into account. -/
theorem findsYoungest_iff (s : LSQUnit) (mem : Nat → StoreAccess) (load : Load)
    (hsorted : AgeOrdered s) :
    (FindsYoungest s mem load ↔ FirstIsOnly s mem load) ∧
      (FindsYoungest s mem load → ∀ idx e,
        s.getOverlappingStore mem (some load.request) = some e.inst →
          Considered s mem load idx e → Decides s mem load idx e) := by
  refine ⟨⟨fun h => ?_, fun h => ?_⟩, fun h idx e hget hcons => ?_⟩
  · by_cases hhas : s.hasOverlappingStore mem true (some load.request) = true
    · right
      obtain ⟨idx, e, hget, holder, hyoungest⟩ := h.get hhas
      obtain ⟨idx₀, e₀, hinst, hget₀, hflag, hbefore⟩ := getOverlappingStore_eq_some hget
      obtain ⟨rfl, rfl⟩ := hsorted.inj hget₀ holder.get hinst
      refine ⟨idx₀, e₀, holder, hflag, hbefore, fun idx' e' hlt holder' => ?_⟩
      have hle := hyoungest idx' e' holder'
      have := hsorted idx₀ idx' e₀ e' holder.get holder'.get hlt
      omega
    · left
      intro idx e hget
      have hnone := mt h.has.mpr hhas
      refine ⟨?_, fun holder => hnone ⟨idx, e, holder⟩⟩
      rw [← Bool.not_eq_true]
      exact fun hflag => hhas (hasOverlappingStore_iff.mpr ⟨idx, e, hget, hflag⟩)
  · rcases h with hnone | ⟨idx, e, holder, hflag, hbefore, hbehind⟩
    · have hhas : ¬ s.hasOverlappingStore mem true (some load.request) = true := by
        rw [hasOverlappingStore_iff]
        rintro ⟨idx, e, hget, hflag⟩
        rw [(hnone idx e hget).1] at hflag
        cases hflag
      refine ⟨iff_of_false hhas ?_, fun h => absurd h hhas⟩
      rintro ⟨idx, e, holder⟩
      exact (hnone idx e holder.get).2 holder
    · have hhas := hasOverlappingStore_iff.mpr ⟨idx, e, holder.get, hflag⟩
      refine ⟨iff_of_true hhas ⟨idx, e, holder⟩, fun _ => ⟨idx, e, ?_, holder, ?_⟩⟩
      · obtain ⟨i, hi⟩ := getOverlappingStore_isSome hhas
        obtain ⟨idx₀, e₀, rfl, hget₀, hflag₀, hbefore₀⟩ := getOverlappingStore_eq_some hi
        have hidx : idx₀ = idx := by
          rcases Nat.lt_trichotomy idx₀ idx with hlt | heq | hlt
          · rw [hbefore idx₀ e₀ hget₀ hlt] at hflag₀
            cases hflag₀
          · exact heq
          · rw [hbefore₀ idx e holder.get hlt] at hflag
            cases hflag
        subst hidx
        rw [hi, Option.some.inj (hget₀.symm.trans holder.get)]
      · intro idx' e' holder'
        rcases Nat.lt_trichotomy idx' idx with hlt | rfl | hlt
        · exact Nat.le_of_lt (hsorted idx' idx e' e holder'.get holder.get hlt)
        · rw [Option.some.inj (holder'.get.symm.trans holder.get)]
        · exact absurd holder' (hbehind idx' e' hlt)
  · have hhas : s.hasOverlappingStore mem true (some load.request) = true := by
      obtain ⟨idx', e', -, hget', hflag, -⟩ := getOverlappingStore_eq_some hget
      exact hasOverlappingStore_iff.mpr ⟨idx', e', hget', hflag⟩
    obtain ⟨idx₀, e₀, hget₀, holder, hyoungest⟩ := h.get hhas
    obtain ⟨rfl, rfl⟩ := hsorted.inj hcons.get holder.get
      (Option.some.inj (hget.symm.trans hget₀))
    exact ⟨hcons, holder.overlaps, fun idx' e' hcons' hover =>
      hyoungest idx' e' ⟨hcons'.get, hcons'.older, hover⟩⟩

/-- Stores 1 and 2 have both written eight bytes at address 0 to their entries. -/
def overlappingStores : LSQUnit :=
  let s := (init fun _ => {}).insertStore 1 { isStore := true }
  let s := s.insertStore 2 { isStore := true }
  (s.modifyEntry 0 fun e => { e with request := some {}, size := 8 }).modifyEntry 1
    fun e => { e with request := some {}, size := 8 }

def thirdLoad : Load := { upperHalf false with seqNum := 3, sqIt := 2 }

theorem twoStores_get? {idx : Nat} {e : SQEntry}
    (h : overlappingStores.storeQueue.get? idx = some e) :
    idx < 2 ∧ e = { inst := idx + 1, request := some {}, size := 8 } := by
  have hlt : idx < 2 := (IndexedQueue.lt_of_get? h).2
  refine ⟨hlt, ?_⟩
  interval_cases idx <;> exact (Option.some.inj h).symm

theorem twoStores_ageOrdered : AgeOrdered overlappingStores := by
  intro idx idx' e e' h h' hlt
  rw [(twoStores_get? h).2, (twoStores_get? h').2]
  exact Nat.succ_lt_succ hlt

theorem findsYoungest_iff_twoStores : AgeOrdered overlappingStores ∧
    (FindsYoungest overlappingStores sevens thirdLoad ↔
      FirstIsOnly overlappingStores sevens thirdLoad) :=
  ⟨twoStores_ageOrdered,
    (findsYoungest_iff overlappingStores sevens thirdLoad twoStores_ageOrdered).1⟩

/-- The older of the two is found. -/
theorem older_store_found :
    overlappingStores.getOverlappingStore sevens (some thirdLoad.request) = some 1 ∧
      ¬ FindsYoungest overlappingStores sevens thirdLoad := by
  have hfound : overlappingStores.getOverlappingStore sevens (some thirdLoad.request) = some 1 := by
    decide
  refine ⟨hfound, fun h => ?_⟩
  obtain ⟨idx, e, hget, -, hyoungest⟩ := h.get (by decide)
  have hinst : 1 = e.inst := Option.some.inj (hfound.symm.trans hget)
  have hsecond : OlderOverlap overlappingStores sevens thirdLoad 1
      { inst := 2, request := some {}, size := 8 } :=
    ⟨rfl, by decide, 4, ⟨Nat.zero_le _, show 4 < 0 + 8 by decide⟩,
      Nat.le_refl _, show 4 < 4 + 4 by decide⟩
  have hle : 2 ≤ e.inst := hyoungest 1 _ hsecond
  omega

end Youngest

end LSQUnit
end Runahead
end Gem5
