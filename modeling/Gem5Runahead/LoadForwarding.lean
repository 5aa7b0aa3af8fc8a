import Gem5Runahead.Lib.ByteRange
import Gem5Runahead.StoreQueuePending

/-!
# LoadForwarding

How a load gets its data from the stores before it. `LSQUnit::read` goes through the store queue
from the load's own place back to the writeback pointer, and stops at the first store whose bytes
overlap the load's: it forwards the store's data if they cover the load, and otherwise has the load
wait and try again. What a store's entry holds besides the flags of the queue is in `StoreAccess`.

The ends of the ranges are computed in 64 bits, so the comparison is right only below the end of
the address space.

* `getAddrRangeCoverage`, `searchStores`, `read` — the code.
* `Considered`, `Decides` — the youngest overlapping store, by sequence numbers and bytes alone.
* `searchStores_exact` — the search finds it.
-/

namespace Gem5
namespace Runahead

inductive AddrRangeCoverage where
  | partialAddrRangeCoverage
  | fullAddrRangeCoverage
  | noAddrRangeCoverage
deriving DecidableEq

/-- Of the request of a load. -/
structure LoadRequest where
  vaddr : BitVec 64
  size : Nat
  isLLSC : Bool := false
  isStrictlyOrdered : Bool := false
  isLocalAccess : Bool := false
  /-- Packets of an earlier attempt are on their way. -/
  isAnyOutstandingRequest : Bool := false
  nonempty : 0 < size

/-- What the store, its entry and its request say of the access. -/
structure StoreAccess where
  effAddr : BitVec 64
  effAddrValid : Bool := true
  strictlyOrdered : Bool := false
  isCacheMaintenance : Bool := false
  isMasked : Bool := false
  isAllZeros : Bool := false
  data : Nat → BitVec 8

def LoadRequest.range (req : LoadRequest) : ByteRange 64 := ⟨req.vaddr, req.size⟩

def StoreAccess.range (st : StoreAccess) (size : Nat) : ByteRange 64 := ⟨st.effAddr, size⟩

/-- `st_e`: `store_size` is an `int`. -/
def StoreAccess.endAddr (st : StoreAccess) (size : StoreSize) : BitVec 64 :=
  st.effAddr + (BitVec.ofNat 32 size).signExtend 64

/-- `LSQUnit::getAddrRangeCoverage`. -/
def getAddrRangeCoverage (req : LoadRequest) (st : StoreAccess) (size : StoreSize)
    (isAtomic : Bool) : AddrRangeCoverage :=
  let reqS := req.range.start
  let reqE := req.range.endAddr
  let stS := (st.range size).start
  let stE := st.endAddr size
  let storeHasLowerLimit := decide (stS ≤ reqS)
  let storeHasUpperLimit := decide (reqE ≤ stE)
  let lowerLoadHasStorePart := decide (reqS < stE)
  let upperLoadHasStorePart := decide (stS < reqE)
  if !isAtomic && storeHasLowerLimit && storeHasUpperLimit && !req.isLLSC then
    if st.isMasked then .partialAddrRangeCoverage else .fullAddrRangeCoverage
  else if
      !req.isLLSC && (storeHasLowerLimit && lowerLoadHasStorePart ||
        storeHasUpperLimit && upperLoadHasStorePart ||
        lowerLoadHasStorePart && upperLoadHasStorePart) ||
      req.isLLSC && ((storeHasLowerLimit || upperLoadHasStorePart) &&
        (storeHasUpperLimit || lowerLoadHasStorePart)) ||
      isAtomic && ((storeHasLowerLimit || upperLoadHasStorePart) &&
        (storeHasUpperLimit || lowerLoadHasStorePart)) then
    .partialAddrRangeCoverage
  else .noAddrRangeCoverage

section Coverage

variable {req : LoadRequest} {st : StoreAccess} {size : StoreSize} {isAtomic : Bool}

theorem StoreSize.val_pos (h : size ≠ 0) : 0 < size.val :=
  Nat.pos_of_ne_zero fun hz => h (Fin.ext hz)

theorem StoreAccess.endAddr_eq (st : StoreAccess) (size : StoreSize) :
    st.endAddr size = (st.range size).endAddr := by
  have hlt := size.isLt
  have hint : (BitVec.ofNat 32 size).signExtend 64 = BitVec.ofNat 64 size := by
    rw [BitVec.signExtend_eq_setWidth_of_msb_false]
    · apply BitVec.eq_of_toNat_eq
      simp only [BitVec.toNat_setWidth, BitVec.toNat_ofNat]
      omega
    · rw [BitVec.msb_eq_decide, decide_eq_false_iff_not, BitVec.toNat_ofNat]
      omega
  rw [endAddr, hint]
  rfl

/-- The store has the data at hand, and the load may take them. -/
def CanForward (req : LoadRequest) (st : StoreAccess) (isAtomic : Bool) : Prop :=
  isAtomic = false ∧ st.isMasked = false ∧ req.isLLSC = false

instance (req : LoadRequest) (st : StoreAccess) (isAtomic : Bool) :
    Decidable (CanForward req st isAtomic) := inferInstanceAs (Decidable (_ ∧ _))

theorem bounds_of_overlaps (hsize : size ≠ 0) (hload : req.range.Fits)
    (hstore : (st.range size).Fits) (h : (st.range size).Overlaps req.range) :
    req.range.start < (st.range size).endAddr ∧ (st.range size).start < req.range.endAddr := by
  have hbounds := (ByteRange.overlaps_iff (StoreSize.val_pos hsize) req.nonempty).mp h
  rw [BitVec.lt_def, BitVec.lt_def, hload.toNat_endAddr, hstore.toNat_endAddr]
  exact ⟨hbounds.2, hbounds.1⟩

/-- A store that ends past the last address is above the load if they do not overlap. -/
theorem bounds_of_not_overlaps (hsize : size ≠ 0) (hload : req.range.Fits)
    (h : ¬ (st.range size).Overlaps req.range) :
    ¬ req.range.endAddr ≤ (st.range size).endAddr ∧
        ¬ req.range.start < (st.range size).endAddr ∨
      ¬ (st.range size).start ≤ req.range.start ∧
        ¬ (st.range size).start < req.range.endAddr := by
  have hpos : 0 < req.range.size := req.nonempty
  rw [ByteRange.overlaps_iff (StoreSize.val_pos hsize) req.nonempty] at h
  rw [BitVec.le_def, BitVec.le_def, BitVec.lt_def, BitVec.lt_def, hload.toNat_endAddr]
  by_cases hfits : (st.range size).Fits
  · rw [hfits.toNat_endAddr]
    omega
  · have hload : req.range.start.toNat + req.range.size < 2 ^ 64 := hload
    have hend : ¬ (st.range size).start.toNat + (st.range size).size < 2 ^ 64 := hfits
    omega

theorem covers_iff_bounds (hload : req.range.Fits) (hstore : (st.range size).Fits) :
    (st.range size).Covers req.range ↔ (st.range size).start ≤ req.range.start ∧
      req.range.endAddr ≤ (st.range size).endAddr := by
  rw [ByteRange.covers_iff req.nonempty, BitVec.le_def, BitVec.le_def, hload.toNat_endAddr,
    hstore.toNat_endAddr]

/-- Below the end of the address space the coverage is what the bytes say. -/
theorem getAddrRangeCoverage_spec (hsize : size ≠ 0) (hload : req.range.Fits)
    (hstore : (st.range size).Overlaps req.range → (st.range size).Fits) :
    match getAddrRangeCoverage req st size isAtomic with
    | .noAddrRangeCoverage => ¬ (st.range size).Overlaps req.range
    | .fullAddrRangeCoverage => (st.range size).Covers req.range ∧ CanForward req st isAtomic
    | .partialAddrRangeCoverage => (st.range size).Overlaps req.range ∧
        ¬ ((st.range size).Covers req.range ∧ CanForward req st isAtomic) := by
  unfold getAddrRangeCoverage CanForward
  simp only [st.endAddr_eq]
  by_cases hover : (st.range size).Overlaps req.range
  · obtain ⟨hlower, hupper⟩ := bounds_of_overlaps hsize hload (hstore hover) hover
    rw [covers_iff_bounds hload (hstore hover)]
    by_cases hfull : isAtomic = false ∧ ((st.range size).start ≤ req.range.start ∧
        req.range.endAddr ≤ (st.range size).endAddr) ∧ req.isLLSC = false
    · obtain ⟨hatomic, hcovers, hllsc⟩ := hfull
      cases hmasked : st.isMasked <;> simp [hatomic, hcovers, hllsc, hover]
    · have hwaits : ¬ (!isAtomic && decide ((st.range size).start ≤ req.range.start) &&
          decide (req.range.endAddr ≤ (st.range size).endAddr) && !req.isLLSC) = true := by
        simpa [and_assoc] using hfull
      have hcannot : ¬ (((st.range size).start ≤ req.range.start ∧
          req.range.endAddr ≤ (st.range size).endAddr) ∧
          isAtomic = false ∧ st.isMasked = false ∧ req.isLLSC = false) :=
        fun h => hfull ⟨h.2.1, h.1, h.2.2.2⟩
      rw [if_neg hwaits, if_pos]
      · exact ⟨hover, hcannot⟩
      · cases isAtomic <;> cases req.isLLSC <;> simp [hlower, hupper]
  · rcases bounds_of_not_overlaps hsize hload hover with ⟨h₁, h₂⟩ | ⟨h₁, h₂⟩ <;>
      simp [h₁, h₂, hover]

end Coverage

/-! ## The code -/

/-- A load at its place in the load queue. -/
structure Load where
  seqNum : Nat
  loadIdx : Nat
  /-- The end of the store queue when the load was inserted. -/
  sqIt : Nat
  isAtCommit : Bool := false
  request : LoadRequest

/-- What `read` uses of the load queue: the sequence numbers of its entries by index, and the load
that is stalled by a store. -/
structure LoadQueue where
  head : Nat
  seqNum : Nat → Nat
  stalled : Bool
  stallingStoreIsn : Nat
  stallingLoadIdx : Nat

inductive ReadResult where
  /-- A fault, and the load is rescheduled. -/
  | strictlyOrdered
  | localAccess
  /-- A writeback with the data of a store. -/
  | forward (store : Nat) (data : List (BitVec 8))
  | reschedule
  /-- "Should not check one of these" -/
  | panic
  | memory
deriving DecidableEq

/-- What `read` does, with the load and its entry afterwards. -/
structure ReadOutcome where
  result : ReadResult
  inst : DynInst
  effAddrValid : Bool := true
  hasRequest : Bool := true
  discarded : Bool := false
  loadQueue : LoadQueue

namespace LSQUnit

section Read

variable (s : LSQUnit) (mem : Nat → StoreAccess) (load : Load) (lq : LoadQueue)

def clearIssued (inst : DynInst) : DynInst := { inst with issued := false }

/-- The poison of a store goes to the load; only runahead has poison. -/
def forwardPoison (e : SQEntry) : Option DynInst :=
  if (s.insts e.inst).poisoned then
    if s.inRunahead then some (s.insts load.seqNum).setPoisoned else none
  else some (s.insts load.seqNum)

/-- Full coverage. -/
def forwardData (e : SQEntry) : Option ReadOutcome := do
  let st := mem e.inst
  let shiftAmt := (load.request.vaddr - st.effAddr).toNat
  let data := (List.range load.request.size).map fun k =>
    if st.isAllZeros then 0 else st.data (shiftAmt + k)
  let inst ← s.forwardPoison load e
  return {
    result := .forward e.inst data
    inst
    discarded := load.request.isAnyOutstandingRequest
    loadQueue := lq }

/-- Partial coverage: the oldest load to stall is remembered, with its store. -/
def rescheduleLoad (e : SQEntry) : Option ReadOutcome := do
  let inst ← s.forwardPoison load e
  let stalls := !lq.stalled || decide (load.seqNum < lq.seqNum lq.stallingLoadIdx)
  return {
    result := .reschedule
    inst := clearIssued inst
    effAddrValid := false
    hasRequest := false
    discarded := true
    loadQueue := if stalls then { lq with
      stalled := true
      stallingStoreIsn := e.inst
      stallingLoadIdx := load.loadIdx } else lq }

def accessMemory : ReadOutcome where
  result := .memory
  inst := s.insts load.seqNum
  loadQueue := lq

/-- The loop over the store queue, with `n` stores left from the pointer on. -/
def searchStores : Nat → Option ReadOutcome
  | 0 => some (s.accessMemory load lq)
  | n + 1 => do
    let e ← s.storeQueue.get? (s.storeWBIt + n)
    let st := mem e.inst
    if load.seqNum ≤ e.inst then none
    else if e.size = 0 || st.strictlyOrdered then searchStores n
    else do
      let _ ← e.request
      if st.isCacheMaintenance ||
          (s.insts e.inst).runahead && !(s.insts load.seqNum).runahead then searchStores n
      else if !st.effAddrValid then none
      else match getAddrRangeCoverage load.request st e.size (s.insts e.inst).isAtomic with
        | .fullAddrRangeCoverage => s.forwardData mem load lq e
        | .partialAddrRangeCoverage =>
          if e.completed then
            some { s.accessMemory load lq with result := .panic }
          else s.rescheduleLoad load lq e
        | .noAddrRangeCoverage => searchStores n

def read : Option ReadOutcome :=
  let inst := s.insts load.seqNum
  if inst.executed then none
  else if load.request.isStrictlyOrdered && (load.loadIdx ≠ lq.head || !load.isAtCommit) then
    some {
      result := .strictlyOrdered
      inst := clearIssued inst
      effAddrValid := false
      hasRequest := false
      discarded := true
      loadQueue := lq }
  else if load.request.isLocalAccess then
    some { s.accessMemory load lq with result := .localAccess }
  else if load.sqIt < s.storeWBIt then none
  else if inst.isDataPrefetch then some (s.accessMemory load lq)
  else s.searchStores mem load lq (load.sqIt - s.storeWBIt)

end Read

/-! ## What it is for -/

section Exact

variable (s : LSQUnit) (mem : Nat → StoreAccess) (load : Load)

/-- The store may have data for the load. -/
structure Considered (idx : Nat) (e : SQEntry) : Prop where
  get : s.storeQueue.get? idx = some e
  ahead : s.storeWBIt ≤ idx
  older : e.inst < load.seqNum
  sized : e.size ≠ 0
  ordinary : (mem e.inst).strictlyOrdered = false
  carriesData : (mem e.inst).isCacheMaintenance = false
  sameWorld : (s.insts e.inst).runahead = true → (s.insts load.seqNum).runahead = true

def storeRange (e : SQEntry) : ByteRange 64 := (mem e.inst).range e.size

/-- The youngest of the stores that may have data and overlap the load. -/
structure Decides (idx : Nat) (e : SQEntry) : Prop extends Considered s mem load idx e where
  overlaps : (storeRange mem e).Overlaps load.request.range
  youngest : ∀ idx' e', Considered s mem load idx' e' →
    (storeRange mem e').Overlaps load.request.range → e'.inst ≤ e.inst

/-- The store covers the load and can forward its data. -/
def Forwards (e : SQEntry) : Prop :=
  (storeRange mem e).Covers load.request.range ∧
    CanForward load.request (mem e.inst) (s.insts e.inst).isAtomic

/-- The load with its own poison and the store's. -/
def poisonedBy (e : SQEntry) : DynInst :=
  { s.insts load.seqNum with
    poisoned := (s.insts load.seqNum).poisoned || (s.insts e.inst).poisoned }

/-- The byte the store writes to an address. -/
def byteAt (e : SQEntry) (x : Nat) : BitVec 8 :=
  if (mem e.inst).isAllZeros then 0 else (mem e.inst).data (x - (mem e.inst).effAddr.toNat)

/-- The load gets its data from the store that decides, waits for it, or goes to memory. -/
structure Exact (out : ReadOutcome) : Prop where
  forwards : ∀ idx e, Decides s mem load idx e → Forwards s mem load e →
    out.result = .forward e.inst ((List.range load.request.size).map fun k =>
        byteAt mem e (load.request.vaddr.toNat + k)) ∧
      out.inst = poisonedBy s load e
  reschedules : ∀ idx e, Decides s mem load idx e → ¬ Forwards s mem load e →
    e.completed = false → out.result = .reschedule ∧ out.inst = clearIssued (poisonedBy s load e) ∧
      out.discarded = true ∧ out.hasRequest = false
  memory : (∀ idx e, Considered s mem load idx e →
    ¬ (storeRange mem e).Overlaps load.request.range) →
      out.result = .memory ∧ out.inst = s.insts load.seqNum ∧ out.hasRequest = true
  /-- A normal load gets no data of runahead. -/
  sameWorld : ∀ i data, out.result = .forward i data → (s.insts i).runahead = true →
    (s.insts load.seqNum).runahead = true
  panics : out.result = .panic → ∃ idx e, Considered s mem load idx e ∧ e.completed = true

/-- The queue is in the order of the sequence numbers, and the load at its place in it. -/
structure InOrder : Prop where
  sorted : ∀ idx idx' e e', s.storeQueue.get? idx = some e → s.storeQueue.get? idx' = some e' →
    idx < idx' → e.inst < e'.inst
  place : ∀ idx e, s.storeQueue.get? idx = some e → (idx < load.sqIt ↔ e.inst < load.seqNum)
  head_le : s.storeQueue.head ≤ s.storeWBIt
  le_sqIt : s.storeWBIt ≤ load.sqIt
  sqIt_le : load.sqIt ≤ s.storeQueue.endIdx

/-- What `read` asserts: the load is not executed, a store with data has its request and its
address, and a store with poison is seen in runahead only. -/
structure Asserts : Prop where
  executed : (s.insts load.seqNum).executed = false
  request : ∀ idx e, s.storeQueue.get? idx = some e → e.size ≠ 0 → e.request.isSome
  effAddrValid : ∀ idx e, s.storeQueue.get? idx = some e → e.size ≠ 0 →
    (mem e.inst).effAddrValid = true
  poison : ∀ idx e, Considered s mem load idx e → (s.insts e.inst).poisoned = true →
    s.inRunahead = true

end Exact

section Search

variable {s : LSQUnit} {mem : Nat → StoreAccess} {load : Load} {lq : LoadQueue} {idx n : Nat}
  {e : SQEntry}

/-- Only one store decides. -/
theorem Decides.unique {idx' : Nat} {e' : SQEntry} (hin : s.InOrder load)
    (h : Decides s mem load idx e) (h' : Decides s mem load idx' e') : e' = e := by
  have heq : e.inst = e'.inst :=
    Nat.le_antisymm (h'.youngest _ _ h.toConsidered h.overlaps)
      (h.youngest _ _ h'.toConsidered h'.overlaps)
  rcases Nat.lt_trichotomy idx idx' with hlt | rfl | hlt
  · have := hin.sorted _ _ _ _ h.get h'.get hlt
    omega
  · exact Option.some.inj (h'.get.symm.trans h.get)
  · have := hin.sorted _ _ _ _ h'.get h.get hlt
    omega

/-- The first overlapping store from the load's place back is the youngest. -/
theorem decides_of_first (hin : s.InOrder load)
    (h : Considered s mem load idx e) (hover : (storeRange mem e).Overlaps load.request.range)
    (hyounger : ∀ idx' e', Considered s mem load idx' e' → idx < idx' →
      ¬ (storeRange mem e').Overlaps load.request.range) : Decides s mem load idx e := by
  refine { h with overlaps := hover, youngest := fun idx' e' h' hover' => ?_ }
  rcases Nat.lt_trichotomy idx idx' with hlt | rfl | hlt
  · exact absurd hover' (hyounger _ _ h' hlt)
  · rw [Option.some.inj (h'.get.symm.trans h.get)]
  · exact Nat.le_of_lt (hin.sorted _ _ _ _ h'.get h.get hlt)

theorem forwardPoison_eq (hpoison : (s.insts e.inst).poisoned = true → s.inRunahead = true) :
    s.forwardPoison load e = some (poisonedBy s load e) := by
  unfold forwardPoison poisonedBy
  cases hp : (s.insts e.inst).poisoned
  · simp
  · simp [hpoison hp, DynInst.setPoisoned]

/-- The shifted bytes are those at the load's addresses. -/
theorem shifted_data (hcovers : (storeRange mem e).Covers load.request.range) (k : Nat) :
    (if (mem e.inst).isAllZeros then 0
      else (mem e.inst).data ((load.request.vaddr - (mem e.inst).effAddr).toNat + k)) =
      byteAt mem e (load.request.vaddr.toNat + k) := by
  have hle : (mem e.inst).effAddr.toNat ≤ load.request.vaddr.toNat := by
    have := hcovers load.request.vaddr.toNat ⟨Nat.le_refl _, by
      have := load.request.nonempty
      change load.request.vaddr.toNat < load.request.vaddr.toNat + load.request.size
      omega⟩
    exact this.1
  have hshift : (load.request.vaddr - (mem e.inst).effAddr).toNat =
      load.request.vaddr.toNat - (mem e.inst).effAddr.toNat := by
    rw [BitVec.toNat_sub_of_le (BitVec.le_def.mpr hle)]
  rw [byteAt, hshift]
  congr 2
  omega

theorem forwardData_exact (hin : s.InOrder load) (hasserts : s.Asserts mem load)
    (hd : Decides s mem load idx e) (hforwards : Forwards s mem load e) :
    ∃ out, s.forwardData mem load lq e = some out ∧ Exact s mem load out := by
  unfold forwardData
  rw [forwardPoison_eq (hasserts.poison idx e hd.toConsidered)]
  refine ⟨_, rfl, ?_⟩
  constructor
  case forwards =>
    intro idx' e' hd' _
    obtain rfl := hd.unique hin hd'
    refine ⟨congrArg (ReadResult.forward e'.inst) ?_, rfl⟩
    exact List.map_congr_left fun k _ => shifted_data hforwards.1 k
  case reschedules =>
    intro idx' e' hd' hnot _
    obtain rfl := hd.unique hin hd'
    exact absurd hforwards hnot
  case memory =>
    intro hnone
    exact absurd hd.overlaps (hnone idx e hd.toConsidered)
  case sameWorld =>
    intro i data hres hrunahead
    cases hres
    exact hd.sameWorld hrunahead
  case panics =>
    intro hpanic
    cases hpanic

theorem rescheduleLoad_exact (hin : s.InOrder load) (hasserts : s.Asserts mem load)
    (hd : Decides s mem load idx e) (hnot : ¬ Forwards s mem load e) :
    ∃ out, s.rescheduleLoad load lq e = some out ∧ Exact s mem load out := by
  unfold rescheduleLoad
  rw [forwardPoison_eq (hasserts.poison idx e hd.toConsidered)]
  refine ⟨_, rfl, ?_⟩
  constructor
  case forwards =>
    intro idx' e' hd' hforwards
    obtain rfl := hd.unique hin hd'
    exact absurd hforwards hnot
  case reschedules =>
    intro idx' e' hd' _ _
    obtain rfl := hd.unique hin hd'
    exact ⟨rfl, rfl, rfl, rfl⟩
  case memory =>
    intro hnone
    exact absurd hd.overlaps (hnone idx e hd.toConsidered)
  case sameWorld =>
    intro i data hres
    cases hres
  case panics =>
    intro hpanic
    cases hpanic

theorem panic_exact (hin : s.InOrder load) (hd : Decides s mem load idx e)
    (hnot : ¬ Forwards s mem load e) (hcompleted : e.completed = true) :
    Exact s mem load { s.accessMemory load lq with result := .panic } := by
  constructor
  case forwards =>
    intro idx' e' hd' hforwards
    obtain rfl := hd.unique hin hd'
    exact absurd hforwards hnot
  case reschedules =>
    intro idx' e' hd' _ hpending
    obtain rfl := hd.unique hin hd'
    exact absurd (hpending.symm.trans hcompleted) Bool.false_ne_true
  case memory =>
    intro hnone
    exact absurd hd.overlaps (hnone idx e hd.toConsidered)
  case sameWorld =>
    intro i data hres
    cases hres
  case panics => exact fun _ => ⟨idx, e, hd.toConsidered, hcompleted⟩

theorem accessMemory_exact (hnone : ∀ idx e, Considered s mem load idx e →
    ¬ (storeRange mem e).Overlaps load.request.range) :
    Exact s mem load (s.accessMemory load lq) := by
  constructor
  case forwards => exact fun idx e hd _ => absurd hd.overlaps (hnone idx e hd.toConsidered)
  case reschedules => exact fun idx e hd _ _ => absurd hd.overlaps (hnone idx e hd.toConsidered)
  case memory => exact fun _ => ⟨rfl, rfl, rfl⟩
  case sameWorld => exact fun _ _ hres => by cases hres
  case panics => exact fun hpanic => by cases hpanic

/-- The induction is on the stores left; those behind, which are younger, do not overlap. -/
theorem searchStores_exact (hin : s.InOrder load) (hasserts : s.Asserts mem load)
    (hload : load.request.range.Fits)
    (hstore : ∀ idx e, Decides s mem load idx e → (storeRange mem e).Fits)
    (hn : s.storeWBIt + n ≤ load.sqIt)
    (hyounger : ∀ idx e, Considered s mem load idx e → s.storeWBIt + n ≤ idx →
      ¬ (storeRange mem e).Overlaps load.request.range) :
    ∃ out, s.searchStores mem load lq n = some out ∧ Exact s mem load out := by
  induction n with
  | zero => exact ⟨_, rfl, accessMemory_exact fun idx e h => hyounger idx e h h.ahead⟩
  | succ n ih =>
    obtain ⟨e, hget⟩ := IndexedQueue.get?_of_lt (q := s.storeQueue) (i := s.storeWBIt + n)
      (by have := hin.head_le; omega) (by have := hin.sqIt_le; omega)
    have holder : ¬ load.seqNum ≤ e.inst :=
      Nat.not_le.mpr ((hin.place _ e hget).mp (by omega))
    -- the search goes on past a store that does not overlap, or that does not count
    have hon : (Considered s mem load (s.storeWBIt + n) e →
        ¬ (storeRange mem e).Overlaps load.request.range) →
        ∃ out, s.searchStores mem load lq n = some out ∧ Exact s mem load out := by
      intro hskip
      refine ih (by omega) fun idx' e' h' hle => ?_
      rcases Nat.eq_or_lt_of_le hle with rfl | hlt
      · obtain rfl := Option.some.inj (hget.symm.trans h'.get)
        exact hskip h'
      · exact hyounger idx' e' h' (by omega)
    simp only [searchStores, hget, Option.bind_eq_bind, Option.bind_some, if_neg holder]
    by_cases hempty : (decide (e.size = 0) || (mem e.inst).strictlyOrdered) = true
    · rw [if_pos hempty]
      refine hon fun h => ?_
      simp [h.sized, h.ordinary] at hempty
    rw [if_neg hempty]
    simp only [Bool.or_eq_true, decide_eq_true_eq, not_or, Bool.not_eq_true] at hempty
    obtain ⟨r, hr⟩ := Option.isSome_iff_exists.mp (hasserts.request _ e hget hempty.1)
    simp only [hr, Option.bind_some]
    by_cases hother : ((mem e.inst).isCacheMaintenance ||
        (s.insts e.inst).runahead && !(s.insts load.seqNum).runahead) = true
    · rw [if_pos hother]
      refine hon fun h => ?_
      simp only [h.carriesData, Bool.false_or, Bool.and_eq_true, Bool.not_eq_true'] at hother
      exact absurd (hother.2.symm.trans (h.sameWorld hother.1)) Bool.false_ne_true
    rw [if_neg hother]
    simp only [Bool.or_eq_true, not_or, Bool.not_eq_true, Bool.and_eq_false_iff,
      Bool.not_eq_false'] at hother
    have hcons : Considered s mem load (s.storeWBIt + n) e := by
      refine ⟨hget, Nat.le_add_right .., Nat.not_le.mp holder, hempty.1, hempty.2, hother.1, ?_⟩
      intro hrunahead
      exact hother.2.resolve_left (by simp [hrunahead])
    have hdecides := fun hover => decides_of_first hin hcons hover fun idx' e' h' hlt =>
      hyounger idx' e' h' (by omega)
    have hcoverage := @getAddrRangeCoverage_spec _ _ _ (s.insts e.inst).isAtomic
      hempty.1 hload fun hover => hstore _ e (hdecides hover)
    rw [hasserts.effAddrValid _ e hget hempty.1]
    simp only [Bool.not_true, Bool.false_eq_true, if_false]
    revert hcoverage
    cases getAddrRangeCoverage load.request (mem e.inst) e.size (s.insts e.inst).isAtomic with
    | fullAddrRangeCoverage =>
      intro hforwards
      exact forwardData_exact hin hasserts
        (hdecides (hforwards.1.overlaps load.request.nonempty)) hforwards
    | partialAddrRangeCoverage =>
      rintro ⟨hover, hnot⟩
      dsimp only
      split
      · rename_i hcompleted
        exact ⟨_, rfl, panic_exact hin (hdecides hover) hnot hcompleted⟩
      · exact rescheduleLoad_exact hin hasserts (hdecides hover) hnot
    | noAddrRangeCoverage => exact fun hnot => hon fun _ => hnot

end Search

section Read

variable {s : LSQUnit} {mem : Nat → StoreAccess} {load : Load} {lq : LoadQueue}

/-- The load is looked up in the store queue: it is no prefetch, its access is not local, and if it
is strictly ordered, it is at the head and about to commit. -/
structure Searches (s : LSQUnit) (load : Load) (lq : LoadQueue) : Prop where
  ordered : load.request.isStrictlyOrdered = true → load.loadIdx = lq.head ∧ load.isAtCommit = true
  nonlocal : load.request.isLocalAccess = false
  demand : (s.insts load.seqNum).isDataPrefetch = false

theorem read_eq_searchStores (hin : s.InOrder load) (hasserts : s.Asserts mem load)
    (hsearches : Searches s load lq) :
    s.read mem load lq = s.searchStores mem load lq (load.sqIt - s.storeWBIt) := by
  have hordered : ¬ (load.request.isStrictlyOrdered &&
      (decide (load.loadIdx ≠ lq.head) || !load.isAtCommit)) = true := by
    intro h
    rw [Bool.and_eq_true] at h
    obtain ⟨hhead, hcommit⟩ := hsearches.ordered h.1
    simp [hhead, hcommit] at h
  simp only [read, hasserts.executed, hsearches.nonlocal, hsearches.demand, Bool.false_eq_true,
    if_false]
  rw [if_neg hordered, if_neg (Nat.not_lt.mpr hin.le_sqIt)]

/-- A load that is looked up in the store queue gets what the youngest overlapping store has for
it, as long as no bytes at the end of the address space are involved. In a run of the unit it never
finds a completed store there. -/
theorem read_exact (hin : s.InOrder load) (hasserts : s.Asserts mem load)
    (hsearches : Searches s load lq) (hload : load.request.range.Fits)
    (hstore : ∀ idx e, Decides s mem load idx e → (storeRange mem e).Fits) :
    ∃ out, s.read mem load lq = some out ∧ Exact s mem load out ∧
      ∀ cfg ops, (system cfg).Reaches ops s → out.result ≠ .panic := by
  have hall : s.storeWBIt + (load.sqIt - s.storeWBIt) = load.sqIt := by
    have := hin.le_sqIt
    omega
  obtain ⟨out, hout, hexact⟩ := @searchStores_exact _ _ _ lq _ hin hasserts hload hstore
    (Nat.le_of_eq hall) fun idx e h hle _ => by
      have := (hin.place idx e h.get).mpr h.older
      omega
  refine ⟨out, by rw [read_eq_searchStores hin hasserts hsearches, hout], hexact, ?_⟩
  intro cfg ops hreach hpanic
  obtain ⟨idx, e, hcons, hcompleted⟩ := hexact.panics hpanic
  have hpending := ((reaches_pending hreach).entry idx e hcons.get).completed hcons.ahead
  exact Bool.false_ne_true (hpending.symm.trans hcompleted)

/-- Store `1` has written eight bytes at address `0` to its entry. -/
def writtenStore : List Op :=
  [.insertStore 1 { isStore := true }, .executeStore 0 8 {}]

def writtenStoreQueue : LSQUnit :=
  ((init fun _ => {}).insertStore 1 { isStore := true }).modifyEntry 0 fun e =>
    { e with request := some {}, size := 8 }

def sevens : Nat → StoreAccess := fun _ => { effAddr := 0, data := fun _ => 7 }

/-- A load of the bytes `4` to `7`. -/
def upperHalf (isStrictlyOrdered : Bool) : Load where
  seqNum := 2
  loadIdx := 1
  sqIt := 1
  request := { vaddr := 4, size := 4, isStrictlyOrdered, nonempty := by decide }

def noStall : LoadQueue := ⟨0, id, false, 0, 0⟩

theorem writtenStoreQueue_get? {idx : Nat} {e : SQEntry}
    (h : writtenStoreQueue.storeQueue.get? idx = some e) :
    idx = 0 ∧ e = { inst := 1, request := some {}, size := 8 } := by
  have hidx : idx = 0 := by
    have hlt := IndexedQueue.lt_of_get? h
    have hend : writtenStoreQueue.storeQueue.endIdx = 1 := rfl
    omega
  subst hidx
  exact ⟨rfl, (Option.some.inj h).symm⟩

theorem writtenStoreQueue_decides (b : Bool) : Decides writtenStoreQueue sevens (upperHalf b) 0
    { inst := 1, request := some {}, size := 8 } := by
  refine ⟨⟨rfl, Nat.le_refl _, Nat.lt_succ_self 1, by decide, rfl, rfl, fun h => by cases h⟩,
    ⟨4, ⟨Nat.zero_le _, show 4 < 0 + 8 by decide⟩, ⟨Nat.le_refl _, show 4 < 4 + 4 by decide⟩⟩,
    fun idx' e' h' _ => ?_⟩
  obtain ⟨rfl, rfl⟩ := writtenStoreQueue_get? h'.get
  exact Nat.le_refl _

theorem writtenStoreQueue_forwards (b : Bool) : Forwards writtenStoreQueue sevens (upperHalf b)
    { inst := 1, request := some {}, size := 8 } := by
  refine ⟨fun x hx => ?_, rfl, rfl, rfl⟩
  have hx : 4 ≤ x ∧ x < 4 + 4 := hx
  exact ⟨Nat.zero_le _, show x < 0 + 8 by omega⟩

theorem read_exact_writtenStore : ∃ out,
    writtenStoreQueue.read sevens (upperHalf false) noStall = some out ∧
      out.result = .forward 1 [7, 7, 7, 7] := by
  obtain ⟨out, hout, hexact, -⟩ := @read_exact writtenStoreQueue sevens
    (upperHalf false) noStall
    ⟨fun idx idx' e e' h h' hlt => by
        have := (writtenStoreQueue_get? h).1
        have := (writtenStoreQueue_get? h').1
        omega,
      fun idx e h => by
        obtain ⟨rfl, rfl⟩ := writtenStoreQueue_get? h
        decide,
      Nat.le_refl _, Nat.zero_le _, Nat.le_refl _⟩
    ⟨rfl, fun idx e h _ => by rw [(writtenStoreQueue_get? h).2]; rfl, fun _ _ _ _ => rfl,
      fun idx e h hpoisoned => by
        rw [(writtenStoreQueue_get? h.get).2] at hpoisoned
        cases hpoisoned⟩
    ⟨by simp [upperHalf], rfl, rfl⟩ (by decide)
    (fun idx e h => by rw [(writtenStoreQueue_get? h.get).2]; decide)
  refine ⟨out, hout, ?_⟩
  rw [(hexact.forwards _ _ (writtenStoreQueue_decides false) (writtenStoreQueue_forwards false)).1]
  rfl

/-- A strictly ordered load that is not at the head yet gets nothing of the store that covers it:
it faults and is rescheduled. -/
theorem strictly_ordered_not_forwarded :
    (system ⟨false, 1⟩).Reaches writtenStore writtenStoreQueue ∧
      (writtenStoreQueue.read sevens (upperHalf true) noStall).any
        (fun out => out.result == .strictlyOrdered) = true ∧
      ∃ e, Decides writtenStoreQueue sevens (upperHalf true) 0 e ∧
        Forwards writtenStoreQueue sevens (upperHalf true) e := by
  refine ⟨⟨init fun _ => {}, ⟨_, rfl⟩, ?_⟩, by decide, _, writtenStoreQueue_decides true,
    writtenStoreQueue_forwards true⟩
  have hinsert : (system ⟨false, 1⟩).Run (init fun _ => {}) [.insertStore 1 { isStore := true }]
      ((init fun _ => {}).insertStore 1 { isStore := true }) :=
    .single ⟨⟨by decide, rfl, rfl⟩, rfl⟩
  exact hinsert.trans (.single ⟨by decide, rfl⟩)

end Read

end LSQUnit

end Runahead
end Gem5
