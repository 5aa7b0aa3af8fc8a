import Gem5Runahead.Lib.CircularList

/-!
# FUPool

The functional units of the instruction queue. For each class of operations the pool keeps the
units that can do it in a circular list, and looks for a free one from where it stopped the last
time. A unit is busy until the cycle after it was handed back.

The latency and the pipelining of a class are those of the slowest unit that can do it. `none` is a
failing assertion.

* `create` — the pool of a configuration.
* `getUnit`, `freeUnitNextCycle`, `processFreeUnits` — a unit is taken, handed back, and free.
* `Accounted` — the busy units are those that somebody holds.
-/

namespace Gem5
namespace Runahead

structure OpDesc (κ : Type) where
  opClass : κ
  opLat : Nat
  pipelined : Bool

/-- A kind of unit, with what its units can do. -/
structure FUDesc (κ : Type) where
  opDescList : List (OpDesc κ)
  number : Nat

/-- The index of a unit, or one of the two other results of `getUnit`. -/
inductive FUIdx where
  | noCapableFU
  | noFreeFU
  | unit (fu_idx : Nat)
deriving DecidableEq

structure FUPool (κ : Type) where
  numFU : Nat := 0
  maxOpLatencies : κ → Nat := fun _ => 0
  pipelined : κ → Bool := fun _ => true
  capabilityList : κ → Bool := fun _ => false
  fuPerCapList : κ → CircularList Nat := fun _ => {}
  unitBusy : Nat → Bool := fun _ => false
  unitsToBeFreed : List Nat := []

namespace FUPool

variable {κ : Type}

section Create

variable [DecidableEq κ]

/-- The loop body of the constructor for one operation that `number` new units can do. -/
def addOp (number : Nat) (pool : FUPool κ) (op : OpDesc κ) : FUPool κ :=
  let queue := pool.fuPerCapList op.opClass
  let fus := (List.range number).map (pool.numFU + ·)
  { pool with
    capabilityList := Function.update pool.capabilityList op.opClass true
    fuPerCapList :=
      Function.update pool.fuPerCapList op.opClass { queue with items := queue.items ++ fus }
    maxOpLatencies := Function.update pool.maxOpLatencies op.opClass
      (max (pool.maxOpLatencies op.opClass) op.opLat)
    pipelined := Function.update pool.pipelined op.opClass
      (pool.pipelined op.opClass && op.pipelined) }

def addDesc (pool : FUPool κ) (desc : FUDesc κ) : FUPool κ :=
  if desc.number = 0 then pool
  else { desc.opDescList.foldl (addOp desc.number) pool with numFU := pool.numFU + desc.number }

def create (fuList : List (FUDesc κ)) : FUPool κ := fuList.foldl addDesc {}

end Create

section Units

def getUnit [DecidableEq κ] (pool : FUPool κ) (capability : κ) : Option (FUIdx × FUPool κ) :=
  if !pool.capabilityList capability then some (.noCapableFU, pool)
  else do
    let (found, queue) ← (pool.fuPerCapList capability).search pool.unitBusy
    let pool := { pool with fuPerCapList := Function.update pool.fuPerCapList capability queue }
    match found with
    | none => return (.noFreeFU, pool)
    | some fu_idx =>
      if fu_idx < pool.numFU then
        return (.unit fu_idx, { pool with unitBusy := Function.update pool.unitBusy fu_idx true })
      else none

def freeUnitNextCycle (pool : FUPool κ) (fu_idx : Nat) : Option (FUPool κ) :=
  if pool.unitBusy fu_idx then some { pool with unitsToBeFreed := pool.unitsToBeFreed ++ [fu_idx] }
  else none

def freeUnit (unitBusy : Nat → Bool) (fu_idx : Nat) : Option (Nat → Bool) :=
  if unitBusy fu_idx then some (Function.update unitBusy fu_idx false) else none

/-- The last unit of the list is freed first. -/
def processFreeUnits (pool : FUPool κ) : Option (FUPool κ) := do
  let unitBusy ← pool.unitsToBeFreed.reverse.foldlM freeUnit pool.unitBusy
  return { pool with unitBusy, unitsToBeFreed := [] }

end Units

section Built

/-- The unit can do the operations of the class. -/
def Serves (pool : FUPool κ) (c : κ) (fu_idx : Nat) : Prop := fu_idx ∈ (pool.fuPerCapList c).items

instance (pool : FUPool κ) (c : κ) (fu_idx : Nat) : Decidable (pool.Serves c fu_idx) :=
  inferInstanceAs (Decidable (_ ∈ _))

/-- What the constructor makes sure of, and no operation changes. -/
structure Built (pool : FUPool κ) : Prop where
  capable : ∀ c, pool.capabilityList c = true → (pool.fuPerCapList c).items ≠ []
  nodup : ∀ c, (pool.fuPerCapList c).items.Nodup
  lt : ∀ c i, pool.Serves c i → i < pool.numFU
  inRange : ∀ c, (pool.fuPerCapList c).InRange

/-- No kind of unit is told twice that it can do a class of operations. -/
def Distinct (desc : FUDesc κ) : Prop := (desc.opDescList.map OpDesc.opClass).Nodup

instance [DecidableEq κ] (desc : FUDesc κ) : Decidable (Distinct desc) :=
  inferInstanceAs (Decidable (List.Nodup _))

/-- Every operation of the unit takes some time. -/
def TakesTime (desc : FUDesc κ) : Prop := ∀ op ∈ desc.opDescList, 0 < op.opLat

instance (desc : FUDesc κ) : Decidable (TakesTime desc) :=
  inferInstanceAs (Decidable (∀ op ∈ desc.opDescList, 0 < op.opLat))

/-- What the pool can do takes some time. -/
def Timed (pool : FUPool κ) : Prop :=
  ∀ c, pool.capabilityList c = true → 0 < pool.maxOpLatencies c

theorem mem_fus {n number i : Nat} :
    i ∈ (List.range number).map (n + ·) ↔ n ≤ i ∧ i < n + number := by
  simp only [List.mem_map, List.mem_range]
  constructor
  · rintro ⟨k, hk, rfl⟩
    omega
  · rintro ⟨hle, hlt⟩
    exact ⟨i - n, by omega, by omega⟩

variable [DecidableEq κ] {pool : FUPool κ}

@[simp] theorem addOp_numFU (number : Nat) (pool : FUPool κ) (op : OpDesc κ) :
    (addOp number pool op).numFU = pool.numFU := rfl

/-- One kind of unit: the classes still to come have only units of the kinds before. -/
theorem addOps_built {number : Nat} {ops : List (OpDesc κ)} (hnumber : number ≠ 0)
    (hops : (ops.map OpDesc.opClass).Nodup)
    (hcapable : ∀ c, pool.capabilityList c = true → (pool.fuPerCapList c).items ≠ [])
    (hnodup : ∀ c, (pool.fuPerCapList c).items.Nodup)
    (hlt : ∀ c i, pool.Serves c i → i < pool.numFU + number)
    (hold : ∀ op ∈ ops, ∀ i, pool.Serves op.opClass i → i < pool.numFU)
    (hidx : ∀ c, (pool.fuPerCapList c).idx = 0) :
    Built { ops.foldl (addOp number) pool with numFU := pool.numFU + number } ∧
      ∀ c, ((ops.foldl (addOp number) pool).fuPerCapList c).idx = 0 := by
  induction ops generalizing pool with
  | nil =>
    refine ⟨⟨hcapable, hnodup, hlt, fun c hne => ?_⟩, hidx⟩
    change (pool.fuPerCapList c).idx < (pool.fuPerCapList c).items.length
    rw [hidx c]
    exact List.length_pos_iff.mpr hne
  | cons op ops ih =>
    rw [List.map_cons, List.nodup_cons] at hops
    obtain ⟨hnot, hops⟩ := hops
    have hitems : ∀ c, ((addOp number pool op).fuPerCapList c).items =
        if c = op.opClass then
          (pool.fuPerCapList c).items ++ (List.range number).map (pool.numFU + ·)
        else (pool.fuPerCapList c).items := by
      intro c
      by_cases hc : c = op.opClass
      · subst hc
        simp [addOp]
      · simp [addOp, hc]
    have hserves : ∀ c i, (addOp number pool op).Serves c i ↔
        pool.Serves c i ∨ c = op.opClass ∧ pool.numFU ≤ i ∧ i < pool.numFU + number := by
      intro c i
      rw [Serves, hitems]
      split
      · rename_i hc
        rw [List.mem_append, mem_fus]
        simp [Serves, hc]
      · rename_i hc
        simp [Serves, hc]
    rw [List.foldl_cons, ← addOp_numFU number pool op]
    refine ih hops (fun d hd => ?_) (fun d => ?_) (fun d i hi => ?_) (fun o ho i hi => ?_)
      fun d => ?_
    · rw [hitems]
      split
      · simp [hnumber]
      · rename_i hc
        refine hcapable d ?_
        simpa [addOp, Function.update_of_ne hc] using hd
    · rw [hitems]
      split
      · rename_i hc
        refine List.nodup_append.mpr ⟨hnodup d, ?_, fun i hi j hj => ?_⟩
        · exact List.nodup_range.map fun a b hab => Nat.add_left_cancel hab
        · have := hold op List.mem_cons_self i (hc ▸ hi)
          have := (mem_fus.mp hj).1
          omega
      · exact hnodup d
    · rcases (hserves d i).mp hi with hi | ⟨-, -, hi⟩
      · exact hlt d i hi
      · exact hi
    · rcases (hserves o.opClass i).mp hi with hi | ⟨heq, -, -⟩
      · exact hold o (List.mem_cons_of_mem op ho) i hi
      · exact absurd (List.mem_map.mpr ⟨o, ho, heq⟩) hnot
    · by_cases hc : d = op.opClass
      · subst hc
        simpa [addOp] using hidx op.opClass
      · simpa [addOp, Function.update_of_ne hc] using hidx d

theorem addDesc_built {desc : FUDesc κ} (hb : Built pool) (hdesc : Distinct desc)
    (hidx : ∀ c, (pool.fuPerCapList c).idx = 0) :
    Built (addDesc pool desc) ∧ ∀ c, ((addDesc pool desc).fuPerCapList c).idx = 0 := by
  unfold addDesc
  split
  · exact ⟨hb, hidx⟩
  · rename_i hnumber
    exact addOps_built hnumber hdesc hb.capable hb.nodup
      (fun c i hi => Nat.lt_add_right _ (hb.lt c i hi)) (fun op _ i hi => hb.lt op.opClass i hi) hidx

theorem foldl_built {fuList : List (FUDesc κ)} (hb : Built pool)
    (hlist : ∀ desc ∈ fuList, Distinct desc) (hidx : ∀ c, (pool.fuPerCapList c).idx = 0) :
    Built (fuList.foldl addDesc pool) := by
  induction fuList generalizing pool with
  | nil => exact hb
  | cons desc fuList ih =>
    obtain ⟨hb', hidx'⟩ := addDesc_built hb (hlist desc List.mem_cons_self) hidx
    exact ih hb' (fun d hd => hlist d (List.mem_cons_of_mem desc hd)) hidx'

theorem create_built {fuList : List (FUDesc κ)} (hlist : ∀ desc ∈ fuList, Distinct desc) :
    Built (create fuList) := by
  refine foldl_built ⟨fun c hc => ?_, fun _ => .nil, fun _ _ hi => ?_, fun _ hne => ?_⟩ hlist
    fun _ => rfl
  · cases hc
  · exact absurd hi List.not_mem_nil
  · exact absurd rfl hne

theorem addOps_timed {number : Nat} {ops : List (OpDesc κ)} (h : Timed pool)
    (hops : ∀ op ∈ ops, 0 < op.opLat) : Timed (ops.foldl (addOp number) pool) := by
  induction ops generalizing pool with
  | nil => exact h
  | cons op ops ih =>
    refine ih (fun c hc => ?_) fun o ho => hops o (List.mem_cons_of_mem op ho)
    have hlat := hops op List.mem_cons_self
    by_cases heq : c = op.opClass
    · subst heq
      simp only [addOp, Function.update_self]
      omega
    · simp only [addOp, Function.update_of_ne heq] at hc ⊢
      exact h c hc

theorem foldl_timed {fuList : List (FUDesc κ)} (h : Timed pool)
    (hlist : ∀ desc ∈ fuList, TakesTime desc) : Timed (fuList.foldl addDesc pool) := by
  induction fuList generalizing pool with
  | nil => exact h
  | cons desc fuList ih =>
    refine ih ?_ fun d hd => hlist d (List.mem_cons_of_mem desc hd)
    unfold addDesc
    split
    · exact h
    · exact addOps_timed h (hlist desc List.mem_cons_self)

theorem create_timed {fuList : List (FUDesc κ)} (hlist : ∀ desc ∈ fuList, TakesTime desc) :
    Timed (create fuList) :=
  foldl_timed (fun _ hc => (by cases hc)) hlist

theorem addOps_free {number : Nat} {ops : List (OpDesc κ)} :
    (ops.foldl (addOp number) pool).unitBusy = pool.unitBusy ∧
      (ops.foldl (addOp number) pool).unitsToBeFreed = pool.unitsToBeFreed := by
  induction ops generalizing pool with
  | nil => exact ⟨rfl, rfl⟩
  | cons op ops ih => exact ih

theorem foldl_free {fuList : List (FUDesc κ)} :
    (fuList.foldl addDesc pool).unitBusy = pool.unitBusy ∧
      (fuList.foldl addDesc pool).unitsToBeFreed = pool.unitsToBeFreed := by
  induction fuList generalizing pool with
  | nil => exact ⟨rfl, rfl⟩
  | cons desc fuList ih =>
    rw [List.foldl_cons, ih.1, ih.2]
    unfold addDesc
    split
    · exact ⟨rfl, rfl⟩
    · exact addOps_free

end Built

section Accounts

variable {pool pool' : FUPool κ} {held : List Nat} {i : Nat}

/-- The units can do what they could. -/
structure SameUnits (pool pool' : FUPool κ) : Prop where
  capabilityList : pool'.capabilityList = pool.capabilityList
  maxOpLatencies : pool'.maxOpLatencies = pool.maxOpLatencies
  serves : ∀ c i, pool'.Serves c i ↔ pool.Serves c i

theorem SameUnits.refl (pool : FUPool κ) : SameUnits pool pool := ⟨rfl, rfl, fun _ _ => Iff.rfl⟩

theorem SameUnits.trans {pool'' : FUPool κ} (h : SameUnits pool pool')
    (h' : SameUnits pool' pool'') : SameUnits pool pool'' :=
  ⟨h'.capabilityList.trans h.capabilityList, h'.maxOpLatencies.trans h.maxOpLatencies,
    fun c i => (h'.serves c i).trans (h.serves c i)⟩

theorem SameUnits.timed (h : SameUnits pool pool') (ht : pool.Timed) : pool'.Timed := by
  intro c hc
  rw [h.capabilityList] at hc
  rw [h.maxOpLatencies]
  exact ht c hc

/-- The busy units are those that are to be freed, and those that are held; each once. -/
structure Accounted (pool : FUPool κ) (held : List Nat) : Prop where
  nodup : (pool.unitsToBeFreed ++ held).Nodup
  busy : ∀ i, pool.unitBusy i = true ↔ i ∈ pool.unitsToBeFreed ++ held

theorem Accounted.perm (h : Accounted pool held) {held' : List Nat} (hp : held.Perm held') :
    Accounted pool held' :=
  ⟨(hp.append_left _).nodup_iff.mp h.nodup, fun i => (h.busy i).trans (hp.append_left _).mem_iff⟩

theorem create_accounted [DecidableEq κ] (fuList : List (FUDesc κ)) :
    Accounted (create fuList) [] := by
  obtain ⟨hbusy, hfreed⟩ := @foldl_free κ _ {} fuList
  refine ⟨by rw [create, hfreed]; exact .nil, fun i => ?_⟩
  rw [create, hbusy, hfreed]
  simp

/-- The assertion holds for a unit that is held. -/
theorem freeUnitNextCycle_spec (h : Accounted pool (i :: held)) :
    ∃ pool', pool.freeUnitNextCycle i = some pool' ∧ Accounted pool' held ∧
      SameUnits pool pool' ∧ pool'.unitBusy = pool.unitBusy ∧
      (Built pool → Built pool') := by
  have hbusy : pool.unitBusy i = true := (h.busy i).mpr (by simp)
  have happ : pool.unitsToBeFreed ++ [i] ++ held = pool.unitsToBeFreed ++ i :: held := by simp
  refine ⟨{ pool with unitsToBeFreed := pool.unitsToBeFreed ++ [i] },
    by rw [freeUnitNextCycle, if_pos hbusy], ⟨?_, fun j => ?_⟩, ⟨rfl, rfl, fun _ _ => Iff.rfl⟩, rfl,
    fun hb => ⟨hb.capable, hb.nodup, hb.lt, hb.inRange⟩⟩
  · rw [happ]
    exact h.nodup
  · rw [happ]
    exact h.busy j

theorem freeUnits_spec {l : List Nat} {unitBusy : Nat → Bool} (hl : l.Nodup)
    (hbusy : ∀ i ∈ l, unitBusy i = true) :
    ∃ unitBusy', l.foldlM freeUnit unitBusy = some unitBusy' ∧
      ∀ i, unitBusy' i = true ↔ unitBusy i = true ∧ i ∉ l := by
  induction l generalizing unitBusy with
  | nil => exact ⟨unitBusy, rfl, by simp⟩
  | cons i l ih =>
    obtain ⟨hi, hl⟩ := List.nodup_cons.mp hl
    have hfirst : freeUnit unitBusy i = some (Function.update unitBusy i false) := by
      rw [freeUnit, if_pos (hbusy i List.mem_cons_self)]
    have hrest : ∀ j ∈ l, Function.update unitBusy i false j = true := by
      intro j hj
      have hne : j ≠ i := by
        rintro rfl
        exact hi hj
      rw [Function.update_of_ne hne]
      exact hbusy j (List.mem_cons_of_mem i hj)
    obtain ⟨unitBusy', hfold, hiff⟩ := ih hl hrest
    refine ⟨unitBusy', by simp [hfirst, hfold], fun j => ?_⟩
    rw [hiff j, List.mem_cons, not_or]
    by_cases hj : j = i
    · subst hj
      simp
    · simp [hj]

/-- The units that were handed back are free. -/
theorem processFreeUnits_spec (h : Accounted pool held) :
    ∃ pool', pool.processFreeUnits = some pool' ∧ Accounted pool' held ∧ SameUnits pool pool' ∧
      (Built pool → Built pool') := by
  obtain ⟨hfreed, hheld, hdisjoint⟩ := List.nodup_append.mp h.nodup
  obtain ⟨unitBusy, hfold, hiff⟩ := freeUnits_spec (List.nodup_reverse.mpr hfreed)
    fun i hi => (h.busy i).mpr (List.mem_append_left _ (List.mem_reverse.mp hi))
  refine ⟨{ pool with unitBusy, unitsToBeFreed := [] }, by simp [processFreeUnits, hfold],
    ⟨hheld, fun i => ?_⟩, ⟨rfl, rfl, fun _ _ => Iff.rfl⟩,
    fun hb => ⟨hb.capable, hb.nodup, hb.lt, hb.inRange⟩⟩
  rw [List.nil_append, hiff i, h.busy i, List.mem_reverse, List.mem_append]
  constructor
  · rintro ⟨hi | hi, hnot⟩
    · exact absurd hi hnot
    · exact hi
  · intro hi
    exact ⟨.inr hi, fun hfree => hdisjoint i hfree i hi rfl⟩

end Accounts

section Take

variable [DecidableEq κ] {pool pool' : FUPool κ} {c : κ} {held : List Nat}

/-- What a call of `getUnit` comes to. -/
inductive Got (pool : FUPool κ) (c : κ) : FUIdx → FUPool κ → Prop
  | noCapable (h : pool.capabilityList c = false) : Got pool c .noCapableFU pool
  | noFree {queue : CircularList Nat} (hcapable : pool.capabilityList c = true)
      (hall : ∀ i, pool.Serves c i → pool.unitBusy i = true) :
      Got pool c .noFreeFU
        { pool with fuPerCapList := Function.update pool.fuPerCapList c queue }
  | unit {queue : CircularList Nat} {i : Nat} (hcapable : pool.capabilityList c = true)
      (hserves : pool.Serves c i)
      (hfree : pool.unitBusy i = false) (hlt : i < pool.numFU) :
      Got pool c (.unit i) { pool with
        fuPerCapList := Function.update pool.fuPerCapList c queue
        unitBusy := Function.update pool.unitBusy i true }

/-- The search of a queue leaves the pool built. -/
theorem Built.queue (hb : Built pool) (queue : CircularList Nat) (unitBusy : Nat → Bool)
    (hitems : queue.items = (pool.fuPerCapList c).items) (hrange : queue.InRange) :
    Built { pool with fuPerCapList := Function.update pool.fuPerCapList c queue, unitBusy } ∧
      SameUnits pool
        { pool with fuPerCapList := Function.update pool.fuPerCapList c queue, unitBusy } := by
  have hsame : ∀ d, (Function.update pool.fuPerCapList c queue d).items =
      (pool.fuPerCapList d).items := by
    intro d
    by_cases hd : d = c
    · subst hd
      simpa using hitems
    · rw [Function.update_of_ne hd]
  refine ⟨⟨fun d hd => ?_, fun d => ?_, fun d i hi => ?_, fun d => ?_⟩, rfl, rfl, fun d i => ?_⟩
  · simp only [hsame]
    exact hb.capable d hd
  · simp only [hsame]
    exact hb.nodup d
  · rw [Serves, hsame] at hi
    exact hb.lt d i hi
  · by_cases hd : d = c
    · subst hd
      simpa using hrange
    · simpa [Function.update_of_ne hd] using hb.inRange d
  · rw [Serves, hsame, Serves]

theorem getUnit_spec (hb : Built pool) (c : κ) :
    ∃ r pool', pool.getUnit c = some (r, pool') ∧ Got pool c r pool' ∧ Built pool' ∧
      SameUnits pool pool' := by
  cases hcap : pool.capabilityList c with
  | false => exact ⟨_, _, by simp [getUnit, hcap], .noCapable hcap, hb, .refl pool⟩
  | true =>
    obtain ⟨found, queue, hsearch, hitems, hrange, hfound, hnone⟩ :=
      @CircularList.search_spec _ _ _ pool.unitBusy (hb.inRange c) (hb.capable c hcap) (hb.nodup c)
    cases found with
    | none =>
      obtain ⟨hb', hsame⟩ := hb.queue queue pool.unitBusy hitems hrange
      exact ⟨_, _, by simp [getUnit, hcap, hsearch], .noFree hcap (hnone rfl), hb', hsame⟩
    | some i =>
      obtain ⟨hserves, hfree⟩ := hfound i rfl
      have hlt := hb.lt c i hserves
      obtain ⟨hb', hsame⟩ :=
        hb.queue queue (Function.update pool.unitBusy i true) hitems hrange
      exact ⟨_, _, by simp [getUnit, hcap, hsearch, hlt], .unit hcap hserves hfree hlt, hb',
        hsame⟩

/-- A unit that is taken is held from then on. -/
theorem Accounted.got (h : Accounted pool held) {r : FUIdx} (hg : Got pool c r pool') :
    match r with
    | .unit i => Accounted pool' (i :: held)
    | _ => Accounted pool' held := by
  cases hg with
  | noCapable | noFree => exact ⟨h.nodup, h.busy⟩
  | @unit queue i _ _ hfree =>
    have hnot : i ∉ pool.unitsToBeFreed ++ held := by
      intro hi
      rw [(h.busy i).mpr hi] at hfree
      cases hfree
    have hperm : (pool.unitsToBeFreed ++ i :: held).Perm (i :: (pool.unitsToBeFreed ++ held)) :=
      List.perm_middle
    refine ⟨hperm.nodup_iff.mpr (List.nodup_cons.mpr ⟨hnot, h.nodup⟩), fun j => ?_⟩
    rw [hperm.mem_iff, List.mem_cons, ← h.busy j]
    by_cases hj : j = i
    · subst hj
      simp
    · simp [hj]

end Take

end FUPool
end Runahead
end Gem5
