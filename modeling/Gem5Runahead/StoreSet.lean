import Gem5Runahead.Lib.While
import Mathlib.Logic.Function.Basic

/-!
# StoreSet

The store set predictor. A load and a store that were once executed in the wrong order are put into
one store set, by their PCs. The last store of each set that was fetched is in a table, and the
next instruction of the set depends on it.

`none` is a failing assertion, or a loop that does not end.

* `violation`, `insertStore`, `checkInst`, `issued`, `squash` — the predictor as the source has it.
* `Inv` — no store of a set is younger than the one that is in the table.
* `squash_spec` — a squash ends, and forgets just the younger stores.
-/

namespace Gem5
namespace Runahead

structure StoreSetParams where
  clearPeriod : Nat
  SSITSize : Nat
  LFSTSize : Nat

structure StoreSetParams.Valid (cfg : StoreSetParams) : Prop where
  ssit : 0 < cfg.SSITSize
  lfst : 0 < cfg.LFSTSize

structure StoreSet where
  SSIT : Nat → Nat := fun _ => 0
  validSSIT : Nat → Bool := fun _ => false
  LFST : Nat → Nat := fun _ => 0
  validLFST : Nat → Bool := fun _ => false
  /-- The stores that are not issued yet and their store sets, the youngest store first. -/
  storeList : List (Nat × Nat) := []
  memOpsPred : Nat := 0

namespace StoreSet

variable (cfg : StoreSetParams)

def offsetBits : Nat := 2

def calcIndex (pc : Nat) : Nat := (pc >>> offsetBits) &&& (cfg.SSITSize - 1)

def calcSSID (pc : Nat) : Nat := (pc ^^^ (pc >>> 10)) % cfg.LFSTSize

/-- The instructions with this index belong to the store set. -/
def setSSID (s : StoreSet) (index ssid : Nat) : StoreSet :=
  { s with
    validSSIT := Function.update s.validSSIT index true
    SSIT := Function.update s.SSIT index ssid }

def violation (s : StoreSet) (storePC loadPC : Nat) : Option StoreSet :=
  let loadIndex := calcIndex cfg loadPC
  let storeIndex := calcIndex cfg storePC
  if loadIndex < cfg.SSITSize ∧ storeIndex < cfg.SSITSize then
    match s.validSSIT loadIndex, s.validSSIT storeIndex with
    | false, false =>
      let newSet := calcSSID cfg loadPC
      if newSet < cfg.LFSTSize then some ((s.setSSID loadIndex newSet).setSSID storeIndex newSet)
      else none
    | true, false =>
      let loadSSID := s.SSIT loadIndex
      if loadSSID < cfg.LFSTSize then some (s.setSSID storeIndex loadSSID) else none
    | false, true => some (s.setSSID loadIndex (s.SSIT storeIndex))
    | true, true =>
      let loadSSID := s.SSIT loadIndex
      let storeSSID := s.SSIT storeIndex
      if loadSSID < cfg.LFSTSize ∧ storeSSID < cfg.LFSTSize then
        -- the store set with the lower number wins
        if loadSSID < storeSSID then
          some { s with SSIT := Function.update s.SSIT storeIndex loadSSID }
        else some { s with SSIT := Function.update s.SSIT loadIndex storeSSID }
      else none
  else none

def clear (s : StoreSet) : StoreSet :=
  { s with validSSIT := fun _ => false, validLFST := fun _ => false, storeList := [] }

def checkClear (s : StoreSet) : StoreSet :=
  let s := { s with memOpsPred := s.memOpsPred + 1 }
  if cfg.clearPeriod < s.memOpsPred then { s with memOpsPred := 0 }.clear else s

/-- A map that is ordered by the sequence number, the greatest first. -/
def setStore (seqNum ssid : Nat) : List (Nat × Nat) → List (Nat × Nat)
  | [] => [(seqNum, ssid)]
  | e :: l =>
    if e.1 < seqNum then (seqNum, ssid) :: e :: l
    else if e.1 = seqNum then (seqNum, ssid) :: l
    else e :: setStore seqNum ssid l

def insertStore (s : StoreSet) (storePC seqNum : Nat) : Option StoreSet :=
  let index := calcIndex cfg storePC
  let s := s.checkClear cfg
  if index < cfg.SSITSize then
    if s.validSSIT index then
      let ssid := s.SSIT index
      if ssid < cfg.LFSTSize then
        some { s with
          LFST := Function.update s.LFST ssid seqNum
          validLFST := Function.update s.validLFST ssid true
          storeList := setStore seqNum ssid s.storeList }
      else none
    else some s
  else none

/-- The store that the instruction depends on, or 0. -/
def checkInst (s : StoreSet) (pc : Nat) : Option Nat :=
  let index := calcIndex cfg pc
  if index < cfg.SSITSize then
    if s.validSSIT index then
      let ssid := s.SSIT index
      if ssid < cfg.LFSTSize then some (if s.validLFST ssid then s.LFST ssid else 0) else none
    else some 0
  else none

def issued (s : StoreSet) (issuedPC seqNum : Nat) (isStore : Bool) : Option StoreSet :=
  if !isStore then some s
  else
    let index := calcIndex cfg issuedPC
    if index < cfg.SSITSize then
      let s := { s with storeList := s.storeList.filter (·.1 ≠ seqNum) }
      if s.validSSIT index then
        let ssid := s.SSIT index
        if ssid < cfg.LFSTSize then
          if s.validLFST ssid && s.LFST ssid == seqNum then
            some { s with validLFST := Function.update s.validLFST ssid false }
          else some s
        else none
      else some s
    else none

section Squash

variable (squashedNum : Nat)

def squashDone (s : StoreSet) : Bool :=
  match s.storeList with
  | [] => true
  | e :: _ => e.1 ≤ squashedNum

/-- The loop body of `squash`. It does nothing if the table has an older store. -/
def squashFirst (s : StoreSet) : StoreSet :=
  match s.storeList with
  | [] => s
  | e :: l =>
    let younger := decide (squashedNum < s.LFST e.2)
    if s.validLFST e.2 && younger then
      { s with validLFST := Function.update s.validLFST e.2 false, storeList := l }
    else if !s.validLFST e.2 && younger then { s with storeList := l }
    else s

def squash (s : StoreSet) : Option StoreSet :=
  While.loop (squashDone squashedNum) (fun s => some (s.squashFirst squashedNum))
    (s.storeList.length + 1) s

end Squash

section Invariant

variable {cfg} {s t : StoreSet} {n m pc ssid squashedNum : Nat} {b : Bool}

/-- No store was inserted that is younger than `n`. -/
structure Inv (cfg : StoreSetParams) (n : Nat) (s : StoreSet) : Prop where
  ssids : ∀ index, s.validSSIT index = true → s.SSIT index < cfg.LFSTSize
  ordered : s.storeList.Pairwise fun e e' => e'.1 < e.1
  stores : ∀ e ∈ s.storeList, e.1 ≤ s.LFST e.2
  fetched : ∀ ssid, s.LFST ssid ≤ n

theorem Inv.mono (h : s.Inv cfg n) (hn : n ≤ m) : s.Inv cfg m :=
  ⟨h.ssids, h.ordered, h.stores, fun ssid => Nat.le_trans (h.fetched ssid) hn⟩

theorem inv_init : ({} : StoreSet).Inv cfg 0 :=
  ⟨fun _ h => (by cases h), .nil, fun _ h => (by cases h), fun _ => Nat.le_refl 0⟩

theorem calcIndex_lt (hcfg : cfg.Valid) : calcIndex cfg pc < cfg.SSITSize := by
  have hssit := hcfg.ssit
  have : calcIndex cfg pc ≤ cfg.SSITSize - 1 := Nat.and_le_right
  omega

theorem calcSSID_lt (hcfg : cfg.Valid) : calcSSID cfg pc < cfg.LFSTSize := Nat.mod_lt _ hcfg.lfst

theorem Inv.setSSID (h : s.Inv cfg n) (hssid : ssid < cfg.LFSTSize) :
    (s.setSSID m ssid).Inv cfg n := by
  refine ⟨fun index hv => ?_, h.ordered, h.stores, h.fetched⟩
  simp only [StoreSet.setSSID] at hv ⊢
  by_cases hi : index = m
  · rwa [hi, Function.update_self]
  · rw [Function.update_of_ne hi] at hv ⊢
    exact h.ssids index hv

/-- A valid entry gets another store set. -/
theorem Inv.merge (h : s.Inv cfg n) (hssid : ssid < cfg.LFSTSize) :
    { s with SSIT := Function.update s.SSIT m ssid }.Inv cfg n := by
  refine ⟨fun index hv => ?_, h.ordered, h.stores, h.fetched⟩
  change Function.update s.SSIT m ssid index < _
  by_cases hi : index = m
  · rwa [hi, Function.update_self]
  · rw [Function.update_of_ne hi]
    exact h.ssids index hv

theorem violation_spec {storePC loadPC : Nat} (hcfg : cfg.Valid)
    (h : s.Inv cfg n) : ∃ t, s.violation cfg storePC loadPC = some t ∧ t.Inv cfg n ∧
      t.LFST = s.LFST ∧ t.validLFST = s.validLFST ∧ t.storeList = s.storeList := by
  have hnew : calcSSID cfg loadPC < cfg.LFSTSize := calcSSID_lt hcfg
  simp only [violation, calcIndex_lt hcfg, and_self, if_true]
  cases hload : s.validSSIT (calcIndex cfg loadPC) <;>
    cases hstore : s.validSSIT (calcIndex cfg storePC) <;> simp only
  · rw [if_pos hnew]
    exact ⟨_, rfl, (h.setSSID hnew).setSSID hnew, rfl, rfl, rfl⟩
  · exact ⟨_, rfl, h.setSSID (h.ssids _ hstore), rfl, rfl, rfl⟩
  · rw [if_pos (h.ssids _ hload)]
    exact ⟨_, rfl, h.setSSID (h.ssids _ hload), rfl, rfl, rfl⟩
  · rw [if_pos ⟨h.ssids _ hload, h.ssids _ hstore⟩]
    split
    · exact ⟨_, rfl, h.merge (h.ssids _ hload), rfl, rfl, rfl⟩
    · exact ⟨_, rfl, h.merge (h.ssids _ hstore), rfl, rfl, rfl⟩

theorem Inv.clear (h : s.Inv cfg n) : s.clear.Inv cfg n :=
  ⟨fun _ hv => (by cases hv), .nil, fun _ he => (by cases he), h.fetched⟩

theorem Inv.checkClear (h : s.Inv cfg n) : (s.checkClear cfg).Inv cfg n := by
  rw [StoreSet.checkClear]
  split
  · exact Inv.clear ⟨h.ssids, h.ordered, h.stores, h.fetched⟩
  · exact ⟨h.ssids, h.ordered, h.stores, h.fetched⟩

@[simp] theorem checkClear_LFST : (s.checkClear cfg).LFST = s.LFST := by
  rw [StoreSet.checkClear]
  split <;> rfl

/-- The youngest store comes to the front. -/
theorem setStore_front {l : List (Nat × Nat)} (h : ∀ e ∈ l, e.1 < m) :
    setStore m ssid l = (m, ssid) :: l := by
  cases l with
  | nil => rfl
  | cons e l => rw [setStore, if_pos (h e List.mem_cons_self)]

theorem Inv.lt (h : s.Inv cfg n) {e : Nat × Nat} (he : e ∈ s.storeList) (hn : n < m) : e.1 < m :=
  Nat.lt_of_le_of_lt (Nat.le_trans (h.stores e he) (h.fetched e.2)) hn

/-- The youngest store becomes the last one of its set. -/
theorem Inv.fetch (h : s.Inv cfg n) (hn : n < m) (b : Nat → Bool) :
    { s with
      LFST := Function.update s.LFST ssid m
      validLFST := b
      storeList := (m, ssid) :: s.storeList }.Inv cfg m := by
  have hle : ∀ ssid', s.LFST ssid' ≤ Function.update s.LFST ssid m ssid' := fun ssid' => by
    rw [Function.update_apply]
    split
    · exact Nat.le_trans (h.fetched ssid') (Nat.le_of_lt hn)
    · exact Nat.le_refl _
  refine ⟨h.ssids, .cons (fun e he => h.lt he hn) h.ordered, fun e he => ?_, fun ssid' => ?_⟩
  · rcases List.mem_cons.mp he with rfl | he
    · exact Nat.le_of_eq (Function.update_self ssid m s.LFST).symm
    · exact Nat.le_trans (h.stores e he) (hle e.2)
  · change Function.update s.LFST ssid m ssid' ≤ m
    rw [Function.update_apply]
    split
    · exact Nat.le_refl m
    · exact Nat.le_trans (h.fetched ssid') (Nat.le_of_lt hn)

theorem insertStore_spec (hcfg : cfg.Valid) (h : s.Inv cfg n) (hn : n < m) :
    ∃ t, s.insertStore cfg pc m = some t ∧ t.Inv cfg m ∧
      ∀ ssid, t.LFST ssid = s.LFST ssid ∨ t.LFST ssid = m := by
  have hc : (s.checkClear cfg).Inv cfg n := h.checkClear
  simp only [insertStore, calcIndex_lt hcfg, if_true]
  cases hv : (s.checkClear cfg).validSSIT (calcIndex cfg pc) with
  | false => exact ⟨_, rfl, hc.mono (Nat.le_of_lt hn), fun ssid => .inl (by simp)⟩
  | true =>
    simp only [if_true, if_pos (hc.ssids _ hv), setStore_front fun e he => hc.lt he hn]
    refine ⟨_, rfl, hc.fetch hn _, fun ssid => ?_⟩
    simp only [Function.update_apply, checkClear_LFST]
    split
    · exact .inr rfl
    · exact .inl rfl

/-- What an instruction is found to depend on is the last store of some set. -/
theorem checkInst_spec (hcfg : cfg.Valid) (h : s.Inv cfg n) :
    ∃ dep, s.checkInst cfg pc = some dep ∧ (dep ≠ 0 → ∃ ssid, s.LFST ssid = dep) := by
  simp only [checkInst, calcIndex_lt hcfg, if_true]
  cases hv : s.validSSIT (calcIndex cfg pc) with
  | false => exact ⟨0, rfl, fun hne => absurd rfl hne⟩
  | true =>
    simp only [if_true, if_pos (h.ssids _ hv)]
    refine ⟨_, rfl, fun hne => ⟨s.SSIT (calcIndex cfg pc), ?_⟩⟩
    split at hne
    · rw [if_pos ‹_›]
    · exact absurd rfl hne

theorem issued_spec (hcfg : cfg.Valid) (h : s.Inv cfg n) :
    ∃ t, s.issued cfg pc m b = some t ∧ t.Inv cfg n ∧ t.LFST = s.LFST := by
  cases b with
  | false => exact ⟨s, rfl, h, rfl⟩
  | true =>
    have hi : { s with storeList := s.storeList.filter (·.1 ≠ m) }.Inv cfg n :=
      ⟨h.ssids, h.ordered.filter _, fun e he => h.stores e (List.mem_filter.mp he).1, h.fetched⟩
    simp only [issued, calcIndex_lt hcfg, if_true, Bool.not_true, Bool.false_eq_true, if_false]
    cases hv : s.validSSIT (calcIndex cfg pc) with
    | false => exact ⟨_, rfl, hi, rfl⟩
    | true =>
      simp only [if_true, if_pos (h.ssids _ hv)]
      split
      · exact ⟨_, rfl, ⟨hi.ssids, hi.ordered, hi.stores, hi.fetched⟩, rfl⟩
      · exact ⟨_, rfl, hi, rfl⟩

section Squash

/-- What is left to do of a squash: the walk has come to `s` from `r`. -/
structure Squashing (cfg : StoreSetParams) (n squashedNum : Nat) (r s : StoreSet) : Prop where
  inv : s.Inv cfg n
  ssit : s.SSIT = r.SSIT ∧ s.validSSIT = r.validSSIT ∧ s.LFST = r.LFST
  walked : ∃ gone, r.storeList = gone ++ s.storeList ∧ (∀ e ∈ gone, squashedNum < e.1) ∧
    ∀ ssid, s.validLFST ssid = (r.validLFST ssid && gone.all (·.2 ≠ ssid))

theorem squashFirst_spec {r : StoreSet} (h : Squashing cfg n squashedNum r s)
    (hdone : s.squashDone squashedNum = false) :
    Squashing cfg n squashedNum r (s.squashFirst squashedNum) ∧
      (s.squashFirst squashedNum).storeList.length < s.storeList.length := by
  obtain ⟨hinv, hssit, gone, hgone, hyounger, hvalid⟩ := h
  cases hl : s.storeList with
  | nil => simp [squashDone, hl] at hdone
  | cons e l =>
    have he : squashedNum < e.1 := by simpa [squashDone, hl] using hdone
    -- so the store in the table is younger too, and the walk goes on
    have htable : squashedNum < s.LFST e.2 :=
      Nat.lt_of_lt_of_le he (hinv.stores e (by simp [hl]))
    have hordered := hinv.ordered
    rw [hl] at hordered
    have hgone' : r.storeList = (gone ++ [e]) ++ l := by simp [hgone, hl]
    have hyounger' : ∀ e' ∈ gone ++ [e], squashedNum < e'.1 := fun e' he' => by
      rcases List.mem_append.mp he' with he' | he'
      · exact hyounger e' he'
      · rwa [List.mem_singleton.mp he']
    have hstores : ∀ e' ∈ l, e'.1 ≤ s.LFST e'.2 := fun e' he' => hinv.stores e' (by simp [hl, he'])
    cases hv : s.validLFST e.2 with
    | true =>
      simp only [squashFirst, hl, hv, htable, decide_true, Bool.and_true, if_true]
      refine ⟨⟨⟨hinv.ssids, hordered.of_cons, hstores, hinv.fetched⟩, hssit, gone ++ [e], hgone',
        hyounger', fun ssid => ?_⟩, by simp⟩
      by_cases hs : ssid = e.2
      · simp [hs]
      · simp [Function.update_of_ne hs, hvalid, Ne.symm hs]
    | false =>
      simp only [squashFirst, hl, hv, htable, decide_true, Bool.and_true, Bool.not_false, if_true,
        Bool.false_eq_true, if_false]
      refine ⟨⟨⟨hinv.ssids, hordered.of_cons, hstores, hinv.fetched⟩, hssit, gone ++ [e], hgone',
        hyounger', fun ssid => ?_⟩, by simp⟩
      by_cases hs : ssid = e.2
      · simp [hs, hv]
      · simp [hvalid, Ne.symm hs]

/-- A squash ends. It forgets the younger stores that are not issued, and the last store of each of
their sets. -/
theorem squash_spec (h : s.Inv cfg n) : ∃ t, s.squash squashedNum = some t ∧ t.Inv cfg n ∧
    (t.SSIT = s.SSIT ∧ t.validSSIT = s.validSSIT ∧ t.LFST = s.LFST) ∧
    t.storeList = s.storeList.filter (·.1 ≤ squashedNum) ∧
    ∀ ssid, t.validLFST ssid =
      (s.validLFST ssid && s.storeList.all fun e => e.1 ≤ squashedNum || e.2 ≠ ssid) := by
  obtain ⟨t, hsquash, ⟨hinv, hssit, gone, hgone, hyounger, hvalid⟩, hdone⟩ := @While.loop_spec _
    (squashDone squashedNum) (fun s => some (s.squashFirst squashedNum)) s
    (Squashing cfg n squashedNum s) (fun s => s.storeList.length) _
    ⟨h, ⟨rfl, rfl, rfl⟩, [], rfl, fun _ he => absurd he List.not_mem_nil, fun ssid => by simp⟩
    (Nat.lt_succ_self _) fun u hu hdone => ⟨_, rfl, squashFirst_spec hu hdone⟩
  have holder : ∀ e ∈ t.storeList, e.1 ≤ squashedNum := by
    cases hl : t.storeList with
    | nil => exact fun _ he => absurd he List.not_mem_nil
    | cons e l =>
      have hordered := hinv.ordered
      rw [hl, List.pairwise_cons] at hordered
      have he : e.1 ≤ squashedNum := by simpa [squashDone, hl] using hdone
      intro e' he'
      rcases List.mem_cons.mp he' with rfl | he'
      · exact he
      · exact Nat.le_trans (Nat.le_of_lt (hordered.1 e' he')) he
  refine ⟨t, hsquash, hinv, hssit, ?_, fun ssid => ?_⟩
  · have hfirst : gone.filter (·.1 ≤ squashedNum) = [] :=
      List.filter_eq_nil_iff.mpr fun e he => by simpa using hyounger e he
    have hrest : t.storeList.filter (·.1 ≤ squashedNum) = t.storeList :=
      List.filter_eq_self.mpr fun e he => by simpa using holder e he
    rw [hgone, List.filter_append, hfirst, hrest, List.nil_append]
  · have hrest : (t.storeList.all fun e => e.1 ≤ squashedNum || e.2 ≠ ssid) = true :=
      List.all_eq_true.mpr fun e he => by simp [holder e he]
    have hfirst : (gone.all fun e => e.1 ≤ squashedNum || e.2 ≠ ssid) = gone.all (·.2 ≠ ssid) := by
      rw [Bool.eq_iff_iff, List.all_eq_true, List.all_eq_true]
      refine forall₂_congr fun e he => ?_
      simp [Nat.not_le_of_lt (hyounger e he)]
    rw [hvalid, hgone, List.all_append, hrest, Bool.and_true, hfirst]

end Squash

end Invariant

end StoreSet
end Runahead
end Gem5
