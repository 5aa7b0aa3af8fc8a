import Gem5Runahead.Lib.Dependents
import Gem5Runahead.Lib.UndoLog
import Gem5Runahead.MemDepUnit

/-!
# MemDepUnitInv

What a memory instruction waits for in the memory dependence unit is still there, and older.

* `Inv` — the count of an entry is the number of entries that it is a dependent of, and who has to
  wait for a barrier is a dependent of it.
* `wakeInsts_spec`, `squashWalk_spec`, `insert_spec` — what the operations do.
* `memOps_never_fail` — no assertion of the unit or of the predictor fails, and its loops end.
* `memOp_readied_iff`, `waits_for_barriers` — when an instruction is ready to issue.
-/

namespace Gem5
namespace Runahead
namespace MemDepUnit

open Dependents (pending)

variable {cfg : StoreSetParams} {s t : MemDepUnit} {i j p n : Nat} {l sns : List Nat}
  {barrier waiting : MemDepInst → Bool}

section Invariant

def deps (s : MemDepUnit) (p : Nat) : List Nat := (s.entry p).dependInsts

structure Listed (s : MemDepUnit) : Prop where
  sorted : s.instList.Pairwise (· < ·)
  hash : s.memDepHash.Perm s.instList
  bound : ∀ i ∈ s.instList, i ≤ s.youngest
  alive : ∀ i ∈ s.instList, (s.entry i).squashed = false

/-- The count of an instruction that was squashed may be out of date. -/
structure Counted (s : MemDepUnit) : Prop where
  dependents : ∀ p ∈ s.instList, ∀ i ∈ s.deps p,
    p < i ∧ i ≤ s.youngest ∧ (s.inst p).hasDependents = true
  memDeps : ∀ i ∈ s.instList, (s.entry i).memDeps = pending s.memDepHash s.deps i
  atLeast : ∀ i, pending s.memDepHash s.deps i ≤ (s.entry i).memDeps

/-- The outstanding barriers of one kind, and who waits for them. -/
structure BarrierOk (s : MemDepUnit) (sns : List Nat) (barrier waiting : MemDepInst → Bool) :
    Prop where
  nodup : sns.Nodup
  outstanding : ∀ b, b ∈ sns ↔ b ∈ s.instList ∧ barrier (s.inst b) = true
  waits : ∀ i ∈ s.instList, s.Speculative i → waiting (s.inst i) = true →
    ∀ b ∈ sns, b < i → i ∈ s.deps b

/-- 1 if the instruction has nothing left to wait for. -/
def canIssue (s : MemDepUnit) (i : Nat) : Nat :=
  if (s.entry i).regsReady = true ∧ (s.entry i).memDeps = 0 then 1 else 0

structure ReadiedOk (s : MemDepUnit) : Prop where
  readied : ∀ i ∈ s.instList, s.Speculative i → (i ∈ s.readied ↔ s.canIssue i = 1)
  counted : ∀ i ∈ s.instList, s.Speculative i →
    s.readied.count i + s.instsToReplay.count i = s.rescheduled.count i + s.canIssue i
  replayed : ∀ i ∈ s.instsToReplay, i ∈ s.instList ∧ i ∈ s.readied
  seen : ∀ i, i ∈ s.readied ∨ i ∈ s.rescheduled → i ≤ s.youngest

/-- What the predictor has in its table was a store, or an atomic. -/
structure PredictorOk (cfg : StoreSetParams) (s : MemDepUnit) : Prop where
  inv : s.depPred.Inv cfg s.youngest
  stores : ∀ ssid, s.depPred.LFST ssid ∈ s.instList →
    ((s.inst (s.depPred.LFST ssid)).isStore || (s.inst (s.depPred.LFST ssid)).isAtomic) = true

def waitsForLoads (w : MemDepInst) : Bool := w.isLoad

/-- A load that stores as well waits for the load barriers only. -/
def waitsForStores (w : MemDepInst) : Bool := w.isStore && !w.isLoad

structure Inv (cfg : StoreSetParams) (s : MemDepUnit) : Prop where
  listed : s.Listed
  counted : s.Counted
  loads : s.BarrierOk s.loadBarrierSNs MemDepInst.loadBarrier waitsForLoads
  stores : s.BarrierOk s.storeBarrierSNs MemDepInst.storeBarrier waitsForStores
  readied : s.ReadiedOk
  predictor : s.PredictorOk cfg

theorem inv_init : ({} : MemDepUnit).Inv cfg where
  listed := ⟨.nil, .nil, fun _ hi => absurd hi List.not_mem_nil, fun _ _ => rfl⟩
  counted := ⟨fun _ hp => absurd hp List.not_mem_nil, fun _ hi => absurd hi List.not_mem_nil,
    fun _ => Nat.le_refl 0⟩
  loads := ⟨.nil, fun _ => ⟨fun hb => absurd hb List.not_mem_nil,
    fun hb => absurd hb.1 List.not_mem_nil⟩, fun _ hi => absurd hi List.not_mem_nil⟩
  stores := ⟨.nil, fun _ => ⟨fun hb => absurd hb List.not_mem_nil,
    fun hb => absurd hb.1 List.not_mem_nil⟩, fun _ hi => absurd hi List.not_mem_nil⟩
  readied := ⟨fun _ hi => absurd hi List.not_mem_nil, fun _ hi => absurd hi List.not_mem_nil,
    fun _ hi => absurd hi List.not_mem_nil, fun _ hi => by simp at hi⟩
  predictor := ⟨StoreSet.inv_init, fun _ h => absurd h List.not_mem_nil⟩

namespace Listed

theorem mem_hash (h : s.Listed) : i ∈ s.memDepHash ↔ i ∈ s.instList := h.hash.mem_iff

theorem nodup (h : s.Listed) : s.instList.Nodup := h.sorted.imp Nat.ne_of_lt

theorem hash_nodup (h : s.Listed) : s.memDepHash.Nodup := h.hash.nodup_iff.mpr h.nodup

end Listed

/-- An instruction waits just for the older ones that it is a dependent of. -/
theorem Inv.memDeps_eq_zero_iff (h : s.Inv cfg) (hi : i ∈ s.instList) :
    (s.entry i).memDeps = 0 ↔ ∀ p ∈ s.instList, i ∉ s.deps p := by
  rw [h.counted.memDeps i hi, Dependents.pending_eq_zero_iff]
  simp only [h.listed.mem_hash]

/-- Only what concerns the ready list is different. -/
structure Same (s t : MemDepUnit) : Prop where
  depPred : t.depPred = s.depPred
  instList : t.instList = s.instList
  memDepHash : t.memDepHash = s.memDepHash
  loads : t.loadBarrierSNs = s.loadBarrierSNs
  stores : t.storeBarrierSNs = s.storeBarrierSNs
  youngest : t.youngest = s.youngest
  entry : ∀ j, ∃ r, t.entry j = { s.entry j with regsReady := r }

namespace Same

theorem inst (h : Same s t) : t.inst = s.inst := by
  funext j
  obtain ⟨r, hr⟩ := h.entry j
  rw [MemDepUnit.inst, hr, MemDepUnit.inst]

theorem deps (h : Same s t) : t.deps = s.deps := by
  funext j
  obtain ⟨r, hr⟩ := h.entry j
  rw [MemDepUnit.deps, hr, MemDepUnit.deps]

theorem memDeps (h : Same s t) (j : Nat) : (t.entry j).memDeps = (s.entry j).memDeps := by
  obtain ⟨r, hr⟩ := h.entry j
  rw [hr]

theorem squashed (h : Same s t) (j : Nat) : (t.entry j).squashed = (s.entry j).squashed := by
  obtain ⟨r, hr⟩ := h.entry j
  rw [hr]

theorem speculative (h : Same s t) (j : Nat) : t.Speculative j ↔ s.Speculative j := by
  rw [Speculative, Speculative, h.inst]

end Same

theorem BarrierOk.of_same (h : s.BarrierOk sns barrier waiting) (same : Same s t) :
    t.BarrierOk sns barrier waiting := by
  refine ⟨h.nodup, fun b => ?_, fun i hi hspec => ?_⟩
  · rw [same.instList, same.inst]
    exact h.outstanding b
  · rw [same.inst, same.deps]
    exact h.waits i (same.instList ▸ hi) ((same.speculative i).mp hspec)

theorem Inv.of_same (h : s.Inv cfg) (same : Same s t) (hr : t.ReadiedOk) : t.Inv cfg where
  listed := by
    refine ⟨same.instList ▸ h.listed.sorted, ?_, ?_, fun i hi => ?_⟩
    · rw [same.memDepHash, same.instList]
      exact h.listed.hash
    · rw [same.instList, same.youngest]
      exact h.listed.bound
    · rw [same.squashed]
      exact h.listed.alive i (same.instList ▸ hi)
  counted := by
    refine ⟨?_, fun i hi => ?_, fun i => ?_⟩
    · rw [same.instList, same.deps, same.youngest, same.inst]
      exact h.counted.dependents
    · rw [same.memDeps, same.memDepHash, same.deps]
      exact h.counted.memDeps i (same.instList ▸ hi)
    · rw [same.memDeps, same.memDepHash, same.deps]
      exact h.counted.atLeast i
  loads := by
    rw [same.loads]
    exact h.loads.of_same same
  stores := by
    rw [same.stores]
    exact h.stores.of_same same
  readied := hr
  predictor := by
    refine ⟨?_, ?_⟩
    · rw [same.depPred, same.youngest]
      exact h.predictor.inv
    · rw [same.depPred, same.instList, same.inst]
      exact h.predictor.stores

end Invariant

section Ready

theorem moveToReady_eq (h : (s.entry i).squashed = false) :
    s.moveToReady i = some { s with readied := s.readied ++ [i] } := by
  rw [moveToReady, h]
  rfl

@[simp] theorem modifyEntry_self {f : MemDepEntry → MemDepEntry} :
    (s.modifyEntry i f).entry i = f (s.entry i) := Function.update_self ..

theorem modifyEntry_of_ne {f : MemDepEntry → MemDepEntry} (h : j ≠ i) :
    (s.modifyEntry i f).entry j = s.entry j := Function.update_of_ne h ..

theorem Same.regsReady (s : MemDepUnit) (i : Nat) (l : List Nat) :
    Same s { s.modifyEntry i fun e => { e with regsReady := true } with readied := l } :=
  ⟨rfl, rfl, rfl, rfl, rfl, rfl, fun j => by
    by_cases hj : j = i
    · subst hj
      exact ⟨true, Function.update_self ..⟩
    · exact ⟨(s.entry j).regsReady, Function.update_of_ne hj ..⟩⟩

theorem Same.lists (s : MemDepUnit) (l l' l'' : List Nat) :
    Same s { s with readied := l, instsToReplay := l', rescheduled := l'' } :=
  ⟨rfl, rfl, rfl, rfl, rfl, rfl, fun j => ⟨(s.entry j).regsReady, rfl⟩⟩

/-- More instructions are ready. Each is one that could not issue before, or that is new. -/
theorem ReadiedOk.grow {new : List Nat} (h : s.ReadiedOk) (hreadied : t.readied = s.readied ++ new)
    (hreplay : t.instsToReplay = s.instsToReplay.filter (· ∈ t.instList))
    (hresched : t.rescheduled = s.rescheduled)
    (hold : ∀ j ∈ t.instList, t.Speculative j →
      j ∈ s.instList ∧ s.Speculative j ∧ new.count j + s.canIssue j = t.canIssue j ∨
        s.youngest < j ∧ new.count j = t.canIssue j)
    (hyoungest : s.youngest ≤ t.youngest) (hnew : ∀ j ∈ new, j ≤ t.youngest) : t.ReadiedOk := by
  have hreplayed : ∀ j ∈ t.instList, t.instsToReplay.count j = s.instsToReplay.count j :=
    fun j hj => by rw [hreplay, List.count_filter (by simpa using hj)]
  have hfresh : ∀ j, s.youngest < j → j ∉ s.readied ∧ j ∉ s.rescheduled ∧ j ∉ s.instsToReplay :=
    fun j hj => by
      have hr : j ∉ s.readied := fun hr => absurd (h.seen j (.inl hr)) (Nat.not_le_of_lt hj)
      exact ⟨hr, fun hr => absurd (h.seen j (.inr hr)) (Nat.not_le_of_lt hj),
        fun hp => hr (h.replayed j hp).2⟩
  refine ⟨fun j hj hspec => ?_, fun j hj hspec => ?_, fun j hj => ?_, fun j hj => ?_⟩
  · rw [hreadied, List.mem_append]
    have hle : t.canIssue j ≤ 1 := by
      rw [canIssue]
      split <;> omega
    rcases hold j hj hspec with ⟨hlist, hspecs, hcount⟩ | ⟨hlt, hcount⟩
    · rw [h.readied j hlist hspecs, ← List.count_pos_iff]
      omega
    · rw [← List.count_pos_iff (l := new)]
      have := (hfresh j hlt).1
      simp only [this, false_or]
      omega
  · rw [hreadied, List.count_append, hresched, hreplayed j hj]
    rcases hold j hj hspec with ⟨hlist, hspecs, hcount⟩ | ⟨hlt, hcount⟩
    · have := h.counted j hlist hspecs
      omega
    · obtain ⟨hr, hs, hp⟩ := hfresh j hlt
      rw [List.count_eq_zero.mpr hr, List.count_eq_zero.mpr hs, List.count_eq_zero.mpr hp]
      omega
  · rw [hreplay] at hj
    obtain ⟨hj, hlist⟩ := List.mem_filter.mp hj
    refine ⟨by simpa using hlist, ?_⟩
    rw [hreadied]
    exact List.mem_append_left _ (h.replayed j hj).2
  · rw [hreadied, hresched] at hj
    rcases hj with hj | hj
    · rcases List.mem_append.mp hj with hj | hj
      · exact Nat.le_trans (h.seen j (.inl hj)) hyoungest
      · exact hnew j hj
    · exact Nat.le_trans (h.seen j (.inr hj)) hyoungest

theorem ReadiedOk.replay_filter (h : s.ReadiedOk) :
    s.instsToReplay = s.instsToReplay.filter (· ∈ s.instList) :=
  (List.filter_eq_self.mpr fun j hj => by simpa using (h.replayed j hj).1).symm

theorem regsReady_spec (h : s.Inv cfg) (hop : s.Allowed (.regsReady i)) :
    ∃ t, s.regsReady i = some t ∧ t.Inv cfg := by
  obtain ⟨hi, hspec, hnot⟩ := hop
  let u := s.modifyEntry i fun e => { e with regsReady := true }
  let new := if (s.entry i).memDeps = 0 then [i] else []
  have hother : ∀ j, j ≠ i → u.entry j = s.entry j := fun j hj => modifyEntry_of_ne hj
  have hself : u.entry i = { s.entry i with regsReady := true } := modifyEntry_self
  have hsame := Same.regsReady s i (s.readied ++ new)
  refine ⟨{ u with readied := s.readied ++ new }, ?_, h.of_same hsame (h.readied.grow rfl
    h.readied.replay_filter rfl (fun j hj hspecj => .inl ⟨hj, (hsame.speculative j).mp hspecj, ?_⟩)
    (Nat.le_refl _) fun j hj => ?_)⟩
  · rw [regsReady, if_pos (h.listed.mem_hash.mpr hi)]
    change (if (u.entry i).memDeps = 0 then u.moveToReady i else some u) = _
    rw [hself]
    by_cases hzero : (s.entry i).memDeps = 0
    · rw [if_pos hzero, moveToReady_eq (by rw [hself]; exact h.listed.alive i hi)]
      simp only [new, if_pos hzero]
      rfl
    · rw [if_neg hzero]
      simp only [new, if_neg hzero, List.append_nil]
      rfl
  · by_cases hji : j = i
    · subst hji
      have hcan : s.canIssue j = 0 := by simp [canIssue, hnot]
      have hnow : canIssue { u with readied := s.readied ++ new } j =
          if (s.entry j).memDeps = 0 then 1 else 0 := by simp [canIssue, hself]
      rw [hcan, hnow]
      by_cases hzero : (s.entry j).memDeps = 0 <;> simp [new, hzero]
    · have hnow : canIssue { u with readied := s.readied ++ new } j = s.canIssue j := by
        simp [canIssue, hother j hji]
      have hzero : new.count j = 0 := by
        simp only [new]
        split <;> simp [Ne.symm hji]
      rw [hnow, hzero, Nat.zero_add]
  · have hji : j = i := by
      simp only [new] at hj
      split at hj
      · exact List.mem_singleton.mp hj
      · exact absurd hj List.not_mem_nil
    rw [hji]
    exact h.listed.bound i hi

theorem nonSpecInstReady_spec (h : s.Inv cfg) (hop : s.Allowed (.nonSpecInstReady i)) :
    ∃ t, s.nonSpecInstReady i = some t ∧ t.Inv cfg := by
  obtain ⟨hi, hnot⟩ := hop
  rw [nonSpecInstReady, if_pos (h.listed.mem_hash.mpr hi), moveToReady_eq (h.listed.alive i hi)]
  have hsame := Same.lists s (s.readied ++ [i]) s.instsToReplay s.rescheduled
  refine ⟨_, rfl, h.of_same hsame (h.readied.grow rfl h.readied.replay_filter rfl
    (fun j hj hspecj => .inl ⟨hj, hspecj, ?_⟩) (Nat.le_refl _) fun j hj => ?_)⟩
  · have hji : j ≠ i := fun hji => hnot (hji ▸ hspecj)
    rw [List.count_singleton, if_neg (by simpa using Ne.symm hji), Nat.zero_add]
    rfl
  · rw [List.mem_singleton.mp hj]
    exact h.listed.bound i hi

theorem reschedule_inv (h : s.Inv cfg) (hop : s.Allowed (.reschedule i)) :
    (s.reschedule i).Inv cfg := by
  obtain ⟨hi, hready⟩ := hop
  have hsame := Same.lists s s.readied (s.instsToReplay ++ [i]) (s.rescheduled ++ [i])
  refine h.of_same hsame ⟨h.readied.readied, fun j hj hspecj => ?_, fun j hj => ?_, fun j hj => ?_⟩
  · have hcount := h.readied.counted j hj hspecj
    have hcan : (s.reschedule i).canIssue j = s.canIssue j := rfl
    rw [hcan]
    change s.readied.count j + (s.instsToReplay ++ [i]).count j = (s.rescheduled ++ [i]).count j + _
    rw [List.count_append, List.count_append]
    omega
  · rcases List.mem_append.mp hj with hj | hj
    · exact h.readied.replayed j hj
    · rw [List.mem_singleton.mp hj]
      exact ⟨hi, hready⟩
  · rcases hj with hj | hj
    · exact h.readied.seen j (.inl hj)
    · rcases List.mem_append.mp hj with hj | hj
      · exact h.readied.seen j (.inr hj)
      · rw [List.mem_singleton.mp hj]
        exact h.listed.bound i hi

theorem replayInsts_eq (h : ∀ i ∈ l, i ∈ s.memDepHash ∧ (s.entry i).squashed = false) :
    replayInsts l s = some { s with readied := s.readied ++ l, instsToReplay := [] } := by
  induction l generalizing s with
  | nil => simp [replayInsts]
  | cons i l ih =>
    obtain ⟨hi, halive⟩ := h i List.mem_cons_self
    have hrest := @ih { s with readied := s.readied ++ [i] } fun j hj =>
      h j (List.mem_cons_of_mem i hj)
    simp only [replayInsts, if_pos hi, moveToReady_eq halive, Option.bind_eq_bind,
      Option.bind_some, hrest, List.append_assoc, List.cons_append, List.nil_append]

theorem replay_spec (h : s.Inv cfg) : ∃ t, s.replay = some t ∧ t.Inv cfg := by
  have hreplay : ∀ i ∈ s.instsToReplay, i ∈ s.memDepHash ∧ (s.entry i).squashed = false :=
    fun i hi => by
      have hmem := (h.readied.replayed i hi).1
      exact ⟨h.listed.mem_hash.mpr hmem, h.listed.alive i hmem⟩
  rw [replay, replayInsts_eq hreplay]
  have hsame := Same.lists s (s.readied ++ s.instsToReplay) [] s.rescheduled
  have hmem : ∀ j, j ∈ s.readied ++ s.instsToReplay ↔ j ∈ s.readied := fun j => by
    rw [List.mem_append]
    exact ⟨fun hj => hj.elim id fun hj => (h.readied.replayed j hj).2, .inl⟩
  refine ⟨_, rfl, h.of_same hsame ⟨fun j hj hspecj => ?_, fun j hj hspecj => ?_, fun j hj => ?_,
    fun j hj => ?_⟩⟩
  · exact (hmem j).trans (h.readied.readied j hj hspecj)
  · have hcount := h.readied.counted j hj hspecj
    change (s.readied ++ s.instsToReplay).count j + 0 = s.rescheduled.count j + _
    rw [List.count_append]
    exact hcount
  · exact absurd hj List.not_mem_nil
  · exact h.readied.seen j (hj.imp_left (hmem j).mp)

end Ready

section Complete

/-- The entry does not wait for anything but these `k` instructions. -/
def readyAfter (s : MemDepUnit) (k j : Nat) : Bool :=
  decide ((s.entry j).memDeps = k) && (s.entry j).regsReady && !(s.entry j).squashed

theorem wakeInst_eq (h : 0 < (s.entry i).memDeps) :
    wakeInst s i = some { s with
      entry := Function.update s.entry i { s.entry i with memDeps := (s.entry i).memDeps - 1 }
      readied := s.readied ++ if s.readyAfter 1 i then [i] else [] } := by
  let u := s.modifyEntry i fun e => { e with memDeps := e.memDeps - 1 }
  have hself : u.entry i = { s.entry i with memDeps := (s.entry i).memDeps - 1 } := modifyEntry_self
  have hone : ((s.entry i).memDeps - 1 = 0) = ((s.entry i).memDeps = 1) := by
    rw [eq_iff_iff]
    omega
  have hready : (decide ((u.entry i).memDeps = 0) && (u.entry i).regsReady &&
      !(u.entry i).squashed) = s.readyAfter 1 i := by
    simp only [hself, readyAfter, hone]
  rw [wakeInst, if_neg (by omega)]
  change (if (decide ((u.entry i).memDeps = 0) && (u.entry i).regsReady &&
    !(u.entry i).squashed) = true then u.moveToReady i else some u) = _
  rw [hready]
  cases hnow : s.readyAfter 1 i with
  | true =>
    have halive : (u.entry i).squashed = false := by
      rw [hself]
      simp only [readyAfter, Bool.and_eq_true, Bool.not_eq_true'] at hnow
      exact hnow.2
    rw [if_pos rfl, moveToReady_eq halive, if_pos rfl]
    rfl
  | false =>
    simp only [Bool.false_eq_true, if_false, List.append_nil]
    rfl

/-- What the loop over the dependents comes to: who has waited for nothing else is ready. -/
theorem wakeInsts_spec (h : ∀ j, l.count j ≤ (s.entry j).memDeps) :
    ∃ new : List Nat, l.foldlM wakeInst s =
        some { s with
          entry := fun j => { s.entry j with memDeps := (s.entry j).memDeps - l.count j }
          readied := s.readied ++ new } ∧
      ∀ j, new.count j = if j ∈ l ∧ s.readyAfter (l.count j) j = true then 1 else 0 := by
  induction l generalizing s with
  | nil => exact ⟨[], by simp, by simp⟩
  | cons i l ih =>
    have hi := h i
    rw [List.count_cons_self] at hi
    let u : MemDepUnit := { s with
      entry := Function.update s.entry i { s.entry i with memDeps := (s.entry i).memDeps - 1 }
      readied := s.readied ++ if s.readyAfter 1 i then [i] else [] }
    have hself : u.entry i = { s.entry i with memDeps := (s.entry i).memDeps - 1 } :=
      Function.update_self ..
    have hother : ∀ j, j ≠ i → u.entry j = s.entry j := fun j hj => Function.update_of_ne hj ..
    have hafter : ∀ j, u.readyAfter (l.count j) j = s.readyAfter ((i :: l).count j) j := fun j => by
      by_cases hj : j = i
      · subst hj
        have heq : ((s.entry j).memDeps - 1 = l.count j) =
            ((s.entry j).memDeps = l.count j + 1) := by
          rw [eq_iff_iff]
          omega
        simp only [readyAfter, hself, List.count_cons_self, heq]
      · rw [readyAfter, readyAfter, hother j hj, List.count_cons_of_ne (Ne.symm hj)]
    obtain ⟨new, heq, hnew⟩ := @ih u fun j => by
      by_cases hj : j = i
      · subst hj
        rw [hself]
        exact Nat.le_sub_one_of_lt hi
      · have := h j
        rwa [List.count_cons_of_ne (Ne.symm hj), ← hother j hj] at this
    refine ⟨(if s.readyAfter 1 i then [i] else []) ++ new, ?_, fun j => ?_⟩
    · rw [List.foldlM_cons, wakeInst_eq (by omega)]
      change l.foldlM wakeInst u = _
      rw [heq, ← List.append_assoc]
      congr 2
      funext j
      by_cases hj : j = i
      · subst hj
        rw [hself, List.count_cons_self, Nat.add_comm, ← Nat.sub_sub]
      · rw [hother j hj, List.count_cons_of_ne (Ne.symm hj)]
    · rw [List.count_append, hnew, hafter]
      by_cases hj : j = i
      · subst hj
        -- the last of its entries in the chain makes it ready
        by_cases hmem : j ∈ l
        · have hpos : 0 < l.count j := List.count_pos_iff.mpr hmem
          have hnot : s.readyAfter 1 j = false := by
            have hne : (s.entry j).memDeps ≠ 1 := by omega
            simp [readyAfter, hne]
          simp [hnot, hmem]
        · have hzero : l.count j = 0 := List.count_eq_zero.mpr hmem
          simp only [hmem, false_and, if_false, Nat.add_zero, List.mem_cons_self, true_and,
            List.count_cons_self, hzero, Nat.zero_add]
          cases s.readyAfter 1 j <;> simp
      · have hskip : (if s.readyAfter 1 i then [i] else []).count j = 0 := by
          split <;> simp [Ne.symm hj]
        simp [hskip, hj]

/-- The instruction leaves, and its dependents wait for one instruction less. -/
def leave (s : MemDepUnit) (i : Nat) (new : List Nat) : MemDepUnit :=
  { s with
    entry := fun j => { s.entry j with
      memDeps := (s.entry j).memDeps - (s.deps i).count j
      dependInsts := if j = i then [] else s.deps j }
    memDepHash := s.memDepHash.erase i
    instList := s.instList.erase i
    loadBarrierSNs := s.loadBarrierSNs.erase i
    storeBarrierSNs := s.storeBarrierSNs.erase i
    readied := s.readied ++ new }

theorem Counted.not_self (h : s.Counted) (hi : i ∈ s.instList) : i ∉ s.deps i := fun hmem =>
  absurd (h.dependents i hi i hmem).1 (Nat.lt_irrefl i)

theorem wakeDependents_eq (h : s.Inv cfg) (hi : i ∈ s.instList) :
    ∃ new : List Nat, s.wakeDependents i = some { s with
        entry := fun j => { s.entry j with
          memDeps := (s.entry j).memDeps - (s.deps i).count j
          dependInsts := if j = i then [] else s.deps j }
        readied := s.readied ++ new } ∧
      ∀ j, new.count j =
        if j ∈ s.deps i ∧ s.readyAfter ((s.deps i).count j) j = true then 1 else 0 := by
  have hhash := h.listed.mem_hash.mpr hi
  cases hd : (s.inst i).hasDependents with
  | false =>
    have hnil : s.deps i = [] := List.eq_nil_iff_forall_not_mem.mpr fun j hj => by
      have := (h.counted.dependents i hi j hj).2.2
      rw [hd] at this
      cases this
    have hdeps : ∀ j, (if j = i then [] else s.deps j) = s.deps j := fun j => by
      split
      · next hj => rw [hj, hnil]
      · rfl
    refine ⟨[], ?_, by simp [hnil]⟩
    simp only [wakeDependents, hd, Bool.not_false, if_true, hdeps, hnil, List.count_nil,
      Nat.sub_zero, List.append_nil]
    rfl
  | true =>
    have hle : ∀ j, (s.deps i).count j ≤ (s.entry j).memDeps := fun j => by
      refine Nat.le_trans ?_ (h.counted.atLeast j)
      rw [Dependents.pending_erase hhash]
      exact Nat.le_add_right _ _
    obtain ⟨new, heq, hnew⟩ := wakeInsts_spec hle
    refine ⟨new, ?_, hnew⟩
    rw [wakeDependents, hd]
    simp only [Bool.not_true, Bool.false_eq_true, if_false, if_pos hhash]
    change ((s.deps i).foldlM wakeInst s).map _ = _
    rw [heq, Option.map_some, modifyEntry]
    congr 2
    funext j
    by_cases hj : j = i
    · subst hj
      simp
    · simp [hj, deps]

theorem BarrierOk.erase_eq (h : s.BarrierOk sns barrier waiting) (hi : i ∈ s.instList) :
    eraseBarrier (barrier (s.inst i)) sns i = some (sns.erase i) := by
  cases hb : barrier (s.inst i) with
  | false =>
    have hnot : i ∉ sns := fun hmem => by
      have := ((h.outstanding i).mp hmem).2
      rw [hb] at this
      cases this
    rw [eraseBarrier, List.erase_of_not_mem hnot]
    rfl
  | true =>
    have hmem := (h.outstanding i).mpr ⟨hi, hb⟩
    rw [eraseBarrier, if_pos rfl, if_neg (by simp [List.ne_nil_of_mem hmem])]

theorem completeInst_eq (h : s.Inv cfg) (hi : i ∈ s.instList) :
    ∃ new : List Nat, s.completeInst i = some (s.leave i new) ∧ ∀ j, new.count j =
        if j ∈ s.deps i ∧ s.readyAfter ((s.deps i).count j) j = true then 1 else 0 := by
  obtain ⟨new, hwake, hnew⟩ := wakeDependents_eq h hi
  refine ⟨new, ?_, hnew⟩
  have hloads := h.loads.erase_eq hi
  have hstores := h.stores.erase_eq hi
  rw [inst] at hloads hstores
  simp only [completeInst, hwake, Option.bind_eq_bind, Option.bind_some, completed,
    if_pos (h.listed.mem_hash.mpr hi), inst, hstores, hloads]
  rfl

end Complete

section Leave

variable {new : List Nat}

theorem leave_inst : (s.leave i new).inst = s.inst := rfl

theorem leave_deps (h : j ≠ i) : (s.leave i new).deps j = s.deps j := if_neg h

theorem mem_leave (h : s.Listed) : j ∈ (s.leave i new).instList ↔ j ≠ i ∧ j ∈ s.instList :=
  h.nodup.mem_erase_iff

theorem Counted.leave (hl : s.Listed) (h : s.Counted) (hi : i ∈ s.instList) :
    (s.leave i new).Counted := by
  have hhash := hl.mem_hash.mpr hi
  have hpending : ∀ j, pending s.memDepHash s.deps j =
      (s.deps i).count j + pending (s.leave i new).memDepHash (s.leave i new).deps j := fun j => by
    rw [Dependents.pending_erase hhash]
    refine congrArg _ (Dependents.pending_congr fun p hp => ?_)
    rw [leave_deps (hl.hash_nodup.mem_erase_iff.mp hp).1]
  refine ⟨fun p hp j hj => ?_, fun j hj => ?_, fun j => ?_⟩
  · obtain ⟨hne, hp⟩ := (mem_leave hl).mp hp
    rw [leave_deps hne] at hj
    exact h.dependents p hp j hj
  · change (s.entry j).memDeps - (s.deps i).count j = _
    rw [h.memDeps j ((mem_leave hl).mp hj).2, hpending, Nat.add_sub_cancel_left]
  · change _ ≤ (s.entry j).memDeps - (s.deps i).count j
    have := h.atLeast j
    rw [hpending] at this
    omega

theorem BarrierOk.leave (hl : s.Listed) (h : s.BarrierOk sns barrier waiting) :
    (s.leave i new).BarrierOk (sns.erase i) barrier waiting := by
  refine ⟨h.nodup.erase i, fun b => ?_, fun j hj hspec hw b hb hlt => ?_⟩
  · rw [h.nodup.mem_erase_iff, mem_leave hl, h.outstanding b, leave_inst, and_assoc]
  · obtain ⟨hne, hb⟩ := h.nodup.mem_erase_iff.mp hb
    rw [leave_deps hne]
    exact h.waits j ((mem_leave hl).mp hj).2 hspec hw b hb hlt

/-- Whoever has waited for this instruction last can issue now. -/
theorem ReadiedOk.leave (hl : s.Listed) (hc : s.Counted) (h : s.ReadiedOk) (hi : i ∈ s.instList)
    (hreplay : i ∉ s.instsToReplay) (hnew : ∀ j, new.count j =
      if j ∈ s.deps i ∧ s.readyAfter ((s.deps i).count j) j = true then 1 else 0) :
    (s.leave i new).ReadiedOk := by
  refine h.grow rfl ?_ rfl (fun j hj hspec => .inl ⟨((mem_leave hl).mp hj).2, hspec, ?_⟩)
    (Nat.le_refl _) fun j hj => ?_
  · refine (List.filter_eq_self.mpr fun j hj => ?_).symm
    exact decide_eq_true ((mem_leave hl).mpr ⟨fun hji => hreplay (hji ▸ hj), (h.replayed j hj).1⟩)
  · have halive := hl.alive j ((mem_leave hl).mp hj).2
    have hle : (s.deps i).count j ≤ (s.entry j).memDeps := by
      refine Nat.le_trans ?_ (hc.atLeast j)
      rw [Dependents.pending_erase (hl.mem_hash.mpr hi)]
      exact Nat.le_add_right _ _
    have hafter : (s.leave i new).canIssue j = if (s.entry j).regsReady = true ∧
        (s.entry j).memDeps - (s.deps i).count j = 0 then 1 else 0 := rfl
    rw [hnew, hafter, canIssue]
    by_cases hmem : j ∈ s.deps i
    · have hpos : 0 < (s.deps i).count j := List.count_pos_iff.mpr hmem
      have hne : (s.entry j).memDeps ≠ 0 := by omega
      have heq : (s.entry j).memDeps - (s.deps i).count j = 0 ↔
          (s.entry j).memDeps = (s.deps i).count j := by omega
      simp only [hne, and_false, if_false, Nat.add_zero, hmem, true_and, readyAfter, halive,
        Bool.not_false, Bool.and_true, Bool.and_eq_true, decide_eq_true_eq, heq]
      exact if_congr and_comm rfl rfl
    · have hzero : (s.deps i).count j = 0 := List.count_eq_zero.mpr hmem
      simp [hmem, hzero]
  · have hmem : j ∈ s.deps i := by
      by_contra hnot
      have := hnew j
      rw [if_neg fun hd => hnot hd.1] at this
      exact List.count_eq_zero.mp this hj
    exact (hc.dependents i hi j hmem).2.1

theorem completeInst_spec (h : s.Inv cfg) (hop : s.Allowed (.completeInst i)) :
    ∃ t, s.completeInst i = some t ∧ t.Inv cfg := by
  obtain ⟨hi, hreplay⟩ := hop
  obtain ⟨new, heq, hnew⟩ := completeInst_eq h hi
  have hl := h.listed
  refine ⟨_, heq, ⟨⟨hl.sorted.sublist List.erase_sublist, hl.hash.erase i, fun j hj => ?_,
    fun j hj => ?_⟩, h.counted.leave hl hi, h.loads.leave hl, h.stores.leave hl,
    h.readied.leave hl h.counted hi hreplay hnew, ⟨h.predictor.inv, fun ssid hs => ?_⟩⟩⟩
  · exact hl.bound j ((mem_leave hl).mp hj).2
  · exact hl.alive j ((mem_leave hl).mp hj).2
  · exact h.predictor.stores ssid ((mem_leave hl).mp hs).2

end Leave

section Squash

/-- The walk of a squash stops at the first instruction that is old enough. -/
theorem squashWalk_eq {rev : List Nat} (hhash : ∀ i ∈ rev, i ∈ s.memDepHash) (hnodup : rev.Nodup) :
    squashWalk n rev s = some { s with
      entry := fun j => { s.entry j with
        squashed := (s.entry j).squashed || decide (j ∈ rev.takeWhile (n < ·)) }
      instList := (rev.dropWhile (n < ·)).reverse
      memDepHash := s.memDepHash.diff (rev.takeWhile (n < ·))
      loadBarrierSNs := s.loadBarrierSNs.diff (rev.takeWhile (n < ·))
      storeBarrierSNs := s.storeBarrierSNs.diff (rev.takeWhile (n < ·)) } := by
  induction rev generalizing s with
  | nil => simp [squashWalk]
  | cons i rest ih =>
    rw [squashWalk]
    by_cases hi : n < i
    · obtain ⟨hnot, hnodup⟩ := List.nodup_cons.mp hnodup
      let u : MemDepUnit := { s with
        entry := Function.update s.entry i { s.entry i with squashed := true }
        loadBarrierSNs := s.loadBarrierSNs.erase i
        storeBarrierSNs := s.storeBarrierSNs.erase i
        memDepHash := s.memDepHash.erase i }
      have hrest := @ih u (fun j hj => (List.mem_erase_of_ne fun hji => hnot (by rwa [← hji])).mpr
        (hhash j (List.mem_cons_of_mem i hj))) hnodup
      rw [if_pos hi, if_pos (hhash i List.mem_cons_self)]
      change squashWalk n rest u = _
      rw [hrest]
      simp only [u, List.takeWhile_cons, List.dropWhile_cons, hi, decide_true, if_true,
        List.diff_cons]
      congr 2
      funext j
      by_cases hj : j = i
      · subst hj
        simp
      · simp [hj]
    · rw [if_neg hi]
      simp [hi]

/-- The younger instructions are gone, and the predictor has been told. -/
def squashedTo (s : MemDepUnit) (n : Nat) (depPred : StoreSet) : MemDepUnit :=
  { s with
    depPred
    entry := fun j => { s.entry j with
      squashed := (s.entry j).squashed || decide (j ∈ s.instList ∧ n < j) }
    instsToReplay := s.instsToReplay.filter fun i => !decide (n < i)
    instList := s.instList.filter (· ≤ n)
    memDepHash := s.memDepHash.filter (· ≤ n)
    loadBarrierSNs := s.loadBarrierSNs.filter (· ≤ n)
    storeBarrierSNs := s.storeBarrierSNs.filter (· ≤ n) }

theorem diff_gone (hl : l.Nodup) (h : ∀ i ∈ l, i ∈ s.instList) :
    l.diff (s.instList.reverse.filter (n < ·)) = l.filter (· ≤ n) := by
  rw [hl.sdiff_eq_filter]
  refine List.filter_congr fun i hi => ?_
  have := h i hi
  simp [this]

theorem squash_eq (h : s.Inv cfg) : ∃ depPred, s.depPred.squash n = some depPred ∧
    depPred.Inv cfg s.youngest ∧ depPred.LFST = s.depPred.LFST ∧
    s.squash n = some (s.squashedTo n depPred) := by
  obtain ⟨depPred, hpred, hinv, ⟨-, -, hlfst⟩, -⟩ :=
    @StoreSet.squash_spec cfg s.depPred s.youngest n h.predictor.inv
  refine ⟨depPred, hpred, hinv, hlfst, ?_⟩
  have hl := h.listed
  have hreverse : s.instList.reverse.Pairwise fun a b => decide (n < b) = true →
      decide (n < a) = true := by
    rw [List.pairwise_reverse]
    refine hl.sorted.imp fun hab hb => ?_
    rw [decide_eq_true_eq] at hb ⊢
    omega
  have hdrop : (s.instList.reverse.filter fun a => !decide (n < a)).reverse =
      s.instList.filter (· ≤ n) := by
    rw [List.filter_reverse, List.reverse_reverse]
    exact List.filter_congr fun i _ => by simp [← decide_not]
  let u : MemDepUnit := { s with
    instsToReplay := s.instsToReplay.filter fun i => !decide (n < i) }
  have hwalk := @squashWalk_eq u n s.instList.reverse
    (fun i hi => hl.mem_hash.mpr (List.mem_reverse.mp hi)) (List.nodup_reverse.mpr hl.nodup)
  rw [UndoLog.takeWhile_eq_filter hreverse, UndoLog.dropWhile_eq_filter hreverse, hdrop,
    diff_gone hl.hash_nodup fun i hi => hl.mem_hash.mp hi,
    diff_gone h.loads.nodup fun i hi => ((h.loads.outstanding i).mp hi).1,
    diff_gone h.stores.nodup fun i hi => ((h.stores.outstanding i).mp hi).1] at hwalk
  rw [squash]
  change (squashWalk n s.instList.reverse u).bind _ = _
  rw [hwalk]
  simp only [Option.bind_some, u, Option.bind_eq_bind, hpred]
  simp [squashedTo]

theorem BarrierOk.squashedTo (h : s.BarrierOk sns barrier waiting) {depPred : StoreSet} :
    (s.squashedTo n depPred).BarrierOk (sns.filter (· ≤ n)) barrier waiting := by
  refine ⟨h.nodup.filter _, fun b => ?_, fun i hi hspec hw b hb => ?_⟩
  · change _ ↔ b ∈ s.instList.filter (· ≤ n) ∧ barrier (s.inst b) = true
    rw [List.mem_filter, List.mem_filter, h.outstanding b]
    exact and_right_comm
  · exact h.waits i (List.mem_filter.mp hi).1 hspec hw b (List.mem_filter.mp hb).1

theorem squash_spec (n : Nat) (h : s.Inv cfg) : ∃ t, s.squash n = some t ∧ t.Inv cfg := by
  obtain ⟨depPred, -, hpred, hlfst, heq⟩ := @squash_eq cfg s n h
  have hl := h.listed
  have hlist : ∀ i, i ∈ s.instList.filter (· ≤ n) ↔ i ∈ s.instList ∧ i ≤ n := fun i => by simp
  refine ⟨_, heq, ⟨⟨hl.sorted.filter _, hl.hash.filter _, fun i hi => ?_, fun i hi => ?_⟩,
    ⟨fun p hp => ?_, fun i hi => ?_, fun i => ?_⟩, h.loads.squashedTo, h.stores.squashedTo,
    h.readied.grow (List.append_nil _).symm ?_ rfl (fun j hj hspec => .inl
      ⟨((hlist j).mp hj).1, hspec, Nat.zero_add _⟩) (Nat.le_refl _)
      fun j hj => absurd hj List.not_mem_nil, ⟨hpred, fun ssid hs => ?_⟩⟩⟩
  · exact hl.bound i ((hlist i).mp hi).1
  · obtain ⟨hi, hn⟩ := (hlist i).mp hi
    simp [squashedTo, hl.alive i hi, Nat.not_lt_of_le hn]
  · exact h.counted.dependents p ((hlist p).mp hp).1
  · obtain ⟨hi, hn⟩ := (hlist i).mp hi
    -- who it waits for is older still
    have hkeep : ∀ p ∈ s.memDepHash, decide (p ≤ n) = false → i ∉ s.deps p := fun p hp hlt hmem => by
      have := (h.counted.dependents p (hl.mem_hash.mp hp) i hmem).1
      rw [decide_eq_false_iff_not] at hlt
      omega
    exact (h.counted.memDeps i hi).trans (Dependents.pending_filter hkeep).symm
  · exact Nat.le_trans (Dependents.pending_le_of_sublist List.filter_sublist) (h.counted.atLeast i)
  · change s.instsToReplay.filter (fun i => !decide (n < i)) =
      s.instsToReplay.filter (· ∈ s.instList.filter (· ≤ n))
    refine List.filter_congr fun i hi => ?_
    have := (h.readied.replayed i hi).1
    simp [this, ← decide_not]
  · change depPred.LFST ssid ∈ s.instList.filter (· ≤ n) at hs
    change ((s.inst (depPred.LFST ssid)).isStore || (s.inst (depPred.LFST ssid)).isAtomic) = true
    rw [hlfst] at hs ⊢
    exact h.predictor.stores ssid ((hlist _).mp hs).1

end Squash

section Dispatch

variable {w : MemDepInst} {r : Bool} {ps : List Nat} {depPred : StoreSet}

/-- The instruction is inserted, as a dependent of `ps`. -/
def arrive (s : MemDepUnit) (i : Nat) (w : MemDepInst) (r : Bool) (ps : List Nat)
    (depPred : StoreSet) : MemDepUnit :=
  { s with
    depPred
    entry := Function.update
      (fun p => { s.entry p with dependInsts := Dependents.addDependent s.deps ps i p })
      i { inst := w, regsReady := r, memDeps := ps.length }
    memDepHash := i :: s.memDepHash
    instList := s.instList ++ [i]
    loadBarrierSNs := if w.loadBarrier then i :: s.loadBarrierSNs else s.loadBarrierSNs
    storeBarrierSNs := if w.storeBarrier then i :: s.storeBarrierSNs else s.storeBarrierSNs
    readied := s.readied ++ if r = true ∧ ps = [] then [i] else []
    youngest := i }

/-- What the instruction is made a dependent of. -/
structure Producers (s : MemDepUnit) (w : MemDepInst) (ps : List Nat) : Prop where
  nodup : ps.Nodup
  live : ∀ p ∈ ps, p ∈ s.instList ∧ (s.inst p).hasDependents = true
  loads : w.insertKind = .insert → waitsForLoads w = true → ∀ b ∈ s.loadBarrierSNs, b ∈ ps
  stores : w.insertKind = .insert → waitsForStores w = true → ∀ b ∈ s.storeBarrierSNs, b ∈ ps

theorem arrive_entry_self : (s.arrive i w r ps depPred).entry i =
    { inst := w, regsReady := r, memDeps := ps.length } := by
  simp only [arrive, Function.update_self]

theorem arrive_entry (h : j ≠ i) : (s.arrive i w r ps depPred).entry j =
    { s.entry j with dependInsts := Dependents.addDependent s.deps ps i j } := by
  simp only [arrive, Function.update_of_ne h]

theorem arrive_inst_self : (s.arrive i w r ps depPred).inst i = w := by
  rw [inst, arrive_entry_self]

theorem arrive_inst (h : j ≠ i) : (s.arrive i w r ps depPred).inst j = s.inst j := by
  rw [inst, arrive_entry h, inst]

theorem arrive_deps (h : j ≠ i) :
    (s.arrive i w r ps depPred).deps j = Dependents.addDependent s.deps ps i j := by
  rw [deps, arrive_entry h]

theorem arrive_deps_self : (s.arrive i w r ps depPred).deps i = [] := by
  rw [deps, arrive_entry_self]

theorem arrive_speculative (h : j ≠ i) :
    (s.arrive i w r ps depPred).Speculative j ↔ s.Speculative j := by
  rw [Speculative, arrive_inst h, Speculative]

theorem mem_addDependent (h : j ≠ i) : j ∈ Dependents.addDependent s.deps ps i p ↔ j ∈ s.deps p := by
  rw [Dependents.addDependent]
  split <;> simp [h]

theorem Listed.arrive (h : s.Listed) (hi : s.youngest < i) :
    (s.arrive i w r ps depPred).Listed := by
  have hlt : ∀ j ∈ s.instList, j < i := fun j hj => Nat.lt_of_le_of_lt (h.bound j hj) hi
  refine ⟨?_, ?_, fun j hj => ?_, fun j hj => ?_⟩
  · refine List.pairwise_append.mpr ⟨h.sorted, List.pairwise_singleton .., fun j hj k hk => ?_⟩
    rw [List.mem_singleton.mp hk]
    exact hlt j hj
  · exact (h.hash.cons i).trans (List.perm_append_singleton i s.instList).symm
  · rcases List.mem_append.mp hj with hj | hj
    · exact Nat.le_of_lt (hlt j hj)
    · exact Nat.le_of_eq (List.mem_singleton.mp hj)
  · rcases List.mem_append.mp hj with hj | hj
    · rw [arrive_entry (Nat.ne_of_lt (hlt j hj))]
      exact h.alive j hj
    · rw [List.mem_singleton.mp hj, arrive_entry_self]

theorem Counted.arrive (hl : s.Listed) (h : s.Counted) (hi : s.youngest < i)
    (hps : s.Producers w ps) : (s.arrive i w r ps depPred).Counted := by
  have hne : ∀ p ∈ s.instList, p ≠ i := fun p hp =>
    Nat.ne_of_lt (Nat.lt_of_le_of_lt (hl.bound p hp) hi)
  have hhash : ∀ p ∈ s.memDepHash, p ≠ i := fun p hp => hne p (hl.mem_hash.mp hp)
  have hpending : ∀ j, pending (s.arrive i w r ps depPred).memDepHash
      (s.arrive i w r ps depPred).deps j =
        pending s.memDepHash (Dependents.addDependent s.deps ps i) j := fun j => by
    change pending (i :: s.memDepHash) _ j = _
    rw [Dependents.pending_cons, arrive_deps_self, List.count_nil, Nat.zero_add]
    exact Dependents.pending_congr fun p hp => by rw [arrive_deps (hhash p hp)]
  have hself : pending s.memDepHash (Dependents.addDependent s.deps ps i) i = ps.length := by
    refine Dependents.pending_addDependent_self (fun p hp hmem => ?_) hl.hash_nodup hps.nodup
      fun p hp => hl.mem_hash.mpr (hps.live p hp).1
    have := (h.dependents p (hl.mem_hash.mp hp) i hmem).2.1
    omega
  refine ⟨fun p hp j hj => ?_, fun j hj => ?_, fun j => ?_⟩
  · rcases List.mem_append.mp hp with hp | hp
    · rw [arrive_deps (hne p hp)] at hj
      rw [arrive_inst (hne p hp)]
      by_cases hji : j = i
      · rw [hji] at hj ⊢
        have hmem : p ∈ ps := by
          by_contra hnot
          rw [Dependents.addDependent, if_neg hnot] at hj
          have := (h.dependents p hp i hj).2.1
          omega
        exact ⟨Nat.lt_of_le_of_lt (hl.bound p hp) hi, Nat.le_refl i, (hps.live p hmem).2⟩
      · obtain ⟨hlt, hle, hd⟩ := h.dependents p hp j ((mem_addDependent hji).mp hj)
        exact ⟨hlt, Nat.le_trans hle (Nat.le_of_lt hi), hd⟩
    · rw [List.mem_singleton.mp hp, arrive_deps_self] at hj
      exact absurd hj List.not_mem_nil
  · rw [hpending]
    rcases List.mem_append.mp hj with hj | hj
    · rw [arrive_entry (hne j hj), Dependents.pending_addDependent_of_ne (hne j hj)]
      exact h.memDeps j hj
    · rw [List.mem_singleton.mp hj, arrive_entry_self, hself]
  · rw [hpending]
    by_cases hji : j = i
    · rw [hji, arrive_entry_self, hself]
    · rw [arrive_entry hji, Dependents.pending_addDependent_of_ne hji]
      exact h.atLeast j

theorem BarrierOk.arrive (hl : s.Listed) (h : s.BarrierOk sns barrier waiting)
    (hi : s.youngest < i)
    (hw : w.insertKind = .insert → waiting w = true → ∀ b ∈ sns, b ∈ ps) :
    (s.arrive i w r ps depPred).BarrierOk (if barrier w then i :: sns else sns)
      barrier waiting := by
  have hne : ∀ p ∈ s.instList, p ≠ i := fun p hp =>
    Nat.ne_of_lt (Nat.lt_of_le_of_lt (hl.bound p hp) hi)
  have hnot : i ∉ sns := fun hmem => hne i ((h.outstanding i).mp hmem).1 rfl
  have hmem : ∀ b, b ∈ (if barrier w then i :: sns else sns) ↔
      b ∈ sns ∨ b = i ∧ barrier w = true := fun b => by
    cases barrier w <;> simp [or_comm]
  refine ⟨?_, fun b => ?_, fun j hj hspec hwait b hb hlt => ?_⟩
  · split
    · exact List.nodup_cons.mpr ⟨hnot, h.nodup⟩
    · exact h.nodup
  · rw [hmem]
    change _ ↔ b ∈ s.instList ++ [i] ∧ _
    rw [List.mem_append, List.mem_singleton]
    by_cases hb : b = i
    · subst hb
      rw [arrive_inst_self]
      simp [hnot]
    · rw [arrive_inst hb]
      simpa [hb] using h.outstanding b
  · have hbi : b ≠ i := fun hbi => by
      have hle : j ≤ i := by
        rcases List.mem_append.mp hj with hj | hj
        · exact Nat.le_trans (hl.bound j hj) (Nat.le_of_lt hi)
        · exact Nat.le_of_eq (List.mem_singleton.mp hj)
      omega
    have hb : b ∈ sns := ((hmem b).mp hb).resolve_right fun hb => hbi hb.1
    rw [arrive_deps hbi]
    rcases List.mem_append.mp hj with hj | hj
    · rw [mem_addDependent (hne j hj)]
      rw [arrive_inst (hne j hj)] at hwait
      exact h.waits j hj ((arrive_speculative (hne j hj)).mp hspec) hwait b hb hlt
    · have hji := List.mem_singleton.mp hj
      rw [hji] at hspec hwait ⊢
      rw [Speculative, arrive_inst_self] at hspec
      rw [arrive_inst_self] at hwait
      rw [Dependents.addDependent, if_pos (hw hspec hwait b hb)]
      exact List.mem_append_right _ (List.mem_singleton_self i)

theorem ReadiedOk.arrive (hl : s.Listed) (h : s.ReadiedOk) (hi : s.youngest < i) :
    (s.arrive i w r ps depPred).ReadiedOk := by
  refine h.grow rfl ?_ rfl (fun j hj hspec => ?_) (Nat.le_of_lt hi) fun j hj => ?_
  · refine (List.filter_eq_self.mpr fun j hj => ?_).symm
    exact decide_eq_true (List.mem_append_left _ (h.replayed j hj).1)
  · rcases List.mem_append.mp hj with hj | hj
    · have hne : j ≠ i := Nat.ne_of_lt (Nat.lt_of_le_of_lt (hl.bound j hj) hi)
      refine .inl ⟨hj, (arrive_speculative hne).mp hspec, ?_⟩
      have hzero : (if r = true ∧ ps = [] then [i] else []).count j = 0 := by
        split <;> simp [Ne.symm hne]
      rw [hzero, Nat.zero_add, canIssue, canIssue, arrive_entry hne]
    · rw [List.mem_singleton.mp hj]
      refine .inr ⟨hi, ?_⟩
      rw [canIssue, arrive_entry_self]
      simp only [List.length_eq_zero_iff]
      split <;> simp
  · split at hj
    · exact Nat.le_of_eq (List.mem_singleton.mp hj)
    · exact absurd hj List.not_mem_nil

/-- The predictor may have taken the instruction for the last store of its set. -/
structure Fetched (cfg : StoreSetParams) (s : MemDepUnit) (i : Nat) (w : MemDepInst)
    (depPred : StoreSet) : Prop where
  inv : depPred.Inv cfg i
  LFST : ∀ ssid, depPred.LFST ssid = s.depPred.LFST ssid ∨
    depPred.LFST ssid = i ∧ (w.isStore || w.isAtomic) = true

theorem Inv.arrive (h : s.Inv cfg) (hi : s.youngest < i) (hps : s.Producers w ps)
    (hpred : s.Fetched cfg i w depPred) : (s.arrive i w r ps depPred).Inv cfg where
  listed := h.listed.arrive hi
  counted := h.counted.arrive h.listed hi hps
  loads := h.loads.arrive h.listed hi hps.loads
  stores := h.stores.arrive h.listed hi hps.stores
  readied := h.readied.arrive h.listed hi
  predictor := by
    refine ⟨hpred.inv, fun ssid hs => ?_⟩
    change depPred.LFST ssid ∈ s.instList ++ [i] at hs
    change ((inst _ (depPred.LFST ssid)).isStore || (inst _ (depPred.LFST ssid)).isAtomic) = true
    rcases hpred.LFST ssid with hold | ⟨hnew, hstore⟩
    · have hlt : depPred.LFST ssid < i := by
        rw [hold]
        exact Nat.lt_of_le_of_lt (h.predictor.inv.fetched ssid) hi
      have hmem : depPred.LFST ssid ∈ s.instList := by simpa [Nat.ne_of_lt hlt] using hs
      rw [arrive_inst (Nat.ne_of_lt hlt)]
      rw [hold] at hmem ⊢
      exact h.predictor.stores ssid hmem
    · rw [hnew, arrive_inst_self, hstore]

theorem Producers.none (h : w.insertKind ≠ .insert) : s.Producers w [] :=
  ⟨.nil, fun _ hp => absurd hp List.not_mem_nil, fun hk => absurd hk h, fun hk => absurd hk h⟩

/-- The barriers that are outstanding are in the unit, and so the instruction waits for them all; a
store that the predictor says may have left. -/
theorem producingStores_spec {u : MemDepUnit} (hcfg : cfg.Valid) (h : s.Inv cfg)
    (hi : s.youngest < i) (hatomic : w.insertKind = .insert → w.isAtomic = false)
    (hinst : u.inst i = w) (hl : u.loadBarrierSNs = s.loadBarrierSNs)
    (hs : u.storeBarrierSNs = s.storeBarrierSNs) (hp : u.depPred = s.depPred) :
    ∃ producing, u.producingStores cfg i = some producing ∧
      s.Producers w (producing.filter (· ∈ i :: s.memDepHash)) := by
  have hin : ∀ p, p ∈ s.instList → p ∈ i :: s.memDepHash := fun p hp =>
    List.mem_cons_of_mem i (h.listed.mem_hash.mpr hp)
  have hfilter : ∀ l : List Nat, (∀ b ∈ l, b ∈ s.instList) → l.filter (· ∈ i :: s.memDepHash) = l :=
    fun l hsub => List.filter_eq_self.mpr fun b hb => decide_eq_true (hin b (hsub b hb))
  have hloads : ∀ b ∈ s.loadBarrierSNs, b ∈ s.instList := fun b hb =>
    ((h.loads.outstanding b).mp hb).1
  have hstores : ∀ b ∈ s.storeBarrierSNs, b ∈ s.instList := fun b hb =>
    ((h.stores.outstanding b).mp hb).1
  simp only [producingStores, hinst, hl, hs, hp]
  by_cases hload : ((w.isLoad || w.isAtomic) && !s.loadBarrierSNs.isEmpty) = true
  · rw [if_pos hload]
    refine ⟨_, rfl, ?_⟩
    rw [hfilter _ hloads]
    refine ⟨h.loads.nodup, fun b hb => ⟨hloads b hb, ?_⟩, fun _ _ b hb => hb, fun hk hw b hb => ?_⟩
    · have := ((h.loads.outstanding b).mp hb).2
      simp only [MemDepInst.loadBarrier, Bool.or_eq_true] at this
      simp only [MemDepInst.hasDependents, Bool.or_eq_true]
      exact this.elim (fun hr => .inl (.inl (.inr hr))) .inr
    · -- then it is no load
      simp only [waitsForStores, Bool.and_eq_true, Bool.not_eq_true'] at hw
      simp [hw.2, hatomic hk] at hload
  · rw [if_neg hload]
    have hnoload : w.insertKind = .insert → waitsForLoads w = true → s.loadBarrierSNs = [] := by
      intro _ hw
      rw [waitsForLoads] at hw
      simpa [hw] using hload
    by_cases hstore : ((w.isStore || w.isAtomic) && !s.storeBarrierSNs.isEmpty) = true
    · rw [if_pos hstore]
      refine ⟨_, rfl, ?_⟩
      rw [hfilter _ hstores]
      refine ⟨h.stores.nodup, fun b hb => ⟨hstores b hb, ?_⟩, fun hk hw b hb => ?_,
        fun _ _ b hb => hb⟩
      · have := ((h.stores.outstanding b).mp hb).2
        simp only [MemDepInst.storeBarrier, Bool.or_eq_true] at this
        simp only [MemDepInst.hasDependents, Bool.or_eq_true]
        exact this.elim (fun hr => .inl (.inr hr)) .inr
      · rw [hnoload hk hw] at hb
        exact absurd hb List.not_mem_nil
    · rw [if_neg hstore]
      obtain ⟨dep, hdep, hlfst⟩ := @StoreSet.checkInst_spec _ _ _ w.pc hcfg h.predictor.inv
      rw [hdep]
      refine ⟨_, rfl, ?_, fun b hb => ?_, fun hk hw b hb => ?_, fun hk hw b hb => ?_⟩
      · refine List.Nodup.filter _ ?_
        split
        · exact List.nodup_singleton dep
        · exact .nil
      · obtain ⟨hb, hlive⟩ := List.mem_filter.mp hb
        split at hb
        · next hne =>
          obtain ⟨ssid, rfl⟩ := hlfst hne
          obtain rfl := List.mem_singleton.mp hb
          have hlt : s.depPred.LFST ssid ≠ i :=
            Nat.ne_of_lt (Nat.lt_of_le_of_lt (h.predictor.inv.fetched ssid) hi)
          have hmem : s.depPred.LFST ssid ∈ s.instList := by
            rw [← h.listed.mem_hash]
            simpa [hlt] using hlive
          refine ⟨hmem, ?_⟩
          have := h.predictor.stores ssid hmem
          rw [Bool.or_eq_true] at this
          simp only [MemDepInst.hasDependents, Bool.or_eq_true]
          exact .inl (.inl (.inl this))
        · exact absurd hb List.not_mem_nil
      · rw [hnoload hk hw] at hb
        exact absurd hb List.not_mem_nil
      · simp only [waitsForStores, Bool.and_eq_true, Bool.not_eq_true'] at hw
        have hnil : s.storeBarrierSNs = [] := by simpa [hw.1] using hstore
        rw [hnil] at hb
        exact absurd hb List.not_mem_nil

theorem foldl_addDependents (hps : ps.Nodup) :
    ps.foldl (fun s p => s.modifyEntry p fun e =>
      { e with dependInsts := e.dependInsts ++ [i] }) s = { s with
        entry := fun p =>
          { s.entry p with dependInsts := Dependents.addDependent s.deps ps i p } } := by
  induction ps generalizing s with
  | nil => rfl
  | cons q ps ih =>
    obtain ⟨hnot, hps⟩ := List.nodup_cons.mp hps
    rw [List.foldl_cons, ih hps]
    simp only [modifyEntry]
    congr 1
    funext p
    by_cases hp : p = q
    · subst hp
      simp [Dependents.addDependent, deps, hnot]
    · simp [Dependents.addDependent, deps, hp]

theorem insertEntry_inst : (s.insertEntry i w).inst i = w := by
  simp only [inst, insertEntry, Function.update_self]

/-- With `insertBarrierSN`, the instruction has arrived. -/
theorem dependOn_eq (hps : ps.Nodup) (hi : i ∉ ps) :
    ((insertEntry { s with youngest := i } i w).dependOn i r ps).map (·.insertBarrierSN i) =
      some (s.arrive i w r ps s.depPred) := by
  let u := insertEntry { s with youngest := i } i w
  let v : MemDepUnit := { u with
    entry := Function.update s.entry i { inst := w, regsReady := r } }
  have hregs : (if r = true then u.modifyEntry i fun e => { e with regsReady := true } else u) =
      v := by
    cases r <;> simp [v, u, modifyEntry, insertEntry]
  let x : MemDepUnit := { v with
    entry := (s.arrive i w r ps s.depPred).entry
    readied := s.readied ++ if r = true ∧ ps = [] then [i] else [] }
  have hmid : u.dependOn i r ps = some x := by
    rw [dependOn, hregs]
    by_cases hnil : ps = []
    · have hentry : v.entry = (s.arrive i w r ps s.depPred).entry := by
        funext p
        by_cases hp : p = i
        · rw [hp, arrive_entry_self]
          simp [v, hnil]
        · rw [arrive_entry hp]
          simp [v, hnil, hp, Dependents.addDependent, deps]
      have hv : (v.entry i).squashed = false := by simp [v]
      have hx : x = { v with readied := s.readied ++ if r = true ∧ ps = [] then [i] else [] } := by
        simp only [x]
        rw [← hentry]
      rw [if_pos hnil, hx]
      cases r with
      | true =>
        rw [if_pos rfl, moveToReady_eq hv, if_pos ⟨rfl, hnil⟩]
        rfl
      | false =>
        rw [if_neg (by decide), if_neg (by simp), List.append_nil]
        rfl
    · rw [if_neg hnil, addDependents, foldl_addDependents hps]
      simp only [x, hnil, and_false, if_false, List.append_nil, modifyEntry]
      congr 2
      funext p
      by_cases hp : p = i
      · rw [hp, arrive_entry_self, Function.update_self]
        simp [v, Dependents.addDependent, hi, deps]
      · rw [arrive_entry hp, Function.update_of_ne hp]
        simp [v, hp, Dependents.addDependent, deps]
  have hw : x.inst i = w := @arrive_inst_self s i w r ps s.depPred
  change (u.dependOn i r ps).map _ = _
  rw [hmid, Option.map_some, insertBarrierSN, hw]
  rfl

theorem insertStore_spec (hcfg : cfg.Valid) (h : s.Inv cfg) (hi : s.youngest < i)
    (hw : w.isMemRef = true) :
    ∃ depPred, (s.arrive i w r ps s.depPred).insertStore cfg i =
      some (s.arrive i w r ps depPred) ∧ s.Fetched cfg i w depPred := by
  rw [insertStore, arrive_inst_self]
  by_cases hstore : (w.isStore || w.isAtomic) = true
  · obtain ⟨depPred, heq, hinv, hlfst⟩ :=
      @StoreSet.insertStore_spec _ _ _ _ w.pc hcfg h.predictor.inv hi
    rw [if_pos hstore]
    change ∃ depPred, (s.depPred.insertStore cfg w.pc i).map _ = _ ∧ _
    rw [heq]
    exact ⟨depPred, rfl, hinv, fun ssid => (hlfst ssid).imp_right fun hn => ⟨hn, hstore⟩⟩
  · have hload : w.isLoad = true := by
      simp only [QueueFlags.isMemRef, Bool.or_eq_true, not_or] at hw hstore
      exact (hw.resolve_right hstore.2).resolve_right hstore.1
    rw [if_neg hstore, if_pos hload]
    exact ⟨s.depPred, rfl, h.predictor.inv.mono (Nat.le_of_lt hi), fun _ => .inl rfl⟩

theorem insert_spec (hcfg : cfg.Valid) (h : s.Inv cfg) (hi : s.youngest < i)
    (hatomic : w.isAtomic = false) (hw : w.isMemRef = true) :
    ∃ t, insert cfg { s with youngest := i } i w r = some t ∧ t.Inv cfg := by
  let u := insertEntry { s with youngest := i } i w
  obtain ⟨producing, hproducing, hps⟩ := @producingStores_spec cfg s i w u hcfg h hi
    (fun _ => hatomic) insertEntry_inst rfl rfl rfl
  let ps := producing.filter (· ∈ i :: s.memDepHash)
  have hnot : i ∉ ps := fun hmem =>
    absurd (h.listed.bound i (hps.live i hmem).1) (Nat.not_le_of_lt hi)
  obtain ⟨depPred, hstore, hpred⟩ := @insertStore_spec cfg s i w r ps hcfg h hi hw
  refine ⟨s.arrive i w r ps depPred, ?_, h.arrive hi hps hpred⟩
  have hmid := @dependOn_eq s i w r ps hps.nodup hnot
  obtain ⟨x, hx, harrive⟩ := Option.map_eq_some_iff.mp hmid
  have hinsert : insert cfg { s with youngest := i } i w r =
      (u.producingStores cfg i).bind fun producing =>
        (u.dependOn i r (producing.filter (· ∈ u.memDepHash))).bind fun x =>
          (x.insertBarrierSN i).insertStore cfg i := rfl
  rw [hinsert, hproducing, Option.bind_some]
  change (u.dependOn i r ps).bind _ = _
  rw [hx, Option.bind_some, harrive, hstore]

/-- Nothing is waited for. -/
theorem insertBarrier_eq : insertBarrier { s with youngest := i } i w =
    s.arrive i w false [] s.depPred := by
  have hmid := @dependOn_eq s i w false [] .nil List.not_mem_nil
  exact Option.some.inj hmid

/-- Nothing is inserted. -/
theorem Inv.later (h : s.Inv cfg) (hn : s.youngest ≤ n) :
    ({ s with youngest := n } : MemDepUnit).Inv cfg where
  listed := ⟨h.listed.sorted, h.listed.hash, fun i hi => Nat.le_trans (h.listed.bound i hi) hn,
    h.listed.alive⟩
  counted := ⟨fun p hp i hi => by
    obtain ⟨hlt, hle, hd⟩ := h.counted.dependents p hp i hi
    exact ⟨hlt, Nat.le_trans hle hn, hd⟩, h.counted.memDeps, h.counted.atLeast⟩
  loads := ⟨h.loads.nodup, h.loads.outstanding, h.loads.waits⟩
  stores := ⟨h.stores.nodup, h.stores.outstanding, h.stores.waits⟩
  readied := ⟨h.readied.readied, h.readied.counted, h.readied.replayed,
    fun i hi => Nat.le_trans (h.readied.seen i hi) hn⟩
  predictor := ⟨h.predictor.inv.mono hn, h.predictor.stores⟩

theorem isAtomic_eq_false (h : w.insertKind = .insert) : w.isAtomic = false := by
  cases hw : w.isAtomic with
  | false => rfl
  | true => simp [QueueFlags.insertKind, hw] at h

/-- A barrier that is inserted as such is no memory instruction. -/
theorem isMemRef_eq_false (h : w.insertKind = .insertBarrier) : w.isMemRef = false := by
  rw [QueueFlags.insertKind] at h
  split at h
  · cases h
  · next ha =>
    split at h
    · split at h <;> cases h
    · next hl =>
      split at h
      · split at h
        · cases h
        · split at h <;> cases h
      · next hs => simp [QueueFlags.isMemRef, ha, hl, hs]

theorem dispatch_spec (hcfg : cfg.Valid) (h : s.Inv cfg) (hop : s.Allowed (.dispatch i w r)) :
    ∃ t, s.dispatch cfg i w r = some t ∧ t.Inv cfg := by
  have hi : s.youngest < i := hop
  have hskip : ({ s with youngest := i } : MemDepUnit).Inv cfg := h.later (Nat.le_of_lt hi)
  rw [dispatch]
  cases hkind : w.insertKind with
  | insert =>
    cases hw : w.isMemRef with
    | true => exact insert_spec hcfg h hi (isAtomic_eq_false hkind) hw
    | false => exact ⟨_, rfl, hskip⟩
  | insertNonSpec =>
    cases hw : w.isMemRef with
    | true =>
      obtain ⟨depPred, hstore, hpred⟩ := @insertStore_spec cfg s i w false [] hcfg h hi hw
      refine ⟨s.arrive i w false [] depPred, ?_, h.arrive hi (.none (by simp [hkind])) hpred⟩
      change (insertBarrier { s with youngest := i } i w).insertStore cfg i = _
      rw [insertBarrier_eq, hstore]
    | false => exact ⟨_, rfl, hskip⟩
  | insertBarrier =>
    have hw := isMemRef_eq_false hkind
    simp only [hw, Bool.false_eq_true, if_false, insertBarrier_eq]
    exact ⟨_, rfl, h.arrive hi (.none (by simp [hkind]))
      ⟨h.predictor.inv.mono (Nat.le_of_lt hi), fun _ => .inl rfl⟩⟩
  | recordProducer => exact ⟨_, rfl, hskip⟩

end Dispatch

section Runs

variable {ops : List MemDepOp} {op : MemDepOp} {s' : MemDepUnit} {b : Nat}

theorem Inv.withPredictor {depPred : StoreSet} (h : s.Inv cfg) (hinv : depPred.Inv cfg s.youngest)
    (hlfst : depPred.LFST = s.depPred.LFST) : ({ s with depPred } : MemDepUnit).Inv cfg where
  listed := ⟨h.listed.sorted, h.listed.hash, h.listed.bound, h.listed.alive⟩
  counted := ⟨h.counted.dependents, h.counted.memDeps, h.counted.atLeast⟩
  loads := ⟨h.loads.nodup, h.loads.outstanding, h.loads.waits⟩
  stores := ⟨h.stores.nodup, h.stores.outstanding, h.stores.waits⟩
  readied := ⟨h.readied.readied, h.readied.counted, h.readied.replayed, h.readied.seen⟩
  predictor := ⟨hinv, fun ssid hs => by
    change depPred.LFST ssid ∈ s.instList at hs
    change ((s.inst (depPred.LFST ssid)).isStore || (s.inst (depPred.LFST ssid)).isAtomic) = true
    rw [hlfst] at hs ⊢
    exact h.predictor.stores ssid hs⟩

/-- No operation fails that is allowed, and each keeps the invariant. -/
theorem step_spec (hcfg : cfg.Valid) (h : s.Inv cfg) (hop : s.Allowed op) :
    ∃ t, s.step cfg op = some t ∧ t.Inv cfg := by
  cases op with
  | dispatch i inst readyToIssue => exact dispatch_spec hcfg h hop
  | regsReady i => exact regsReady_spec h hop
  | nonSpecInstReady i => exact nonSpecInstReady_spec h hop
  | reschedule i => exact ⟨_, rfl, reschedule_inv h hop⟩
  | replay => exact replay_spec h
  | issue i =>
    obtain ⟨depPred, heq, hinv, hlfst⟩ := StoreSet.issued_spec hcfg h.predictor.inv
    refine ⟨{ s with depPred }, ?_, h.withPredictor hinv hlfst⟩
    rw [step, heq]
    rfl
  | completeInst i => exact completeInst_spec h hop
  | violation storePC loadPC =>
    obtain ⟨depPred, heq, hinv, hlfst, -⟩ := StoreSet.violation_spec hcfg h.predictor.inv
    refine ⟨{ s with depPred }, ?_, h.withPredictor hinv hlfst⟩
    rw [step, heq]
    rfl
  | squash n => exact squash_spec n h

theorem reaches_inv (hcfg : cfg.Valid) (h : (system cfg).Reaches ops s) : s.Inv cfg := by
  refine h.invariant (fun s hs => ?_) fun s op u hs hstep => ?_
  · cases hs
    exact inv_init
  · obtain ⟨t, ht, hinv⟩ := step_spec hcfg hs hstep.1
    rw [hstep.2] at ht
    cases ht
    exact hinv

/-- In every run each instruction that is looked for is in the hash, no count gets below zero, no
squashed instruction gets ready, and the walk over the stores of the predictor ends. -/
theorem memOps_never_fail (hcfg : cfg.Valid) (h : (system cfg).Reaches ops s)
    (hop : s.Allowed op) : ∃ t, s.step cfg op = some t := by
  obtain ⟨t, ht, -⟩ := step_spec hcfg (reaches_inv hcfg h) hop
  exact ⟨t, ht⟩

theorem Inv.canIssue_eq_one_iff (h : s.Inv cfg) (hi : i ∈ s.instList) :
    s.canIssue i = 1 ↔ (s.entry i).regsReady = true ∧ ∀ p ∈ s.instList, i ∉ s.deps p := by
  rw [canIssue, ← h.memDeps_eq_zero_iff hi]
  split <;> simp_all

/-- An instruction of the unit is ready when its registers are and it is a dependent of no other
instruction of the unit, which is always an older one. It is handed on then, and once more for each
time that it was to be executed again. -/
theorem memOp_readied_iff (hcfg : cfg.Valid) (h : (system cfg).Reaches ops s)
    (hi : i ∈ s.instList) (hspec : s.Speculative i) :
    (i ∈ s.readied ↔ (s.entry i).regsReady = true ∧ ∀ p ∈ s.instList, i ∉ s.deps p) ∧
      (s.readied.count i + s.instsToReplay.count i =
        s.rescheduled.count i + if i ∈ s.readied then 1 else 0) ∧
      (∀ p ∈ s.instList, i ∈ s.deps p → p < i) ∧
      ((s.entry i).regsReady = true → (∀ p ∈ s.instList, i ≤ p) → i ∈ s.readied) := by
  have hinv := reaches_inv hcfg h
  have hone := hinv.canIssue_eq_one_iff hi
  have hready := hinv.readied.readied i hi hspec
  have holder : ∀ p ∈ s.instList, i ∈ s.deps p → p < i := fun p hp hmem =>
    (hinv.counted.dependents p hp i hmem).1
  refine ⟨hready.trans hone, ?_, holder, fun hregs hold => ?_⟩
  · rw [hinv.readied.counted i hi hspec, if_congr hready rfl rfl]
    have hle : s.canIssue i ≤ 1 := by
      rw [canIssue]
      split <;> omega
    split <;> omega
  · refine (hready.trans hone).mpr ⟨hregs, fun p hp hmem => ?_⟩
    exact absurd (holder p hp hmem) (Nat.not_lt_of_le (hold p hp))

/-- A load that is ready has no older read barrier before it in the unit, and a store no older write
barrier. -/
theorem waits_for_barriers (hcfg : cfg.Valid) (h : (system cfg).Reaches ops s)
    (hi : i ∈ s.instList) (hspec : s.Speculative i) (hready : i ∈ s.readied)
    (hb : b ∈ s.instList) (hlt : b < i) :
    ((s.inst i).isLoad = true → (s.inst b).loadBarrier = false) ∧
      ((s.inst i).isStore = true → (s.inst i).isLoad = false →
        (s.inst b).storeBarrier = false) := by
  have hinv := reaches_inv hcfg h
  have hone := (hinv.readied.readied i hi hspec).mp hready
  have hnone := ((hinv.canIssue_eq_one_iff hi).mp hone).2 b hb
  refine ⟨fun hload => ?_, fun hstore hload => ?_⟩
  · by_contra hbarrier
    have hmem := (hinv.loads.outstanding b).mpr ⟨hb, by simpa using hbarrier⟩
    exact hnone (hinv.loads.waits i hi hspec hload b hmem hlt)
  · by_contra hbarrier
    have hmem := (hinv.stores.outstanding b).mpr ⟨hb, by simpa using hbarrier⟩
    exact hnone (hinv.stores.waits i hi hspec (by simp [waitsForStores, hstore, hload]) b hmem hlt)

/-- A squash ends, and just the younger instructions are gone: from the unit, from those to be
replayed, from the barriers, and from the stores of the predictor, with the last store of each of
their sets. -/
theorem squash_forgets (hcfg : cfg.Valid) (h : (system cfg).Reaches ops s) (n : Nat) :
    ∃ t, s.step cfg (.squash n) = some t ∧ t.instList = s.instList.filter (· ≤ n) ∧
      (∀ i, i ∈ t.memDepHash ↔ i ∈ s.memDepHash ∧ i ≤ n) ∧
      t.instsToReplay = s.instsToReplay.filter (· ≤ n) ∧
      t.loadBarrierSNs = s.loadBarrierSNs.filter (· ≤ n) ∧
      t.storeBarrierSNs = s.storeBarrierSNs.filter (· ≤ n) ∧
      t.depPred.storeList = s.depPred.storeList.filter (·.1 ≤ n) ∧
      (∀ ssid, t.depPred.validLFST ssid = (s.depPred.validLFST ssid &&
        s.depPred.storeList.all fun e => e.1 ≤ n || e.2 ≠ ssid)) ∧
      t.readied = s.readied := by
  have hinv := reaches_inv hcfg h
  obtain ⟨depPred, hpred, -, -, heq⟩ := @squash_eq cfg s n hinv
  obtain ⟨depPred', hpred', -, -, hstores, hvalid⟩ :=
    @StoreSet.squash_spec cfg s.depPred s.youngest n hinv.predictor.inv
  obtain rfl : depPred = depPred' := by
    rw [hpred, Option.some.injEq] at hpred'
    exact hpred'
  refine ⟨_, heq, rfl, fun i => ?_, ?_, rfl, rfl, hstores, hvalid, rfl⟩
  · change i ∈ s.memDepHash.filter (· ≤ n) ↔ _
    rw [List.mem_filter, decide_eq_true_eq]
  · exact List.filter_congr fun i _ => by simp [← decide_not]

theorem tryStep_step (h : tryStep cfg s op = some t) : (system cfg).step s op t := by
  rw [tryStep] at h
  split at h
  · exact ⟨‹_›, h⟩
  · cases h

/-! A store, a read barrier, and a load that waits for the barrier. -/

def smallTables : StoreSetParams := ⟨1000, 4, 4⟩

theorem smallTables_valid : smallTables.Valid := ⟨by decide, by decide⟩

def barrierLoad : List MemDepOp :=
  [.dispatch 1 { isStore := true } true, .dispatch 2 { isReadBarrier := true } false,
    .dispatch 3 { isLoad := true } true, .nonSpecInstReady 2, .completeInst 2]

theorem barrierLoad_reaches : ∃ s, (system smallTables).Reaches barrierLoad s ∧
    s.instList = [1, 3] ∧ s.Speculative 3 ∧ 3 ∈ s.readied ∧ (s.inst 3).isLoad = true := by
  have hrun : ((barrierLoad.foldlM (tryStep smallTables) {}).map fun s =>
      decide (s.instList = [1, 3] ∧ s.Speculative 3 ∧ 3 ∈ s.readied ∧
        (s.inst 3).isLoad = true)) = some true := by decide
  obtain ⟨s, hs, hfacts⟩ := Option.map_eq_some_iff.mp hrun
  exact ⟨s, ⟨_, rfl, Transition.System.Run.of_foldlM (fun _ _ _ => tryStep_step) hs⟩,
    of_decide_eq_true hfacts⟩

theorem memOps_never_fail_barrierLoad : ∃ s, (system smallTables).Reaches barrierLoad s ∧
    ∃ t, s.step smallTables (.squash 1) = some t := by
  obtain ⟨s, hs, -⟩ := barrierLoad_reaches
  exact ⟨s, hs, memOps_never_fail smallTables_valid hs trivial⟩

theorem memOp_readied_iff_barrierLoad : ∃ s, (system smallTables).Reaches barrierLoad s ∧
    (s.entry 3).regsReady = true ∧ ∀ p ∈ s.instList, 3 ∉ s.deps p := by
  obtain ⟨s, hs, hlist, hspec, hready, -⟩ := barrierLoad_reaches
  exact ⟨s, hs, (memOp_readied_iff smallTables_valid hs (by simp [hlist]) hspec).1.mp hready⟩

theorem waits_for_barriers_barrierLoad : ∃ s, (system smallTables).Reaches barrierLoad s ∧
    (s.inst 1).loadBarrier = false := by
  obtain ⟨s, hs, hlist, hspec, hready, hload⟩ := barrierLoad_reaches
  exact ⟨s, hs, (waits_for_barriers smallTables_valid hs (by simp [hlist]) hspec hready
    (show 1 ∈ s.instList by simp [hlist]) (by decide)).1 hload⟩

theorem squash_forgets_barrierLoad : ∃ s t, (system smallTables).Reaches barrierLoad s ∧
    s.step smallTables (.squash 1) = some t ∧ t.instList = [1] := by
  obtain ⟨s, hs, hlist, -⟩ := barrierLoad_reaches
  obtain ⟨t, ht, htlist, -⟩ := squash_forgets smallTables_valid hs 1
  exact ⟨s, t, hs, ht, by rw [htlist, hlist]; rfl⟩

end Runs

end MemDepUnit
end Runahead
end Gem5
