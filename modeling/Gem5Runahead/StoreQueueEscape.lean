import Gem5Runahead.StoreQueueProgress

/-!
# StoreQueueEscape

What leaves the unit during runahead. A store whose instruction is marked writes to the runahead
cache only, in every run in which no marked store with a local-access request is written back
(`LocalFree`); and what was committed before the mode was entered goes to memory, as no store is
lost.

* `committed_reaches_memory` — a store that committed outside runahead waits until it is written
  to memory.
* `stores_confined` — the two together, over whole runs, and a way on to memory.
* `escapes` — a round outside `LocalFree` calls the local accessor for a marked store.
-/

namespace Gem5
namespace Runahead
namespace LSQUnit

variable {cfg : LSQParams} {env : Answers} {s s' t : LSQUnit} {idx : Nat} {e : SQEntry}
  {r r' : LSQRequest} {goOn : Bool} {l : List Op}

section Runs

/-- No store is skipped, and no marked store is written back by its local accessor. -/
def Confines (cfg : LSQParams) (s : LSQUnit) (op : Op) : Prop :=
  PortFree cfg s op ∧ s.LocalFree op

instance (cfg : LSQParams) (s : LSQUnit) (op : Op) : Decidable (Confines cfg s op) :=
  inferInstanceAs (Decidable (_ ∧ _))

theorem Confines.portFree (s : LSQUnit) (op : Op) (h : Confines cfg s op) : PortFree cfg s op :=
  h.1

/-- An effect is never taken back. -/
theorem Ready.run_effects (h : Ready cfg s) (hrun : (unskipped cfg).Run s l s') {x : Effect}
    (hx : x ∈ s.effects) : x ∈ s'.effects := by
  induction hrun with
  | nil => exact hx
  | snoc hrun hst ih =>
    have hr := h.run hrun
    obtain ⟨⟨hleg, hst⟩, -⟩ := hst
    exact (step_confined hr.confined hr.inv hleg hst).2.1.subset ih

/-- The store of instruction `i` with request `r` has been written to memory: all its packets to
the D-cache, or by its local accessor; or it is a store conditional, and failed. -/
def InMemory (s : LSQUnit) (i : Nat) (r : LSQRequest) : Prop :=
  (∀ k < r.numPackets, .dcacheWrite i k ∈ s.effects) ∨
    r.isLocalAccess = true ∧ .localAccess i ∈ s.effects ∨
    (s.insts i).isStoreConditional = true ∧ .storeConditionalFailed i ∈ s.effects

/-- A store that committed outside runahead and waits is never written to the runahead cache, and
waits until it is written to memory. -/
theorem committed_reaches_memory (h : Ready cfg s) (hrun : (unskipped cfg).Run s l s')
    (hget : s.storeQueue.get? idx = some e) (hcom : (s.insts e.inst).committed = true)
    (hmode : (s.insts e.inst).runahead = false) (hdata : s.CarriesData e)
    (hle : s.storeWBIt ≤ idx) (hreq : e.request = some r) :
    (∀ k, .rcacheWrite e.inst k ∉ s'.effects) ∧
      ((s'.storeWBIt ≤ idx ∧ ∃ e', s'.storeQueue.get? idx = some e' ∧ Keeps e e') ∨
        s'.InMemory e.inst r) := by
  have hbelow := h.inv.below idx e hget
  obtain ⟨hi, -⟩ := h.inv.run_insts (fun _ _ => id) hrun hbelow
  refine ⟨fun k hmem => ?_, ?_⟩
  · have hmarked := ((h.run hrun).confined.marked e.inst k hmem).2
    rw [(hi.committed hcom).2, hmode] at hmarked
    cases hmarked
  rcases h.inv.waits_until_written (fun _ _ => id) hrun hget (.inr ⟨hcom, hmode⟩) hdata hle with
    hwait | ⟨l₁, s₁, op, s₂, l₂, e₁, r₁, hrun₁, hst, hrun₂, -, hk, -, hreq₁, hw⟩
  · exact .inl hwait
  -- the step that passed the store wrote it; its effects are still there
  have hrun₁₂ := hrun₁.trans (Transition.System.Run.single hst)
  have h₂ := h.run hrun₁₂
  have hkeep : ∀ x ∈ s₂.effects, x ∈ s'.effects := fun x hx => h₂.run_effects hrun₂ hx
  obtain ⟨hi₂, hbelow₂⟩ := h.inv.run_insts (fun _ _ => id) hrun₁₂ hbelow
  obtain ⟨r', hr', hnum, hloc⟩ := hk.request r hreq
  obtain rfl : r₁ = r' := Option.some.inj (hreq₁.symm.trans hr')
  refine .inr ?_
  rcases hw with ⟨e₂, r₂, hget₂, hinst₂, hreq₂, hsent⟩ | ⟨-, ⟨hfail, hsc⟩ | ⟨hacc, hl⟩⟩
  · refine .inl fun k hk' => hkeep _ ?_
    have hmode₂ : (s₂.insts e₂.inst).runahead = false := by
      rw [hinst₂, (hi₂.committed hcom).2, hmode]
    have hlogged := h₂.confined.logged idx e₂ r₂ hget₂ hreq₂ hmode₂ k (by omega)
    rw [hinst₂] at hlogged
    exact hlogged
  · refine .inr (.inr ⟨?_, hkeep _ hfail⟩)
    rw [hi.isStoreConditional, ← hi₂.isStoreConditional]
    exact hsc
  · exact .inr (.inl ⟨hloc.symm.trans hl, hkeep _ hacc⟩)

/-- A way on leads to where the store is written to memory. -/
theorem exists_inMemory (hports : 0 < cfg.cacheStorePorts) (h : Ready cfg s)
    (hrun : (unskipped cfg).Run s l s') (hget : s.storeQueue.get? idx = some e)
    (hcom : (s.insts e.inst).committed = true) (hmode : (s.insts e.inst).runahead = false)
    (hdata : s.CarriesData e) (hle : s.storeWBIt ≤ idx) (hreq : e.request = some r)
    (hopen : ¬ s'.HeldUp idx) :
    ∃ ls u, (calls cfg).Run s' ls u ∧ u.InMemory e.inst r ∧
      ∀ k, .rcacheWrite e.inst k ∉ u.effects := by
  have reaches := fun {l u} (hrun : (unskipped cfg).Run s l u) =>
    committed_reaches_memory h hrun hget hcom hmode hdata hle hreq
  obtain ⟨hno, ⟨-, e', hget', -⟩ | hmem⟩ := reaches hrun
  · obtain ⟨ls, u, hcalls, hpassed⟩ :=
      exists_passes hports (h.run hrun) (IndexedQueue.lt_of_get? hget').2 hopen
    obtain ⟨hno, ⟨hwait, -⟩ | hmem⟩ := reaches (hrun.trans (calls_run hcalls))
    · omega
    · exact ⟨ls, u, hcalls, hmem, hno⟩
  · exact ⟨[], s', .nil, hmem, hno⟩

/-- **Stores are confined.** In every run no step has an effect outside the runahead cache for a
marked store; and a store that had committed when the mode was entered, and waits, is not written
to the runahead cache, waits until it is written to memory, and if it is not held up a way on
leads there. -/
theorem stores_confined (h : ((system cfg).guard (Confines cfg)).Reaches l s) :
    (∀ op s', ((system cfg).guard (Confines cfg)).step s op s' → Emits s s') ∧
    ∀ t l' s' idx e r, ((system cfg).guard (Confines cfg)).step s .enterRunahead t →
      ((system cfg).guard (Confines cfg)).Run t l' s' → s.storeQueue.get? idx = some e →
      (s.insts e.inst).committed = true → (s.insts e.inst).runahead = false →
      s.CarriesData e → s.storeWBIt ≤ idx → e.request = some r →
      (∀ k, .rcacheWrite e.inst k ∉ s'.effects) ∧
        ((s'.storeWBIt ≤ idx ∧ ∃ e', s'.storeQueue.get? idx = some e' ∧ Keeps e e') ∨
          s'.InMemory e.inst r) ∧
        (0 < cfg.cacheStorePorts → ¬ s'.HeldUp idx →
          ∃ ls u, (calls cfg).Run s' ls u ∧ u.InMemory e.inst r ∧
            ∀ k, .rcacheWrite e.inst k ∉ u.effects) := by
  have hs := ready (h.guard_mono Confines.portFree)
  refine ⟨fun op s' hst => ?_, fun t l' s' idx e r hst hrun hget hcom hmode hdata hle hreq => ?_⟩
  · obtain ⟨⟨hleg, hst⟩, hg⟩ := hst
    exact (step_confined hs.confined hs.inv hleg hst).2.2 hg.2
  · have hrun' := ((Transition.System.Run.single hst).trans hrun).guard_mono Confines.portFree
    obtain ⟨hno, hwait⟩ := committed_reaches_memory hs hrun' hget hcom hmode hdata hle hreq
    exact ⟨hno, hwait, fun hports hopen =>
      exists_inMemory hports hs hrun' hget hcom hmode hdata hle hreq hopen⟩

/-- A store commits and waits. -/
def committedStore : List Op := [.insertStore 1 {}, .executeStore 0 8 {}, .retire 1]

/-- The mode is entered then, and a way on leads to where the store is in memory. -/
theorem stores_confined_committedStore : ∃ s t e r ls u,
    ((system ⟨false, 1⟩).guard (Confines ⟨false, 1⟩)).step s .enterRunahead t ∧
    s.storeQueue.get? 0 = some e ∧ s.storeWBIt = 0 ∧ (calls ⟨false, 1⟩).Run t ls u ∧
    u.InMemory e.inst r := by
  have hrun : (exec ⟨false, 1⟩ (Confines ⟨false, 1⟩) (fun _ => {}) committedStore).any (fun s =>
      decide (s.storeWBIt = 0 ∧ s.inRunahead = false ∧ ∃ e ∈ s.storeQueue.get? 0,
        (s.insts e.inst).committed = true ∧ (s.insts e.inst).runahead = false ∧ s.CarriesData e ∧
          e.request.isSome)) = true := by decide
  obtain ⟨s, hs, hwait⟩ := (Option.any_eq_true _ _).mp hrun
  obtain ⟨hwb, hnormal, e, hget, hcom, hmode, hdata, hsome⟩ := of_decide_eq_true hwait
  obtain ⟨r, hreq⟩ := Option.isSome_iff_exists.mp hsome
  have hst : ((system ⟨false, 1⟩).guard (Confines ⟨false, 1⟩)).step s .enterRunahead
      s.enterRunahead := ⟨⟨hnormal, rfl⟩, trivial, trivial⟩
  obtain ⟨-, -, hway⟩ := (stores_confined (exec_reaches hs)).2 _ [] _ 0 e r hst .nil hget hcom
    hmode hdata (Nat.le_of_eq hwb) hreq
  obtain ⟨ls, u, hcalls, hmem, -⟩ :=
    hway Nat.one_pos (by rintro ⟨k, -, -, j, -, -, hk, -, -, -, hj, -⟩; omega)
  exact ⟨s, _, e, r, ls, u, hst, hget, hwb, hcalls, hmem⟩

/-- A round outside `LocalFree` calls the local accessor for a marked store. -/
theorem escapes (hinv : Inv s) (hst : s.step cfg (.writebackIter env) = some s')
    (hbad : ¬ s.LocalFree (.writebackIter env)) : ¬ Emits s s' := by
  simp only [LocalFree, not_forall] at hbad
  obtain ⟨hblk, e, hget, hdata, hmode, hnsc, r, hreq, hord, hloc⟩ := hbad
  have hget : s.storeQueue.get? s.storeWBIt = some e := hget
  have hreq : e.request = some r := hreq
  obtain ⟨a, goOn, hat, -, hround⟩ := round_of_step hinv hst
  obtain rfl : e = a := Option.some.inj (hget.symm.trans hat)
  rintro ⟨new, hnew, hout⟩
  cases hround with
  | noPort _ hnormal =>
    rw [hmode] at hnormal
    cases hnormal
  | wait hwait =>
    rcases hwait with hb | ⟨r₁, hr₁, hord₁⟩
    · rw [hblk] at hb
      cases hb
    · rw [hreq] at hr₁
      cases hr₁
      rw [hord] at hord₁
      cases hord₁
  | empty _ hsize _ => exact hdata.1 hsize
  | prefetch _ hpre => exact hdata.not_prefetches hpre
  | @complete r₁ r' x t _ _ hr₁ hr' _ hx hco =>
    rcases hx with ⟨-, hsc⟩ | ⟨rfl, -, -⟩
    · rw [hnsc] at hsc
      cases hsc
    · have heff : s'.effects = s.effects ++ [.localAccess e.inst] := hco.effects
      rw [heff] at hnew
      have hx := List.append_cancel_left hnew
      have hno := hout (.localAccess e.inst) (hx ▸ List.mem_cons_self) e.inst rfl
      rw [hmode] at hno
      cases hno
  | send _ _ hr₁ _ hloc₁ _ =>
    rw [hreq] at hr₁
    cases hr₁
    exact hloc hloc₁

/-- A store with a local-access request is pseudo-retired and written back in runahead. -/
def localRunaheadStore : List Op :=
  [.enterRunahead, .insertStore 1 { runahead := true },
    .executeStore 0 8 { isLocalAccess := true, runahead := true }, .retire 1, .commitStores 1]

/-- The next round calls the local accessor for the marked store. -/
theorem runahead_store_escapes : ∃ s s' : LSQUnit,
    (system ⟨false, 1⟩).Reaches localRunaheadStore s ∧
    (system ⟨false, 1⟩).step s (.writebackIter accepting) s' ∧ ¬ Emits s s' := by
  have hrun : (exec ⟨false, 1⟩ (PortFree ⟨false, 1⟩) (fun _ => {}) localRunaheadStore).any (fun s =>
      decide (¬ s.LocalFree (.writebackIter accepting)) &&
        (s.step ⟨false, 1⟩ (.writebackIter accepting)).isSome) = true := by decide
  obtain ⟨s, hs, hlast⟩ := (Option.any_eq_true _ _).mp hrun
  rw [Bool.and_eq_true, decide_eq_true_eq] at hlast
  obtain ⟨hlocal, hsome⟩ := hlast
  obtain ⟨s', hs'⟩ := Option.isSome_iff_exists.mp hsome
  have hreach := exec_reaches hs
  exact ⟨s, s', hreach.of_guard, ⟨trivial, hs'⟩, escapes (ready hreach).inv hs' hlocal⟩

end Runs

end LSQUnit
end Runahead
end Gem5
