import Gem5Runahead.ArchCheckpoint
import Mathlib.Data.List.Nodup

/-!
# ArchRestore

A runahead period leaves the renamed registers as they were. Whatever is renamed, executed,
squashed or retired in it, the checkpoint taken at entry stays; and the restore does not look at
what the period left: it maps every architectural register afresh, to the physical register of
the same index, and loads the checkpoint.

* `fullSave_spec` — what the checkpoint holds.
* `Frame`, `Kept` — what a step, and so a whole period, leaves alone.
* `Remapped`, `remapAll_spec` — the maps, the free lists and the scoreboard set up anew.
* `restore_spec` — the values written back.
* `runahead_transparent` — the registers before and after a period.
-/

namespace Gem5
namespace Runahead
namespace RegState

variable {PC σ : Type} {cfg : RegParams} {isa : ISA σ} {s s' t : RegState PC σ}

theorem lookup_renamed (map : RegId → Option PhysRegId) {r : RegId}
    (h : r.cls ∈ RegClassType.renamed) : lookup map r = map r := by
  obtain ⟨c, i⟩ := r
  cases c <;> first | rfl | (simp [RegClassType.renamed] at h)

theorem isRenameable_renamed {r : RegId} (h : r.cls ∈ RegClassType.renamed) :
    r.isRenameable = true := by
  obtain ⟨c, i⟩ := r
  cases c <;> first | rfl | (simp [RegClassType.renamed] at h)

theorem checkpointed_nodup : RegClassType.checkpointed.Nodup := by decide

theorem renamed_nodup : RegClassType.renamed.Nodup := by decide

section Save

/-- The loop over the registers of a class saves their values, and lists their indices. -/
theorem saveRegs_spec {c : RegClassType} (hc : c ≠ .misc) {l : List Nat} {ck ck' : RegCheckpoint}
    (h : l.foldlM (s.saveReg isa c) ck = some ck') :
    ck'.validIdxs = ck.validIdxs ++ l ∧
      (∀ i ∈ l, s.getArchReg ⟨c, i⟩ = some (ck'.values i)) ∧
      ∀ i ∉ l, ck'.values i = ck.values i := by
  induction l generalizing ck with
  | nil =>
    cases h
    exact ⟨(List.append_nil _).symm, fun _ hi => absurd hi List.not_mem_nil, fun _ _ => rfl⟩
  | cons a l ih =>
    rw [List.foldlM_cons] at h
    obtain ⟨ck₁, h₁, h⟩ := Option.bind_eq_some_iff.mp h
    simp only [saveReg, hc, decide_false, Bool.false_and, Bool.false_eq_true, if_false,
      Option.bind_eq_bind] at h₁
    obtain ⟨val, hval, h₁⟩ := Option.bind_eq_some_iff.mp h₁
    cases h₁
    obtain ⟨hidx, hin, hout⟩ := ih h
    refine ⟨by rw [hidx, List.append_assoc, List.singleton_append], fun i hi => ?_, fun i hi => ?_⟩
    · by_cases hl : i ∈ l
      · exact hin i hl
      · rcases List.mem_cons.mp hi with rfl | hi
        · have hset := (hout i hl).trans (Function.update_self i val ck.values)
          rw [hset, hval]
        · exact absurd hi hl
    · rw [List.mem_cons, not_or] at hi
      exact (hout i hi.2).trans (Function.update_of_ne hi.1 val ck.values)

/-- The checkpoint holds the value of every register of the class. -/
structure Saved (cfg : RegParams) (s : RegState PC σ) (c : RegClassType) (ck : RegCheckpoint) :
    Prop where
  validIdxs : ck.validIdxs = List.range (cfg.numArch c)
  values : ∀ i < cfg.numArch c, s.getArchReg ⟨c, i⟩ = some (ck.values i)

theorem fullSave_spec (h : s.fullSave cfg isa = some s') :
    (∃ cks, s' = { s with registerCheckpoints := cks }) ∧
      ∀ c ∈ RegClassType.renamed, unsaved c = false →
        Saved cfg s c (s'.registerCheckpoints c) := by
  simp only [fullSave, Option.bind_eq_bind] at h
  obtain ⟨cks, hcks, h⟩ := Option.bind_eq_some_iff.mp h
  cases h
  refine ⟨⟨cks, rfl⟩, fun c hc hsaved => ?_⟩
  have hne : c ≠ .misc := by
    rintro rfl
    simp [RegClassType.renamed] at hc
  have hclass := updateEach_mem hcks checkpointed_nodup (List.mem_append_left _ hc)
  simp only [saveClass, hsaved, Bool.false_eq_true, if_false] at hclass
  obtain ⟨hidx, hval, -⟩ := saveRegs_spec hne hclass
  exact ⟨by simpa using hidx, fun i hi => hval i (List.mem_range.mpr hi)⟩

theorem enterRunahead_spec (h : s.enterRunahead cfg isa = some s') :
    s'.storedPC = s.pc ∧ s'.inRunahead = true ∧ s'.miscRegs = s.miscRegs ∧
      ∀ c ∈ RegClassType.renamed, unsaved c = false →
        Saved cfg s c (s'.registerCheckpoints c) := by
  unfold enterRunahead at h
  split at h
  · cases h
  · obtain ⟨t, ht, h⟩ := Option.bind_eq_some_iff.mp h
    obtain ⟨⟨cks, rfl⟩, hsaved⟩ := fullSave_spec ht
    cases h
    exact ⟨rfl, rfl, rfl, hsaved⟩

end Save

section Period

/-- What renaming, execution and squashes leave alone. -/
structure Frame (s s' : RegState PC σ) : Prop where
  registerCheckpoints : s'.registerCheckpoints = s.registerCheckpoints
  miscRegs : s'.miscRegs = s.miscRegs
  pc : s'.pc = s.pc
  storedPC : s'.storedPC = s.storedPC
  inRunahead : s'.inRunahead = s.inRunahead
  archRestore : s'.archRestore = s.archRestore

theorem Frame.refl (s : RegState PC σ) : Frame s s := ⟨rfl, rfl, rfl, rfl, rfl, rfl⟩

theorem Frame.trans (h : Frame s s') (h' : Frame s' t) : Frame s t :=
  ⟨h'.registerCheckpoints.trans h.registerCheckpoints, h'.miscRegs.trans h.miscRegs,
    h'.pc.trans h.pc, h'.storedPC.trans h.storedPC, h'.inRunahead.trans h.inRunahead,
    h'.archRestore.trans h.archRestore⟩

theorem Frame.foldlM {α : Type} {f : RegState PC σ → α → Option (RegState PC σ)} {l : List α}
    (hf : ∀ s a t, f s a = some t → Frame s t) (h : l.foldlM f s = some t) : Frame s t :=
  foldlM_rel Frame.refl (fun _ _ _ => Frame.trans) hf h

theorem getFreeReg_frame {c : RegClassType} {p : PhysRegId} (h : s.getFreeReg c = some (t, p)) :
    Frame s t := by
  unfold getFreeReg at h
  split at h
  · cases h
  · cases h
    exact ⟨rfl, rfl, rfl, rfl, rfl, rfl⟩

theorem addFreeReg_frame (s : RegState PC σ) (p : PhysRegId) : Frame s (s.addFreeReg p) :=
  ⟨rfl, rfl, rfl, rfl, rfl, rfl⟩

theorem setReady_frame (s : RegState PC σ) (p : PhysRegId) : Frame s (s.setReady cfg p) := by
  unfold setReady
  split
  · exact .refl _
  · exact ⟨rfl, rfl, rfl, rfl, rfl, rfl⟩

theorem unsetReady_frame (s : RegState PC σ) (p : PhysRegId) : Frame s (s.unsetReady cfg p) := by
  unfold unsetReady
  split
  · exact .refl _
  · exact ⟨rfl, rfl, rfl, rfl, rfl, rfl⟩

theorem rename_frame {r : RegId} {pinned : Nat} {p q : PhysRegId}
    (h : s.rename r pinned = some (t, p, q)) : Frame s t := by
  simp only [rename, Option.bind_eq_bind] at h
  obtain ⟨prev, -, h⟩ := Option.bind_eq_some_iff.mp h
  split at h
  · cases h
    exact .refl _
  · split at h
    · split at h
      · cases h
      · cases h
        exact ⟨rfl, rfl, rfl, rfl, rfl, rfl⟩
    · obtain ⟨⟨u, new⟩, hu, h⟩ := Option.bind_eq_some_iff.mp h
      cases h
      exact (getFreeReg_frame hu).trans ⟨rfl, rfl, rfl, rfl, rfl, rfl⟩

theorem renameDestReg_frame {seqNum pinned : Nat} {r : RegId}
    (h : s.renameDestReg cfg seqNum r pinned = some t) : Frame s t := by
  simp only [renameDestReg, Option.bind_eq_bind] at h
  obtain ⟨⟨u, new, prev⟩, hu, h⟩ := Option.bind_eq_some_iff.mp h
  cases h
  have hframe := (rename_frame hu).trans (@unsetReady_frame _ _ cfg u new)
  exact hframe.trans ⟨rfl, rfl, rfl, rfl, rfl, rfl⟩

theorem undoRename_frame {h : RenameHistory} (hu : s.undoRename h = some t) : Frame s t := by
  unfold undoRename at hu
  split at hu
  · cases hu
    exact .refl _
  · obtain ⟨map, -, hu⟩ := Option.bind_eq_some_iff.mp hu
    cases hu
    exact ⟨rfl, rfl, rfl, rfl, rfl, rfl⟩

theorem freePrev_frame (s : RegState PC σ) (h : RenameHistory) : Frame s (s.freePrev h) := by
  unfold freePrev
  split
  · exact .refl _
  · exact addFreeReg_frame s _

theorem removeFromHistory_frame (s : RegState PC σ) (seqNum : Nat) :
    Frame s (s.removeFromHistory seqNum) := by
  have hfold : ∀ (l : List RenameHistory) (u : RegState PC σ), Frame u (l.foldl freePrev u) := by
    intro l
    induction l with
    | nil => exact Frame.refl
    | cons a l ih => exact fun u => (freePrev_frame u a).trans (ih _)
  have hkept : Frame s { s with
      historyBuffer := (s.historyBuffer.reverse.dropWhile (·.instSeqNum ≤ seqNum)).reverse } :=
    ⟨rfl, rfl, rfl, rfl, rfl, rfl⟩
  exact hkept.trans (hfold _ _)

theorem writebackDest_frame {p : PhysRegId} {runahead poisoned : Bool}
    (h : s.writebackDest cfg p runahead poisoned = some t) : Frame s t := by
  have hset : ∀ u v : RegState PC σ, u.setPoisoned cfg p poisoned = some v → Frame u v := by
    intro u v hu
    unfold setPoisoned at hu
    split at hu
    · cases hu
    · split at hu
      · cases hu
        exact .refl _
      · cases hu
        exact ⟨rfl, rfl, rfl, rfl, rfl, rfl⟩
  have hready : ∀ u : RegState PC σ,
      Frame u (if u.numPinnedWritesToComplete p = 0 then u.setReady cfg p else u) := by
    intro u
    split
    · exact setReady_frame u p
    · exact .refl _
  have hpinned : Frame s (if p.isFixedMapping = true then s else { s with
      numPinnedWritesToComplete :=
        Function.update s.numPinnedWritesToComplete p (s.numPinnedWritesToComplete p - 1) }) := by
    split
    · exact .refl _
    · exact ⟨rfl, rfl, rfl, rfl, rfl, rfl⟩
  simp only [writebackDest] at h
  split at h
  · exact (hpinned.trans (hready _)).trans (hset _ _ h)
  · cases h
    exact hpinned.trans (hready _)

/-- The misc writes that a step performs. -/
def Op.miscWrites : Op PC → List (Nat × RegVal)
  | .pseudoRetire calls _ => recorded calls
  | _ => []

/-- What every step of a period keeps: the checkpoint and the stored PC; and from the exit squash
on also commit's PC, which is then the stored one. -/
structure Kept (s s' : RegState PC σ) (writes : List (Nat × RegVal)) (isa : ISA σ) : Prop where
  registerCheckpoints : s'.registerCheckpoints = s.registerCheckpoints
  storedPC : s'.storedPC = s.storedPC
  miscRegs : s'.miscRegs = performMisc isa s.miscRegs writes
  exited : (s.inRunahead = false → s.archRestore = true ∧ s.pc = s.storedPC) →
    s'.inRunahead = false → s'.archRestore = true ∧ s'.pc = s'.storedPC

theorem Kept.of_frame (h : Frame s s') : Kept s s' [] isa := by
  refine ⟨h.registerCheckpoints, h.storedPC, h.miscRegs, fun hs hx => ?_⟩
  rw [h.inRunahead] at hx
  rw [h.archRestore, h.pc, h.storedPC]
  exact hs hx

theorem Kept.trans {w w' : List (Nat × RegVal)} (h : Kept s s' w isa) (h' : Kept s' t w' isa) :
    Kept s t (w ++ w') isa := by
  refine ⟨h'.registerCheckpoints.trans h.registerCheckpoints, h'.storedPC.trans h.storedPC, ?_,
    fun hs => h'.exited (h.exited hs)⟩
  rw [h'.miscRegs, h.miscRegs, performMisc, performMisc, performMisc, List.foldl_append]

theorem step_kept {op : Op PC} (h : s.step cfg isa op = some t) : Kept s t op.miscWrites isa := by
  cases op with
  | renameDestRegs seqNum dests =>
    exact .of_frame (Frame.foldlM (fun _ _ _ => renameDestReg_frame) h)
  | setReg p val =>
    simp only [step, setReg] at h
    split at h
    · cases h
    · split at h <;> cases h
      · exact .of_frame (.refl _)
      · exact .of_frame ⟨rfl, rfl, rfl, rfl, rfl, rfl⟩
  | writebackDests dests runahead poisoned =>
    exact .of_frame (Frame.foldlM (fun _ _ _ => writebackDest_frame) h)
  | pseudoRetire calls nextPC =>
    simp only [step] at h
    split at h
    · rename_i hmode
      cases h
      refine ⟨rfl, rfl, rfl, fun _ hx => ?_⟩
      have hmode' : s.inRunahead = false := hx
      rw [hmode] at hmode'
      cases hmode'
    · cases h
  | removeFromHistory seqNum =>
    cases h
    exact .of_frame (removeFromHistory_frame s seqNum)
  | doSquash n =>
    have hframe : Frame s { s with
        historyBuffer := s.historyBuffer.dropWhile (n < ·.instSeqNum) } :=
      ⟨rfl, rfl, rfl, rfl, rfl, rfl⟩
    exact .of_frame (hframe.trans (Frame.foldlM (fun _ _ _ => undoRename_frame) h))
  | exitRunahead =>
    simp only [step] at h
    split at h
    · cases h
      exact ⟨rfl, rfl, rfl, fun _ _ => ⟨rfl, rfl⟩⟩
    · cases h

theorem run_kept {l : List (Op PC)} (h : (system cfg isa).Run s l t) :
    Kept s t (l.flatMap Op.miscWrites) isa := by
  induction h with
  | nil => exact .of_frame (.refl _)
  | snoc _ hst ih =>
    rw [List.flatMap_append, List.flatMap_singleton]
    exact ih.trans (step_kept hst)

end Period

section Remap

/-- Of every class, as many registers as `n` says are mapped to the physical register of the same
index, in both maps, and are ready; the physical registers after them are free. -/
structure Remapped (cfg : RegParams) (n : RegClassType → Nat) (s : RegState PC σ) : Prop where
  renameMap : ∀ r, s.renameMap r = if r.index < n r.cls then some ⟨r.cls, r.index⟩ else none
  commitRenameMap : s.commitRenameMap = s.renameMap
  freeLists : ∀ c ∈ RegClassType.renamed,
    s.freeLists c = (List.range' (n c) (cfg.numPhys c - n c)).map (PhysRegId.mk c)
  ready : ∀ c ∈ RegClassType.renamed, ∀ i < n c, s.isReady cfg ⟨c, i⟩ = true

theorem setEntry_renamed {map : RegId → Option PhysRegId} {r : RegId} {p : PhysRegId}
    (hr : r.cls ∈ RegClassType.renamed) (hp : p.cls = r.cls) :
    setEntry map r p = some (Function.update map r (some p)) := by
  simp [setEntry, hp, isRenameable_renamed hr]

theorem setReady_renamed {p : PhysRegId} (hp : p.cls ∈ RegClassType.renamed) :
    s.setReady cfg p =
      { s with scoreboard := Function.update s.scoreboard (cfg.flatIndex p) true } := by
  obtain ⟨c, i⟩ := p
  cases c <;> first | rfl | (simp [RegClassType.renamed] at hp)

theorem remapReg_eq {c : RegClassType} {i : Nat} {p : PhysRegId} {rest : List PhysRegId}
    (hc : c ∈ RegClassType.renamed) (hp : p.cls = c) (hfree : s.freeLists c = p :: rest) :
    remapReg cfg c s i = some { s with
      freeLists := Function.update s.freeLists c rest
      renameMap := Function.update s.renameMap ⟨c, i⟩ (some p)
      commitRenameMap := Function.update s.commitRenameMap ⟨c, i⟩ (some p)
      scoreboard := Function.update s.scoreboard (cfg.flatIndex p) true } := by
  have hp' : p.cls ∈ RegClassType.renamed := hp ▸ hc
  simp only [remapReg, getFreeReg, hfree, Option.bind_eq_bind, Option.bind_some,
    setEntry_renamed (r := ⟨c, i⟩) hc hp, setReady_renamed hp', Option.pure_def]

theorem remapReg_spec {n : RegClassType → Nat} {c : RegClassType} (h : Remapped cfg n s)
    (hc : c ∈ RegClassType.renamed) (hlt : n c < cfg.numPhys c) :
    ∃ t, remapReg cfg c s (n c) = some t ∧ Frame s t ∧
      Remapped cfg (Function.update n c (n c + 1)) t := by
  have hfree : s.freeLists c = ⟨c, n c⟩ ::
      (List.range' (n c + 1) (cfg.numPhys c - (n c + 1))).map (PhysRegId.mk c) := by
    have hlen : cfg.numPhys c - n c = cfg.numPhys c - (n c + 1) + 1 := by omega
    rw [h.freeLists c hc, hlen, List.range'_succ, List.map_cons]
  refine ⟨_, remapReg_eq hc rfl hfree, ⟨rfl, rfl, rfl, rfl, rfl, rfl⟩, ?_, ?_, ?_, ?_⟩
  · rintro ⟨d, i⟩
    by_cases hd : d = c
    · subst hd
      by_cases hi : i = n d
      · subst hi
        simp
      · have hne : (⟨d, i⟩ : RegId) ≠ ⟨d, n d⟩ := by simpa using hi
        have hiff : i < n d + 1 ↔ i < n d := by omega
        simp only [Function.update_of_ne hne, Function.update_self, h.renameMap, hiff]
    · have hne : (⟨d, i⟩ : RegId) ≠ ⟨c, n c⟩ := by simp [hd]
      simp only [Function.update_of_ne hne, Function.update_of_ne hd, h.renameMap]
  · simp only [h.commitRenameMap]
  · intro d hd
    by_cases hdc : d = c
    · subst hdc
      simp only [Function.update_self]
    · simp only [Function.update_of_ne hdc]
      exact h.freeLists d hd
  · intro d hd i hi
    simp only [isReady, Bool.or_eq_true]
    by_cases hflat : cfg.flatIndex ⟨d, i⟩ = cfg.flatIndex ⟨c, n c⟩
    · right
      rw [hflat, Function.update_self]
    · have hold : i < n d := by
        by_cases hdc : d = c
        · subst hdc
          have hin : i ≠ n d := fun hin => hflat (by rw [hin])
          rw [Function.update_self] at hi
          omega
        · rwa [Function.update_of_ne hdc] at hi
      have hready := h.ready d hd i hold
      simp only [isReady, Bool.or_eq_true] at hready
      rwa [Function.update_of_ne hflat]

/-- The loop over the registers of a class, up to any of them. -/
theorem remapRegs_spec {n : RegClassType → Nat} {c : RegClassType} (h : Remapped cfg n s)
    (hc : c ∈ RegClassType.renamed) (hn : n c = 0) {k : Nat} (hk : k ≤ cfg.numPhys c) :
    ∃ t, (List.range k).foldlM (remapReg cfg c) s = some t ∧ Frame s t ∧
      Remapped cfg (Function.update n c k) t := by
  induction k with
  | zero =>
    refine ⟨s, rfl, .refl s, ?_⟩
    rwa [← hn, Function.update_eq_self]
  | succ k ih =>
    obtain ⟨t, ht, hframe, hmap⟩ := ih (by omega)
    have hlt : Function.update n c k c < cfg.numPhys c := by
      rw [Function.update_self]
      omega
    obtain ⟨u, hu, hframe', hmap'⟩ := remapReg_spec hmap hc hlt
    rw [Function.update_self] at hu hmap'
    rw [Function.update_idem] at hmap'
    refine ⟨u, ?_, hframe.trans hframe', hmap'⟩
    rw [List.range_succ, List.foldlM_append, ht]
    simp [hu]

theorem remapClasses_spec {l : List RegClassType} {n : RegClassType → Nat}
    (h : Remapped cfg n s) (hl : ∀ c ∈ l, c ∈ RegClassType.renamed) (hnodup : l.Nodup)
    (hn : ∀ c ∈ l, n c = 0) :
    ∃ t, l.foldlM (remapClass cfg) s = some t ∧ Frame s t ∧
      Remapped cfg (fun c => if c ∈ l then cfg.numArch c else n c) t := by
  induction l generalizing n s with
  | nil => exact ⟨s, rfl, .refl s, by simpa using h⟩
  | cons c l ih =>
    obtain ⟨hcl, hnodup⟩ := List.nodup_cons.mp hnodup
    have hc := hl c List.mem_cons_self
    obtain ⟨t, ht, hframe, hmap⟩ :=
      remapRegs_spec h hc (hn c List.mem_cons_self) (cfg.le c hc)
    have hzero : ∀ d ∈ l, Function.update n c (cfg.numArch c) d = 0 := by
      intro d hd
      have hne : d ≠ c := fun hdc => hcl (hdc ▸ hd)
      rw [Function.update_of_ne hne]
      exact hn d (List.mem_cons_of_mem c hd)
    obtain ⟨u, hu, hframe', hmap'⟩ :=
      ih hmap (fun d hd => hl d (List.mem_cons_of_mem c hd)) hnodup hzero
    refine ⟨u, ?_, hframe.trans hframe', ?_⟩
    · rw [List.foldlM_cons, remapClass, ht]
      exact hu
    · convert hmap' using 2 with d
      by_cases hdc : d = c
      · subst hdc
        simp [hcl]
      · simp [hdc]

end Remap

section Restore

/-- With the register mapped, the restore of a register amounts to a write of its value. -/
theorem restoreReg_eq {c : RegClassType} {i : Nat} {p : PhysRegId} (ck : RegCheckpoint)
    (hmap : lookup s.commitRenameMap ⟨c, i⟩ = some p) :
    restoreReg c ck s i =
      some { s with regFile := Function.update s.regFile p (ck.values i) } := by
  by_cases hval : s.regFile p = ck.values i
  · simp [restoreReg, getArchReg, hmap, ← hval]
  · simp [restoreReg, getArchReg, setArchReg, hmap, hval]

theorem restoreRegs_eq {c : RegClassType} (ck : RegCheckpoint) {l : List Nat}
    (hmap : ∀ i ∈ l, lookup s.commitRenameMap ⟨c, i⟩ = some ⟨c, i⟩) :
    l.foldlM (restoreReg c ck) s = some { s with
      regFile := fun p => if p.cls = c ∧ p.index ∈ l then ck.values p.index else s.regFile p } := by
  induction l generalizing s with
  | nil => simp
  | cons i l ih =>
    rw [List.foldlM_cons, restoreReg_eq ck (hmap i List.mem_cons_self)]
    refine (ih (s := { s with regFile := Function.update s.regFile ⟨c, i⟩ (ck.values i) })
      fun j hj => hmap j (List.mem_cons_of_mem i hj)).trans ?_
    congr 2
    funext p
    by_cases hl : p.cls = c ∧ p.index ∈ l
    · have hl' : p.cls = c ∧ p.index ∈ i :: l := ⟨hl.1, List.mem_cons_of_mem i hl.2⟩
      rw [if_pos hl, if_pos hl']
    · by_cases hi : p = ⟨c, i⟩
      · subst hi
        simp
      · have hl' : ¬ (p.cls = c ∧ p.index ∈ i :: l) := by
          rintro ⟨hcls, hmem⟩
          rcases List.mem_cons.mp hmem with rfl | hmem
          · exact hi (by rw [← hcls])
          · exact hl ⟨hcls, hmem⟩
        rw [if_neg hl, if_neg hl']
        exact Function.update_of_ne hi ..

/-- The registers whose class the checkpoint saves and restores. -/
def Checkpointed (cfg : RegParams) (p : PhysRegId) : Prop :=
  p.index < cfg.numArch p.cls ∧ unrestored p.cls = false

/-- What the restore of the classes `l` does. -/
structure Restored (cfg : RegParams) (l : List RegClassType) (s t : RegState PC σ) : Prop where
  values : ∀ p, p.cls ∈ l → Checkpointed cfg p →
    t.regFile p = (s.registerCheckpoints p.cls).values p.index
  checkpoints : ∀ c ∉ l, t.registerCheckpoints c = s.registerCheckpoints c
  others : ∀ p, p.cls ∉ l → t.regFile p = s.regFile p
  rest : t = { s with regFile := t.regFile, registerCheckpoints := t.registerCheckpoints }

theorem restoreClass_spec {c : RegClassType}
    (hck : unrestored c = false →
      (s.registerCheckpoints c).validIdxs = List.range (cfg.numArch c))
    (hmap : ∀ i < cfg.numArch c, unrestored c = false →
      lookup s.commitRenameMap ⟨c, i⟩ = some ⟨c, i⟩) :
    ∃ t, restoreClass s c = some t ∧ Restored cfg [c] s t := by
  have hidle : (∀ p : PhysRegId, p.cls = c → ¬ Checkpointed cfg p) → Restored cfg [c] s s := by
    intro hnone
    exact ⟨fun p hp hpc => absurd hpc (hnone p (by simpa using hp)), fun _ _ => rfl,
      fun _ _ => rfl, rfl⟩
  simp only [restoreClass]
  split
  · rename_i hskip
    refine ⟨s, rfl, hidle ?_⟩
    rintro p rfl ⟨hlt, hun⟩
    rw [hun, Bool.false_or, List.isEmpty_iff, hck hun, List.range_eq_nil] at hskip
    omega
  · rename_i hskip
    have hun : unrestored c = false := by
      simp only [Bool.or_eq_true, not_or, Bool.not_eq_true] at hskip
      exact hskip.1
    have hmap' : ∀ i ∈ (s.registerCheckpoints c).validIdxs,
        lookup s.commitRenameMap ⟨c, i⟩ = some ⟨c, i⟩ := by
      intro i hi
      rw [hck hun, List.mem_range] at hi
      exact hmap i hi hun
    simp only [Option.bind_eq_bind, restoreRegs_eq _ hmap', Option.bind_some]
    refine ⟨_, rfl, fun p hp hpc => ?_, fun d hd => ?_, fun p hp => ?_, rfl⟩
    · obtain rfl : p.cls = c := by simpa using hp
      have hmem : p.index ∈ (s.registerCheckpoints p.cls).validIdxs := by
        rw [hck hun, List.mem_range]
        exact hpc.1
      exact if_pos ⟨rfl, hmem⟩
    · exact Function.update_of_ne (by simpa using hd) ..
    · have hne : p.cls ≠ c := by simpa using hp
      exact if_neg fun h => hne h.1

theorem restore_spec {l : List RegClassType} (hnodup : l.Nodup)
    (hck : ∀ c ∈ l, unrestored c = false →
      (s.registerCheckpoints c).validIdxs = List.range (cfg.numArch c))
    (hmap : ∀ c ∈ l, ∀ i < cfg.numArch c, unrestored c = false →
      lookup s.commitRenameMap ⟨c, i⟩ = some ⟨c, i⟩) :
    ∃ t, l.foldlM restoreClass s = some t ∧ Restored cfg l s t := by
  induction l generalizing s with
  | nil =>
    exact ⟨s, rfl, fun p hp => absurd hp List.not_mem_nil, fun _ _ => rfl, fun _ _ => rfl, rfl⟩
  | cons c l ih =>
    obtain ⟨hcl, hnodup⟩ := List.nodup_cons.mp hnodup
    obtain ⟨t, ht, hr⟩ :=
      restoreClass_spec (hck c List.mem_cons_self) (hmap c List.mem_cons_self)
    have hne : ∀ d ∈ l, d ∉ [c] := by
      intro d hd hdc
      obtain rfl : d = c := by simpa using hdc
      exact hcl hd
    have hcommit : t.commitRenameMap = s.commitRenameMap := by rw [hr.rest]
    obtain ⟨u, hu, hr'⟩ := ih (s := t) hnodup
      (fun d hd => by
        rw [hr.checkpoints d (hne d hd)]
        exact hck d (List.mem_cons_of_mem c hd))
      (fun d hd => by
        rw [hcommit]
        exact hmap d (List.mem_cons_of_mem c hd))
    refine ⟨u, ?_, fun p hp hpc => ?_, fun d hd => ?_, fun p hp => ?_, ?_⟩
    · rw [List.foldlM_cons, ht]
      exact hu
    · by_cases hpl : p.cls ∈ l
      · rw [hr'.values p hpl hpc, hr.checkpoints p.cls (hne p.cls hpl)]
      · have hpc' : p.cls ∈ [c] := by
          rcases List.mem_cons.mp hp with h | h
          · simp [h]
          · exact absurd h hpl
        rw [hr'.others p hpl, hr.values p hpc' hpc]
    · rw [List.mem_cons, not_or] at hd
      rw [hr'.checkpoints d hd.2, hr.checkpoints d (by simpa using hd.1)]
    · rw [List.mem_cons, not_or] at hp
      rw [hr'.others p hp.2, hr.others p (by simpa using hp.1)]
    · rw [hr'.rest, hr.rest]

end Restore

section Transparent

/-- The number of registers of a class that the restore maps. -/
def mapped (cfg : RegParams) (c : RegClassType) : Nat :=
  if c ∈ RegClassType.renamed then cfg.numArch c else 0

theorem mapped_renamed {c : RegClassType} (hc : c ∈ RegClassType.renamed) :
    mapped cfg c = cfg.numArch c := if_pos hc

theorem Remapped.congr {n : RegClassType → Nat} (h : Remapped cfg n s)
    (hmap : t.renameMap = s.renameMap) (hcommit : t.commitRenameMap = s.commitRenameMap)
    (hfree : t.freeLists = s.freeLists) (hready : t.scoreboard = s.scoreboard) :
    Remapped cfg n t := by
  refine ⟨fun r => by rw [hmap, h.renameMap], by rw [hcommit, hmap, h.commitRenameMap],
    fun c hc => by rw [hfree, h.freeLists c hc], fun c hc i hi => ?_⟩
  have := h.ready c hc i hi
  rwa [isReady, hready]

theorem restoreCheckpointState_spec
    (hck : ∀ c ∈ RegClassType.renamed, unsaved c = false →
      (s.registerCheckpoints c).validIdxs = List.range (cfg.numArch c)) :
    ∃ t, s.restoreCheckpointState cfg = some t ∧ Remapped cfg (mapped cfg) t ∧
      (∀ p, p.cls ∈ RegClassType.renamed → Checkpointed cfg p →
        t.regFile p = (s.registerCheckpoints p.cls).values p.index) ∧
      (∀ i, t.poisonedRegs i = false) ∧ t.pc = s.pc ∧ t.miscRegs = s.miscRegs := by
  have hreset : Remapped cfg (fun _ => 0) ((s.resetFreeLists cfg).resetMaps).clearHistory := by
    refine ⟨fun r => (if_neg (Nat.not_lt_zero _)).symm, rfl, fun c hc => ?_, fun c _ i hi =>
      absurd hi (Nat.not_lt_zero i)⟩
    rw [Nat.sub_zero, ← List.range_eq_range']
    exact if_pos hc
  obtain ⟨u, hu, hframe, hmap⟩ :=
    remapClasses_spec hreset (fun _ => id) renamed_nodup (fun _ _ => rfl)
  -- the restore meets classes that have both a checkpoint and a rename map
  have hrenamed : ∀ c ∈ RegClassType.checkpointed, unrestored c = false →
      c ∈ RegClassType.renamed ∧ unsaved c = false := by
    intro c hc hun
    cases c <;> simp_all [RegClassType.checkpointed, unrestored, unsaved]
  obtain ⟨v, hv, hr⟩ := @restore_spec _ _ cfg u _ checkpointed_nodup
    (fun c hc hun => by
      obtain ⟨hc, hsaved⟩ := hrenamed c hc hun
      rw [hframe.registerCheckpoints]
      exact hck c hc hsaved)
    (fun c hc i hi hun => by
      obtain ⟨hc, -⟩ := hrenamed c hc hun
      rw [lookup_renamed _ hc, hmap.commitRenameMap, hmap.renameMap]
      simp [hc, hi])
  refine ⟨{ v.clearPoison with archRestore := false }, ?_, ?_, fun p hp hpc => ?_, fun _ => rfl,
    ?_, ?_⟩
  · simp only [restoreCheckpointState, hu, restore, hv, Option.bind_eq_bind, Option.bind_some,
      Option.pure_def]
  · refine hmap.congr ?_ ?_ ?_ ?_ <;> (simp only [clearPoison]; rw [hr.rest])
  · have hval := hr.values p (List.mem_append_left _ hp) hpc
    rw [hframe.registerCheckpoints] at hval
    exact hval
  · have hpc : v.pc = u.pc := by rw [hr.rest]
    exact hpc.trans hframe.pc
  · have hmisc : v.miscRegs = u.miscRegs := by rw [hr.rest]
    exact hmisc.trans hframe.miscRegs

/-- The registers, as an instruction in normal mode finds them, and before it the period. -/
structure Transparent (cfg : RegParams) (s t : RegState PC σ) : Prop where
  values : ∀ r, cfg.Valid r → unrestored r.cls = false → t.getArchReg r = s.getArchReg r
  agree : t.renameMap = t.commitRenameMap
  total : ∀ r, cfg.Valid r → (t.renameMap r).isSome
  injective : ∀ r r' p, cfg.Valid r → cfg.Valid r' →
    t.renameMap r = some p → t.renameMap r' = some p → r = r'
  nodup : ∀ c ∈ RegClassType.renamed, (t.freeLists c).Nodup
  free : ∀ c ∈ RegClassType.renamed, ∀ p, p ∈ t.freeLists c ↔
    p.cls = c ∧ p.index < cfg.numPhys c ∧ ∀ r, cfg.Valid r → t.renameMap r ≠ some p
  ready : ∀ r p, cfg.Valid r → t.renameMap r = some p → t.isReady cfg p = true
  cured : ∀ p, t.regPoisoned cfg p = false
  pc : t.pc = s.pc

theorem Remapped.valid {r : RegId} (h : Remapped cfg (mapped cfg) t) (hr : cfg.Valid r) :
    t.renameMap r = some ⟨r.cls, r.index⟩ := by
  have hlt : r.index < mapped cfg r.cls := by
    rw [mapped_renamed hr.1]
    exact hr.2
  rw [h.renameMap, if_pos hlt]

/-- The free registers are those after the mapped ones, which are not mapped to. -/
theorem Remapped.mem_free {c : RegClassType} (h : Remapped cfg (mapped cfg) t)
    (hc : c ∈ RegClassType.renamed) (p : PhysRegId) :
    p ∈ t.freeLists c ↔
      p.cls = c ∧ p.index < cfg.numPhys c ∧ ∀ r, cfg.Valid r → t.renameMap r ≠ some p := by
  have hle := cfg.le c hc
  rw [h.freeLists c hc, mapped_renamed hc, List.mem_map]
  constructor
  · rintro ⟨i, hi, rfl⟩
    rw [List.mem_range'_1] at hi
    refine ⟨rfl, by simp only; omega, fun r hr hmap => ?_⟩
    rw [h.valid hr] at hmap
    obtain ⟨hcls, hidx⟩ := PhysRegId.mk.inj (Option.some.inj hmap)
    have hlt := hr.2
    rw [hcls, hidx] at hlt
    omega
  · rintro ⟨rfl, hlt, hno⟩
    refine ⟨p.index, ?_, rfl⟩
    rw [List.mem_range'_1]
    by_cases hi : p.index < cfg.numArch p.cls
    · exact absurd (h.valid (r := ⟨p.cls, p.index⟩) ⟨hc, hi⟩) (hno _ ⟨hc, hi⟩)
    · omega

/-- **A runahead period is transparent.** Once it is over and the checkpoint is restored, every
saved architectural register has the value it had at entry, both rename maps agree and are
injective, exactly the registers that are not mapped to are free, those that are mapped to are
ready, none is poisoned, and commit is at the PC of entry. -/
theorem runahead_transparent {s₁ s₂ : RegState PC σ} {l : List (Op PC)}
    (henter : s.enterRunahead cfg isa = some s₁) (hrun : (system cfg isa).Run s₁ l s₂)
    (hexit : s₂.inRunahead = false) :
    s₂.archRestore = true ∧
      ∃ s₃, s₂.restoreCheckpointState cfg = some s₃ ∧ Transparent cfg s s₃ := by
  obtain ⟨hpc, hmode, -, hsaved⟩ := enterRunahead_spec henter
  have hkept := run_kept hrun
  obtain ⟨hpending, hpc₂⟩ := hkept.exited (fun h => by rw [hmode] at h; cases h) hexit
  obtain ⟨s₃, hs₃, hmap, hval, hcured, hpc₃, -⟩ := @restoreCheckpointState_spec _ _ cfg
    s₂ fun c hc hun => by
      rw [hkept.registerCheckpoints]
      exact (hsaved c hc hun).validIdxs
  refine ⟨hpending, s₃, hs₃, ⟨fun r hr hun => ?_, hmap.commitRenameMap.symm, fun r hr => ?_,
    fun r r' p hr hr' hp hp' => ?_, fun c hc => ?_, fun c hc => hmap.mem_free hc,
    fun r p hr hp => ?_, fun p => ?_, ?_⟩⟩
  · obtain ⟨hc, hi⟩ := hr
    have hun' : unsaved r.cls = false := by
      simp only [unrestored, unsaved, Bool.or_eq_false_iff] at hun ⊢
      exact hun.1
    rw [(hsaved r.cls hc hun').values r.index hi, getArchReg, lookup_renamed _ hc,
      hmap.commitRenameMap, hmap.valid ⟨hc, hi⟩, Option.map_some]
    rw [hval ⟨r.cls, r.index⟩ hc ⟨hi, hun⟩, hkept.registerCheckpoints]
  · rw [hmap.valid hr, Option.isSome_some]
  · rw [hmap.valid hr] at hp
    rw [hmap.valid hr', ← hp] at hp'
    obtain ⟨hcls, hidx⟩ := PhysRegId.mk.inj (Option.some.inj hp')
    cases r
    cases r'
    simp_all
  · rw [hmap.freeLists c hc]
    exact List.Nodup.map (fun i j hij => (PhysRegId.mk.inj hij).2) (List.nodup_range' ..)
  · rw [hmap.valid hr] at hp
    cases hp
    refine hmap.ready r.cls hr.1 r.index ?_
    rw [mapped_renamed hr.1]
    exact hr.2
  · rw [regPoisoned, hcured, Bool.and_false]
  · rw [hpc₃, hpc₂, hkept.storedPC, hpc]

/-- One integer register and three physical ones. -/
def oneReg : RegParams where
  numArch c := if c = .int then 1 else 0
  numPhys c := if c = .int then 3 else 0
  le := by decide

/-- Misc registers without side effects. -/
def plainISA : ISA (Nat → RegVal) where
  setMiscReg m i val := Function.update m i val
  readMiscReg m i := m i
  isValid _ := true

/-- The register holds 7, in the first physical register. -/
def atEntry : RegState Nat (Nat → RegVal) where
  regFile p := if p = ⟨.int, 0⟩ then 7 else 0
  poisonedRegs _ := false
  numPinnedWrites _ := 0
  numPinnedWritesToComplete _ := 0
  freeLists c := if c = .int then [⟨.int, 1⟩, ⟨.int, 2⟩] else []
  renameMap r := if r = ⟨.int, 0⟩ then some ⟨.int, 0⟩ else none
  commitRenameMap r := if r = ⟨.int, 0⟩ then some ⟨.int, 0⟩ else none
  historyBuffer := []
  scoreboard _ := true
  registerCheckpoints _ := ⟨fun _ => 0, []⟩
  miscRegs _ := 0
  pc := 100
  storedPC := 0
  inRunahead := false
  archRestore := false

/-- The first physical register is freed, renamed to again and overwritten. -/
def overwrite : List (Op Nat) :=
  [.renameDestRegs 5 [(⟨.int, 0⟩, 0)], .writebackDests [⟨.int, 1⟩] true true, .pseudoRetire [] 104,
    .removeFromHistory 5, .renameDestRegs 6 [(⟨.int, 0⟩, 0)], .renameDestRegs 7 [(⟨.int, 0⟩, 0)],
    .setReg ⟨.int, 0⟩ 99, .writebackDests [⟨.int, 0⟩] true false, .exitRunahead, .doSquash 4]

theorem runahead_transparent_overwrite : ∃ s₂ s₃ : RegState Nat (Nat → RegVal),
    s₂.regFile ⟨.int, 0⟩ = 99 ∧ s₂.restoreCheckpointState oneReg = some s₃ ∧
      Transparent oneReg atEntry s₃ := by
  have hlast : ((atEntry.enterRunahead oneReg plainISA).bind
      (overwrite.foldlM (step oneReg plainISA))).any
        (fun s => !s.inRunahead && s.regFile ⟨.int, 0⟩ = 99) = true := by decide
  obtain ⟨s₂, hs₂, hlast⟩ := Option.any_eq_true .. |>.mp hlast
  rw [Bool.and_eq_true, Bool.not_eq_true', decide_eq_true_eq] at hlast
  obtain ⟨s₁, henter, hrun⟩ := Option.bind_eq_some_iff.mp hs₂
  have hperiod := Transition.System.Run.of_foldlM
    (M := system oneReg plainISA) (fun _ _ _ h => h) hrun
  obtain ⟨-, s₃, hs₃, htransparent⟩ := runahead_transparent henter hperiod hlast.1
  exact ⟨s₂, s₃, hlast.2, hs₃, htransparent⟩

end Transparent

end RegState
end Runahead
end Gem5
