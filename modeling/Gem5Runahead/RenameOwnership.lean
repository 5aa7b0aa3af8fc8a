import Gem5Runahead.ArchRestore
import Gem5Runahead.Lib.UndoLog
import Mathlib.Data.List.Perm.Basic

/-!
# RenameOwnership

Every physical register has one owner. From one restore of the checkpoint to the next, whatever
is renamed, squashed and retired, a register is either free, or mapped to, or kept back in the
history buffer for the rename that replaced it to be undone; and a squash gives back the map the
youngest instruction that remains has left.

* `Ledger` — the three owners, and that the history can be undone.
* `renameDestReg_ledger` / `undoRenames_ledger` / `freePrevs_ledger` — what one operation does to
  it.
* `Renaming` — the rename stage with the maps it has had, `Renaming.Inv` its invariant.
* `registers_owned_once` — the partition, and the effect of a squash, in every reachable state.
-/

namespace Gem5
namespace Runahead
namespace RegState

open UndoLog

variable {PC σ : Type} {cfg : RegParams} {s t : RegState PC σ}
  {map : RegId → Option PhysRegId} {free : RegClassType → List PhysRegId}
  {log log' : List RenameHistory} {entry : RenameHistory}

section Owners

/-- The physical registers that the map names. -/
def mappedRegs (cfg : RegParams) (map : RegId → Option PhysRegId) (c : RegClassType) :
    List PhysRegId :=
  (List.range (cfg.numArch c)).filterMap fun i => map ⟨c, i⟩

/-- The registers that renames in the history have replaced. -/
def heldRegs (log : List RenameHistory) (c : RegClassType) : List PhysRegId :=
  (log.filter fun h => h.newPhysReg ≠ h.prevPhysReg && h.prevPhysReg.cls = c).map
    RenameHistory.prevPhysReg

def allRegs (cfg : RegParams) (c : RegClassType) : List PhysRegId :=
  (List.range (cfg.numPhys c)).map (PhysRegId.mk c)

theorem mem_allRegs {c : RegClassType} {p : PhysRegId} :
    p ∈ allRegs cfg c ↔ p.cls = c ∧ p.index < cfg.numPhys c := by
  rw [allRegs, List.mem_map]
  constructor
  · rintro ⟨i, hi, rfl⟩
    exact ⟨rfl, List.mem_range.mp hi⟩
  · rintro ⟨rfl, hi⟩
    exact ⟨p.index, List.mem_range.mpr hi, rfl⟩

theorem allRegs_nodup (cfg : RegParams) (c : RegClassType) : (allRegs cfg c).Nodup :=
  List.nodup_range.map fun _ _ hij => (PhysRegId.mk.inj hij).2

theorem heldRegs_append (log log' : List RenameHistory) (c : RegClassType) :
    heldRegs (log ++ log') c = heldRegs log c ++ heldRegs log' c := by
  rw [heldRegs, List.filter_append, List.map_append, heldRegs, heldRegs]

theorem heldRegs_singleton (h : RenameHistory) (c : RegClassType) :
    heldRegs [h] c =
      if h.newPhysReg ≠ h.prevPhysReg ∧ h.prevPhysReg.cls = c then [h.prevPhysReg] else [] := by
  by_cases hh : h.newPhysReg ≠ h.prevPhysReg ∧ h.prevPhysReg.cls = c
  · rw [if_pos hh, heldRegs, List.filter_cons_of_pos (by simpa using hh)]
    rfl
  · rw [if_neg hh, heldRegs, List.filter_cons_of_neg (by simpa using hh)]
    rfl

/-- Two maps that differ in one register swap what they map it to. -/
theorem filterMap_perm_of_change {α β : Type*} {f g : α → Option β} {l : List α} {a : α} {x y : β}
    (hl : l.Nodup) (ha : a ∈ l) (hf : f a = some x) (hg : g a = some y)
    (hfg : ∀ b ∈ l, b ≠ a → f b = g b) : (y :: l.filterMap f).Perm (x :: l.filterMap g) := by
  obtain ⟨l₁, l₂, rfl⟩ := List.append_of_mem ha
  have hout : ∀ b ∈ l₁ ++ l₂, b ≠ a := by
    rintro b hb rfl
    exact (List.nodup_cons.mp (List.perm_middle.nodup_iff.mp hl)).1 hb
  have hsame : ∀ l' : List α, (∀ b ∈ l', b ∈ l₁ ++ l₂) → l'.filterMap f = l'.filterMap g := by
    intro l' hl'
    refine List.filterMap_congr fun b hb => hfg b ?_ (hout b (hl' b hb))
    exact List.perm_middle.mem_iff.mpr (List.mem_cons_of_mem a (hl' b hb))
  have h₁ := hsame l₁ fun b hb => List.mem_append_left l₂ hb
  have h₂ := hsame l₂ fun b hb => List.mem_append_right l₁ hb
  rw [List.filterMap_append, List.filterMap_append, List.filterMap_cons_some hf,
    List.filterMap_cons_some hg, h₁, h₂]
  exact (List.perm_middle.cons y).trans
    ((List.Perm.swap x y _).trans (List.perm_middle.symm.cons x))

theorem mappedRegs_update {r : RegId} {p q : PhysRegId} (hr : r.index < cfg.numArch r.cls)
    (hq : map r = some q) :
    (q :: mappedRegs cfg (Function.update map r (some p)) r.cls).Perm
      (p :: mappedRegs cfg map r.cls) := by
  refine filterMap_perm_of_change List.nodup_range (List.mem_range.mpr hr)
    (Function.update_self r (some p) map) hq fun i _ hi => ?_
  exact Function.update_of_ne (fun h => hi (RegId.mk.inj h).2) ..

theorem mappedRegs_update_ne {r : RegId} {x : Option PhysRegId} {c : RegClassType}
    (hc : c ≠ r.cls) : mappedRegs cfg (Function.update map r x) c = mappedRegs cfg map c := by
  refine List.filterMap_congr fun i _ => ?_
  exact Function.update_of_ne (fun h => hc (congrArg RegId.cls h)) ..

end Owners

section Ledger

/-- What `undoRename` makes of the map. -/
def undoneMap (map : RegId → Option PhysRegId) (h : RenameHistory) : RegId → Option PhysRegId :=
  if h.newPhysReg = h.prevPhysReg then map
  else Function.update map h.archReg (some h.prevPhysReg)

/-- The newest entry is what the map says of its register, and so is each one once those after it
are undone. -/
def Undoable (cfg : RegParams) : (RegId → Option PhysRegId) → List RenameHistory → Prop
  | _, [] => True
  | map, h :: log =>
    (h.newPhysReg ≠ h.prevPhysReg → cfg.Valid h.archReg ∧ map h.archReg = some h.newPhysReg ∧
      h.prevPhysReg.cls = h.archReg.cls) ∧ Undoable cfg (undoneMap map h) log

theorem Undoable.append_left (h : Undoable cfg map (log ++ log')) : Undoable cfg map log := by
  induction log generalizing map with
  | nil => trivial
  | cons a log ih => exact ⟨h.1, ih h.2⟩

/-- The free registers, those mapped to and those kept back are all registers of the class, each
once. -/
structure Ledger (cfg : RegParams) (free : RegClassType → List PhysRegId)
    (map : RegId → Option PhysRegId) (log : List RenameHistory) : Prop where
  perm : ∀ c ∈ RegClassType.renamed,
    (free c ++ mappedRegs cfg map c ++ heldRegs log c).Perm (allRegs cfg c)
  undoable : Undoable cfg map log
  valid : ∀ r, (map r).isSome → cfg.Valid r

namespace Ledger

variable {c : RegClassType} {p q : PhysRegId} {r : RegId} {rest : List PhysRegId}

theorem nodup (h : Ledger cfg free map log) (hc : c ∈ RegClassType.renamed) :
    (free c ++ mappedRegs cfg map c ++ heldRegs log c).Nodup :=
  (h.perm c hc).nodup_iff.mpr (allRegs_nodup cfg c)

theorem mem_mappedRegs (h : Ledger cfg free map log) (hr : map r = some p) :
    cfg.Valid r ∧ p ∈ mappedRegs cfg map r.cls := by
  have hvalid := h.valid r (by simp [hr])
  exact ⟨hvalid, List.mem_filterMap.mpr ⟨r.index, List.mem_range.mpr hvalid.2, hr⟩⟩

theorem cls_of_mapped (h : Ledger cfg free map log) (hr : map r = some p) : p.cls = r.cls := by
  obtain ⟨hvalid, hp⟩ := h.mem_mappedRegs hr
  have hmem : p ∈ free r.cls ++ mappedRegs cfg map r.cls ++ heldRegs log r.cls := by simp [hp]
  exact (mem_allRegs.mp ((h.perm r.cls hvalid.1).mem_iff.mp hmem)).1

theorem free_ne_mapped (h : Ledger cfg free map log) (hr : map r = some q)
    (hp : p ∈ free r.cls) : p ≠ q := by
  obtain ⟨hvalid, hq⟩ := h.mem_mappedRegs hr
  have hnodup := (List.nodup_append.mp (h.nodup hvalid.1)).1
  exact (List.nodup_append.mp hnodup).2.2 p hp q hq

/-- A rename that keeps the mapping leaves the owners alone. -/
theorem record_same (h : Ledger cfg free map log) {seqNum : Nat} :
    Ledger cfg free map (⟨seqNum, r, q, q⟩ :: log) where
  perm c hc := by
    have hheld : heldRegs (⟨seqNum, r, q, q⟩ :: log) c = heldRegs log c := by
      rw [heldRegs, List.filter_cons_of_neg (by simp), heldRegs]
    rw [hheld]
    exact h.perm c hc
  undoable := ⟨fun hne => absurd rfl hne, by simpa [undoneMap] using h.undoable⟩
  valid := h.valid

/-- A rename takes a free register, and keeps back the one it replaces. -/
theorem record (h : Ledger cfg free map log) (hr : map r = some q) (hfree : free r.cls = p :: rest)
    {seqNum : Nat} :
    undoneMap (Function.update map r (some p)) ⟨seqNum, r, p, q⟩ = map ∧
      Ledger cfg (Function.update free r.cls rest) (Function.update map r (some p))
        (⟨seqNum, r, p, q⟩ :: log) := by
  obtain ⟨hvalid, -⟩ := h.mem_mappedRegs hr
  have hcls := h.cls_of_mapped hr
  have hne : p ≠ q := h.free_ne_mapped hr (by simp [hfree])
  have hundo : undoneMap (Function.update map r (some p)) ⟨seqNum, r, p, q⟩ = map := by
    rw [undoneMap, if_neg hne]
    simp [← hr]
  refine ⟨hundo, fun c hc => ?_, ⟨fun _ => ⟨hvalid, by simp, hcls⟩, ?_⟩, fun r' hr' => ?_⟩
  · rw [← List.singleton_append, heldRegs_append, heldRegs_singleton]
    by_cases hcr : c = r.cls
    · subst hcr
      rw [if_pos ⟨hne, hcls⟩, Function.update_self]
      refine List.Perm.trans ?_ (h.perm r.cls hc)
      -- `q` goes from the map to the history, `p` from the free list to the map
      have hswap := mappedRegs_update (p := p) hvalid.2 hr
      rw [hfree, List.perm_iff_count]
      intro a
      have hcount := hswap.count_eq a
      simp only [List.count_append, List.count_cons, List.count_nil] at hcount ⊢
      omega
    · have hq : ¬ (p ≠ q ∧ q.cls = c) := fun hq => hcr (hq.2.symm.trans hcls)
      rw [if_neg hq, Function.update_of_ne hcr, mappedRegs_update_ne hcr]
      exact h.perm c hc
  · rw [hundo]
    exact h.undoable
  · by_cases hrr : r' = r
    · exact hrr ▸ hvalid
    · rw [Function.update_of_ne hrr] at hr'
      exact h.valid r' hr'

/-- The undo of a rename frees the register it took, and maps to the one it replaced again. -/
theorem undo (h : Ledger cfg free map (entry :: log)) (hne : entry.newPhysReg ≠ entry.prevPhysReg) :
    cfg.Valid entry.archReg ∧ entry.prevPhysReg.cls = entry.archReg.cls ∧
      Ledger cfg
        (Function.update free entry.newPhysReg.cls
          (free entry.newPhysReg.cls ++ [entry.newPhysReg]))
        (Function.update map entry.archReg (some entry.prevPhysReg)) log := by
  obtain ⟨hvalid, hmap, hcls⟩ := h.undoable.1 hne
  have hnew := h.cls_of_mapped hmap
  refine ⟨hvalid, hcls, fun c hc => ?_, ?_, fun r hr => ?_⟩
  · have hperm := h.perm c hc
    rw [← List.singleton_append, heldRegs_append, heldRegs_singleton] at hperm
    by_cases hcr : c = entry.archReg.cls
    · subst hcr
      rw [if_pos ⟨hne, hcls⟩] at hperm
      rw [hnew, Function.update_self]
      refine List.Perm.trans ?_ hperm
      have hswap := mappedRegs_update (p := entry.prevPhysReg) hvalid.2 hmap
      rw [List.perm_iff_count]
      intro a
      have hcount := hswap.count_eq a
      simp only [List.count_append, List.count_cons, List.count_nil] at hcount ⊢
      omega
    · have hprev : ¬ (entry.newPhysReg ≠ entry.prevPhysReg ∧ entry.prevPhysReg.cls = c) :=
        fun hp => hcr (hp.2.symm.trans hcls)
      rw [if_neg hprev] at hperm
      rw [hnew, Function.update_of_ne hcr, mappedRegs_update_ne hcr]
      exact hperm
  · have hundo := h.undoable.2
    rwa [undoneMap, if_neg hne] at hundo
  · by_cases hrr : r = entry.archReg
    · exact hrr ▸ hvalid
    · rw [Function.update_of_ne hrr] at hr
      exact h.valid r hr

theorem undo_same (h : Ledger cfg free map (entry :: log))
    (heq : entry.newPhysReg = entry.prevPhysReg) : Ledger cfg free map log where
  perm c hc := by
    have hperm := h.perm c hc
    rwa [← List.singleton_append, heldRegs_append, heldRegs_singleton,
      if_neg (fun hp => hp.1 heq), List.nil_append] at hperm
  undoable := by
    have hundo := h.undoable.2
    rwa [undoneMap, if_pos heq] at hundo
  valid := h.valid

/-- A rename that is final frees the register it replaced. -/
theorem commit (h : Ledger cfg free map (log ++ [entry]))
    (hne : entry.newPhysReg ≠ entry.prevPhysReg) :
    Ledger cfg (Function.update free entry.prevPhysReg.cls
      (free entry.prevPhysReg.cls ++ [entry.prevPhysReg])) map log where
  perm c hc := by
    have hperm := h.perm c hc
    rw [heldRegs_append, heldRegs_singleton] at hperm
    by_cases hcls : entry.prevPhysReg.cls = c
    · subst hcls
      rw [if_pos ⟨hne, rfl⟩] at hperm
      rw [Function.update_self]
      refine List.Perm.trans ?_ hperm
      rw [List.perm_iff_count]
      intro a
      simp only [List.count_append]
      omega
    · rw [if_neg fun hp => hcls hp.2, List.append_nil] at hperm
      rw [Function.update_of_ne (Ne.symm hcls)]
      exact hperm
  undoable := h.undoable.append_left
  valid := h.valid

theorem commit_same (h : Ledger cfg free map (log ++ [entry]))
    (heq : entry.newPhysReg = entry.prevPhysReg) : Ledger cfg free map log where
  perm c hc := by
    have hperm := h.perm c hc
    rwa [heldRegs_append, heldRegs_singleton, if_neg (fun hp => hp.1 heq), List.append_nil]
      at hperm
  undoable := h.undoable.append_left
  valid := h.valid

end Ledger

end Ledger

section Operations

theorem renameable_renamed {r : RegId} (h : r.isRenameable = true) :
    r.cls ∈ RegClassType.renamed := by
  obtain ⟨c, i⟩ := r
  cases c <;> simp_all [RegId.isRenameable, RegClassType.renamed]

theorem unsetReady_rest (s : RegState PC σ) (p : PhysRegId) :
    ∃ scoreboard, s.unsetReady cfg p = { s with scoreboard } := by
  unfold unsetReady
  split
  · exact ⟨s.scoreboard, rfl⟩
  · exact ⟨_, rfl⟩

/-- The rename of one destination register adds one entry, which undoes it. -/
theorem renameDestReg_ledger {seqNum : Nat} {r : RegId}
    (h : Ledger cfg s.freeLists s.renameMap s.historyBuffer) (hpins : ∀ p, s.numPinnedWrites p = 0)
    (hstep : s.renameDestReg cfg seqNum r 0 = some t) :
    (∃ e : RenameHistory, e.instSeqNum = seqNum ∧ t.historyBuffer = e :: s.historyBuffer ∧
      undoneMap t.renameMap e = s.renameMap) ∧
    Ledger cfg t.freeLists t.renameMap t.historyBuffer ∧ ∀ p, t.numPinnedWrites p = 0 := by
  simp only [renameDestReg, Option.bind_eq_bind] at hstep
  obtain ⟨⟨u, new, prev⟩, hu, hstep⟩ := Option.bind_eq_some_iff.mp hstep
  obtain ⟨scoreboard, hready⟩ := @unsetReady_rest _ _ cfg u new
  rw [hready] at hstep
  cases hstep
  simp only [rename, Option.bind_eq_bind] at hu
  obtain ⟨q, hq, hu⟩ := Option.bind_eq_some_iff.mp hu
  by_cases hr : r.isRenameable = true
  · have hrenamed := renameable_renamed hr
    rw [lookup_renamed _ hrenamed] at hq
    simp only [hr, hpins, Bool.not_true, Bool.false_eq_true, if_false, lt_irrefl] at hu
    obtain ⟨⟨v, p⟩, hv, hu⟩ := Option.bind_eq_some_iff.mp hu
    cases hu
    unfold getFreeReg at hv
    split at hv
    · cases hv
    · rename_i rest hfree
      cases hv
      obtain ⟨hundo, hledger⟩ := @Ledger.record _ _ _ _ _ _ _ _ h hq hfree seqNum
      refine ⟨⟨_, rfl, rfl, hundo⟩, hledger, fun p' => ?_⟩
      by_cases hp : p' = p
      · simp [hp]
      · simp only [Function.update_of_ne hp, hpins]
  · simp only [hr, Bool.not_false, if_true] at hu
    cases hu
    exact ⟨⟨_, rfl, rfl, if_pos rfl⟩, h.record_same, hpins⟩

/-- What the rename stage keeps of its registers. -/
structure Renamed (cfg : RegParams) (s : RegState PC σ) (log : List RenameHistory) : Prop where
  ledger : Ledger cfg s.freeLists s.renameMap log
  pins : ∀ p, s.numPinnedWrites p = 0

/-- The destination registers of one instruction. -/
theorem renameDestRegs_ledger {seqNum : Nat} {dests : List RegId}
    (h : Renamed cfg s s.historyBuffer)
    (hstep : dests.foldlM (fun s r => s.renameDestReg cfg seqNum r 0) s = some t) :
    Renamed cfg t t.historyBuffer ∧
      ∃ new, t.historyBuffer = new ++ s.historyBuffer ∧ (∀ e ∈ new, e.instSeqNum = seqNum) ∧
        rewind undoneMap t.renameMap new = s.renameMap := by
  induction dests generalizing s with
  | nil =>
    cases hstep
    exact ⟨h, [], rfl, fun _ he => absurd he List.not_mem_nil, rfl⟩
  | cons r dests ih =>
    rw [List.foldlM_cons] at hstep
    obtain ⟨u, hu, hstep⟩ := Option.bind_eq_some_iff.mp hstep
    obtain ⟨⟨e, hseq, hlog, hundo⟩, hledger, hpins⟩ := renameDestReg_ledger h.ledger h.pins hu
    obtain ⟨ht, new, hnew, hseqs, hrewind⟩ := ih ⟨hledger, hpins⟩ hstep
    refine ⟨ht, new ++ [e], by simp [hnew, hlog], fun e' he' => ?_, ?_⟩
    · rcases List.mem_append.mp he' with he' | he'
      · exact hseqs e' he'
      · rw [List.mem_singleton.mp he', hseq]
    · rw [rewind_append, hrewind]
      exact hundo

theorem undoRename_ledger (h : Renamed cfg s (entry :: log)) :
    ∃ t, s.undoRename entry = some t ∧ t.renameMap = undoneMap s.renameMap entry ∧
      Renamed cfg t log ∧ t.historyBuffer = s.historyBuffer := by
  by_cases heq : entry.newPhysReg = entry.prevPhysReg
  · exact ⟨s, by rw [undoRename, if_pos heq], by rw [undoneMap, if_pos heq],
      ⟨h.ledger.undo_same heq, h.pins⟩, rfl⟩
  · obtain ⟨hvalid, hcls, hledger⟩ := h.ledger.undo heq
    rw [undoRename, if_neg heq, setEntry_renamed hvalid.1 hcls]
    exact ⟨_, rfl, by rw [undoneMap, if_neg heq]; rfl, ⟨hledger, h.pins⟩, rfl⟩

/-- A squash never fails, and rewinds the map. -/
theorem undoRenames_ledger (h : Renamed cfg s (log' ++ log)) :
    ∃ t, log'.foldlM undoRename s = some t ∧ t.renameMap = rewind undoneMap s.renameMap log' ∧
      Renamed cfg t log ∧ t.historyBuffer = s.historyBuffer := by
  induction log' generalizing s with
  | nil => exact ⟨s, rfl, rfl, h, rfl⟩
  | cons e log' ih =>
    obtain ⟨u, hu, hmap, hrenamed, hlog⟩ := undoRename_ledger h
    obtain ⟨t, ht, hmap', hrenamed', hlog'⟩ := ih hrenamed
    refine ⟨t, ?_, ?_, hrenamed', hlog'.trans hlog⟩
    · rw [List.foldlM_cons, hu]
      exact ht
    · rw [hmap', hmap]
      rfl

theorem freePrev_ledger (h : Renamed cfg s (log ++ [entry])) :
    Renamed cfg (s.freePrev entry) log ∧ (s.freePrev entry).renameMap = s.renameMap ∧
      (s.freePrev entry).historyBuffer = s.historyBuffer := by
  by_cases heq : entry.newPhysReg = entry.prevPhysReg
  · rw [freePrev, if_pos heq]
    exact ⟨⟨h.ledger.commit_same heq, h.pins⟩, rfl, rfl⟩
  · rw [freePrev, if_neg heq]
    exact ⟨⟨h.ledger.commit heq, h.pins⟩, rfl, rfl⟩

/-- The final renames, oldest first. -/
theorem freePrevs_ledger (h : Renamed cfg s (log ++ log'.reverse)) :
    Renamed cfg (log'.foldl freePrev s) log ∧ (log'.foldl freePrev s).renameMap = s.renameMap ∧
      (log'.foldl freePrev s).historyBuffer = s.historyBuffer := by
  induction log' generalizing s with
  | nil => exact ⟨by simpa using h, rfl, rfl⟩
  | cons e log' ih =>
    rw [List.reverse_cons, ← List.append_assoc] at h
    obtain ⟨hrenamed, hmap, hlog⟩ := freePrev_ledger h
    obtain ⟨hrenamed', hmap', hlog'⟩ := ih hrenamed
    exact ⟨hrenamed', hmap'.trans hmap, hlog'.trans hlog⟩

theorem removeFromHistory_ledger (h : Renamed cfg s s.historyBuffer) (n : Nat) :
    Renamed cfg (s.removeFromHistory n) (s.removeFromHistory n).historyBuffer ∧
      (s.removeFromHistory n).renameMap = s.renameMap ∧
      (s.removeFromHistory n).historyBuffer =
        (s.historyBuffer.reverse.dropWhile (·.instSeqNum ≤ n)).reverse := by
  have hsplit : s.historyBuffer =
      (s.historyBuffer.reverse.dropWhile (·.instSeqNum ≤ n)).reverse ++
      (s.historyBuffer.reverse.takeWhile (·.instSeqNum ≤ n)).reverse := by
    rw [← List.reverse_append, List.takeWhile_append_dropWhile, List.reverse_reverse]
  rw [hsplit] at h
  obtain ⟨hrenamed, hmap, hlog⟩ := freePrevs_ledger (s := { s with
    historyBuffer := (s.historyBuffer.reverse.dropWhile (·.instSeqNum ≤ n)).reverse })
    ⟨h.ledger, h.pins⟩
  have hlog' : (s.removeFromHistory n).historyBuffer =
      (s.historyBuffer.reverse.dropWhile (·.instSeqNum ≤ n)).reverse := hlog
  refine ⟨?_, hmap, hlog'⟩
  rw [hlog']
  exact hrenamed

end Operations

section System

/-- The rename stage since the last restore: its registers, the map it started with, the
instructions that have been renamed and not squashed, youngest first, each with the map right
after it, and the largest sequence numbers retired and renamed. -/
structure Renaming (PC σ : Type) where
  regs : RegState PC σ
  start : RegId → Option PhysRegId
  insts : List (Nat × (RegId → Option PhysRegId))
  retired : Nat
  youngest : Nat

inductive RenameOp where
  | renameDestRegs (seqNum : Nat) (dests : List RegId)
  | doSquash (squashedSeqNum : Nat)
  | removeFromHistory (seqNum : Nat)

/-- Instructions are renamed in the order of their sequence numbers. -/
def Renaming.step (cfg : RegParams) (s : Renaming PC σ) : RenameOp → Option (Renaming PC σ)
  | .renameDestRegs seqNum dests =>
    if s.youngest < seqNum ∧ s.retired < seqNum then do
      let regs ← dests.foldlM (fun regs r => regs.renameDestReg cfg seqNum r 0) s.regs
      return { s with
        regs := regs
        insts := (seqNum, regs.renameMap) :: s.insts
        youngest := seqNum }
    else none
  | .doSquash n => do
    let regs ← s.regs.doSquash n
    return { s with regs := regs, insts := s.insts.filter (·.1 ≤ max n s.retired) }
  | .removeFromHistory n =>
    some { s with regs := s.regs.removeFromHistory n, retired := max s.retired n }

/-- Right after a restore, with no pinned writes. -/
structure Fresh (cfg : RegParams) (s : RegState PC σ) : Prop where
  remapped : Remapped cfg (mapped cfg) s
  historyBuffer : s.historyBuffer = []
  pins : ∀ p, s.numPinnedWrites p = 0

/-- The rename stage from a restore on. -/
def renamingSystem (cfg : RegParams) : Transition.System (Renaming PC σ) RenameOp where
  init s := Fresh cfg s.regs ∧ s.start = s.regs.renameMap ∧ s.insts = []
  step s op t := s.step cfg op = some t

/-- The map right after the youngest instruction up to `n` that has not been squashed. -/
def Renaming.mapAt (s : Renaming PC σ) (n : Nat) : RegId → Option PhysRegId :=
  stateAt s.start s.insts n

structure Renaming.Inv (cfg : RegParams) (s : Renaming PC σ) : Prop where
  renamed : Renamed cfg s.regs s.regs.historyBuffer
  journal : Journal undoneMap RenameHistory.instSeqNum s.start s.insts s.retired s.regs.renameMap
    s.regs.historyBuffer
  youngest : ∀ e ∈ s.regs.historyBuffer, e.instSeqNum ≤ s.youngest

theorem Fresh.renamed (h : Fresh cfg s) : Renamed cfg s s.historyBuffer := by
  rw [h.historyBuffer]
  refine ⟨⟨fun c hc => ?_, trivial, fun r hr => ?_⟩, h.pins⟩
  · have hle := cfg.le c hc
    have hmapped : mappedRegs cfg s.renameMap c =
        (List.range (cfg.numArch c)).map (PhysRegId.mk c) := by
      rw [mappedRegs, ← List.filterMap_eq_map]
      refine List.filterMap_congr fun i hi => ?_
      exact h.remapped.valid (r := ⟨c, i⟩) ⟨hc, List.mem_range.mp hi⟩
    have hall : List.range (cfg.numPhys c) = List.range (cfg.numArch c) ++
        List.range' (cfg.numArch c) (cfg.numPhys c - cfg.numArch c) := by
      have hsplit := List.range'_append_1 (s := 0) (m := cfg.numArch c)
        (n := cfg.numPhys c - cfg.numArch c)
      rw [List.range_eq_range', List.range_eq_range', ← Nat.add_sub_cancel' hle, ← hsplit]
      simp
    rw [hmapped, h.remapped.freeLists c hc, mapped_renamed hc, allRegs, hall, List.map_append]
    simpa [heldRegs] using List.perm_append_comm
  · rw [h.remapped.renameMap] at hr
    by_cases hi : r.index < mapped cfg r.cls
    · by_cases hc : r.cls ∈ RegClassType.renamed
      · rw [mapped_renamed hc] at hi
        exact ⟨hc, hi⟩
      · simp [mapped, hc] at hi
    · simp [hi] at hr

theorem doSquash_spec {s : Renaming PC σ} (h : s.Inv cfg) (n : Nat) :
    ∃ regs, s.regs.doSquash n = some regs ∧ regs.renameMap = s.mapAt (max n s.retired) ∧
      Renaming.Inv cfg { s with regs, insts := s.insts.filter (·.1 ≤ max n s.retired) } := by
  have hsplit : s.regs.historyBuffer = s.regs.historyBuffer.takeWhile (n < ·.instSeqNum) ++
      s.regs.historyBuffer.dropWhile (n < ·.instSeqNum) := List.takeWhile_append_dropWhile.symm
  have hrenamed := h.renamed
  rw [hsplit] at hrenamed
  obtain ⟨regs, hregs, hmap, hrenamed, hlog⟩ := undoRenames_ledger
    (s := { s.regs with historyBuffer := s.regs.historyBuffer.dropWhile (n < ·.instSeqNum) })
    ⟨hrenamed.ledger, hrenamed.pins⟩
  have hlog' : regs.historyBuffer = s.regs.historyBuffer.filter (·.instSeqNum ≤ n) :=
    hlog.trans (h.journal.dropWhile_eq n)
  have hrewind : regs.renameMap = rewind undoneMap s.regs.renameMap
      (s.regs.historyBuffer.filter (n < ·.instSeqNum)) := by
    rw [hmap, h.journal.takeWhile_eq n]
  refine ⟨regs, hregs, hrewind.trans (h.journal.rewind_eq n), ⟨?_, ?_, fun e he => ?_⟩⟩
  · rw [hlog]
    exact hrenamed
  · have hjournal := h.journal.squash n
    rwa [← hrewind, ← hlog'] at hjournal
  · rw [hlog'] at he
    exact h.youngest e (List.mem_filter.mp he).1

theorem Renaming.Inv.step {s t : Renaming PC σ} {op : RenameOp} (h : s.Inv cfg)
    (hstep : s.step cfg op = some t) : t.Inv cfg := by
  cases op with
  | renameDestRegs seqNum dests =>
    simp only [Renaming.step] at hstep
    split at hstep
    · rename_i hseq
      obtain ⟨regs, hregs, hstep⟩ := Option.bind_eq_some_iff.mp hstep
      cases hstep
      obtain ⟨hrenamed, new, hlog, hseqs, hundo⟩ := renameDestRegs_ledger h.renamed hregs
      refine ⟨hrenamed, ?_, fun e he => ?_⟩
      · have hjournal := h.journal.record hseqs
          (fun e he => (h.youngest e he).trans_lt hseq.1) hseq.2 hundo
        rwa [← hlog] at hjournal
      · simp only [hlog] at he
        rcases List.mem_append.mp he with he | he
        · exact (hseqs e he).le
        · exact (h.youngest e he).trans hseq.1.le
    · cases hstep
  | doSquash n =>
    obtain ⟨regs, hregs, -, hinv⟩ := doSquash_spec h n
    simp only [Renaming.step, hregs] at hstep
    cases hstep
    exact hinv
  | removeFromHistory n =>
    cases hstep
    obtain ⟨hrenamed, hmap, hlog⟩ := removeFromHistory_ledger h.renamed n
    have hlog' : (s.regs.removeFromHistory n).historyBuffer =
        s.regs.historyBuffer.filter (n < ·.instSeqNum) :=
      hlog.trans (h.journal.reverse_dropWhile_eq n)
    refine ⟨hrenamed, ?_, fun e he => ?_⟩
    · have hjournal := h.journal.commit n
      rwa [← hlog', ← hmap] at hjournal
    · rw [hlog'] at he
      exact h.youngest e (List.mem_filter.mp he).1

theorem reaches_inv {l : List RenameOp} {t : Renaming PC σ}
    (h : (renamingSystem cfg).Reaches l t) : t.Inv cfg := by
  refine h.invariant ?_ fun s op u hs hstep => hs.step hstep
  rintro s ⟨hfresh, hstart, hinsts⟩
  refine ⟨hfresh.renamed, ?_, ?_⟩
  · rw [hstart, hinsts, hfresh.historyBuffer]
    exact .empty undoneMap RenameHistory.instSeqNum s.regs.renameMap s.retired
  · rw [hfresh.historyBuffer]
    exact fun _ he => absurd he List.not_mem_nil

/-- **Registers are neither leaked nor doubly owned.** In every state the rename stage reaches
from a restore, the registers of a class that are free, mapped to and kept back are all its
physical registers, each once; and a squash down to `n` leaves the map as it was right after the
youngest instruction up to `n`, or up to the last one retired if that is younger. -/
theorem registers_owned_once {l : List RenameOp} {t : Renaming PC σ}
    (h : (renamingSystem cfg).Reaches l t) :
    (∀ c ∈ RegClassType.renamed,
      let owned := t.regs.freeLists c ++ mappedRegs cfg t.regs.renameMap c ++
        heldRegs t.regs.historyBuffer c
      owned.Nodup ∧ ∀ p, p ∈ owned ↔ p.cls = c ∧ p.index < cfg.numPhys c) ∧
    ∀ n, ∃ regs, t.regs.doSquash n = some regs ∧ regs.renameMap = t.mapAt (max n t.retired) := by
  have hinv := reaches_inv h
  refine ⟨fun c hc => ⟨hinv.renamed.ledger.nodup hc, fun p => ?_⟩, fun n => ?_⟩
  · rw [(hinv.renamed.ledger.perm c hc).mem_iff, mem_allRegs]
  · obtain ⟨regs, hregs, hmap, -⟩ := doSquash_spec hinv n
    exact ⟨regs, hregs, hmap⟩

/-- What the restore leaves alone once it has cleared the history. -/
def SameHistory (s t : RegState PC σ) : Prop :=
  t.historyBuffer = s.historyBuffer ∧ t.numPinnedWrites = s.numPinnedWrites

theorem SameHistory.trans {u : RegState PC σ} (h : SameHistory s t) (h' : SameHistory t u) :
    SameHistory s u :=
  ⟨h'.1.trans h.1, h'.2.trans h.2⟩

theorem SameHistory.foldlM {α : Type} {f : RegState PC σ → α → Option (RegState PC σ)}
    {l : List α} (hf : ∀ s a t, f s a = some t → SameHistory s t) (h : l.foldlM f s = some t) :
    SameHistory s t :=
  foldlM_rel (fun _ => ⟨rfl, rfl⟩) (fun _ _ _ => SameHistory.trans) hf h

theorem remapReg_history {c : RegClassType} {i : Nat} (h : remapReg cfg c s i = some t) :
    SameHistory s t := by
  simp only [remapReg, Option.bind_eq_bind] at h
  obtain ⟨⟨u, p⟩, hu, h⟩ := Option.bind_eq_some_iff.mp h
  obtain ⟨map, -, h⟩ := Option.bind_eq_some_iff.mp h
  obtain ⟨commitMap, -, h⟩ := Option.bind_eq_some_iff.mp h
  have hfree : SameHistory s u := by
    unfold getFreeReg at hu
    split at hu <;> cases hu
    exact ⟨rfl, rfl⟩
  cases h
  unfold setReady
  split <;> exact ⟨hfree.1, hfree.2⟩

theorem restoreClass_history {c : RegClassType} (h : restoreClass s c = some t) :
    SameHistory s t := by
  simp only [restoreClass] at h
  split at h
  · cases h
    exact ⟨rfl, rfl⟩
  · obtain ⟨u, hu, h⟩ := Option.bind_eq_some_iff.mp h
    cases h
    have hregs : SameHistory s u := by
      refine SameHistory.foldlM (fun s i t hi => ?_) hu
      simp only [restoreReg, setArchReg, Option.bind_eq_bind] at hi
      obtain ⟨curVal, -, hi⟩ := Option.bind_eq_some_iff.mp hi
      split at hi
      · obtain ⟨p, -, hi⟩ := Option.bind_eq_some_iff.mp hi
        cases hi
        exact ⟨rfl, rfl⟩
      · cases hi
        exact ⟨rfl, rfl⟩
    exact ⟨hregs.1, hregs.2⟩

/-- The restore leaves the rename stage fresh. -/
theorem restoreCheckpointState_fresh
    (hck : ∀ c ∈ RegClassType.renamed, unsaved c = false →
      (s.registerCheckpoints c).validIdxs = List.range (cfg.numArch c))
    (hpins : ∀ p, s.numPinnedWrites p = 0) :
    ∃ t, s.restoreCheckpointState cfg = some t ∧ Fresh cfg t := by
  obtain ⟨t, ht, hmap, -⟩ := restoreCheckpointState_spec hck
  refine ⟨t, ht, ?_⟩
  simp only [restoreCheckpointState, Option.bind_eq_bind] at ht
  obtain ⟨u, hu, ht⟩ := Option.bind_eq_some_iff.mp ht
  obtain ⟨v, hv, ht⟩ := Option.bind_eq_some_iff.mp ht
  cases ht
  have hremap := SameHistory.foldlM
    (fun _ _ _ => SameHistory.foldlM fun _ _ _ => remapReg_history) hu
  have hrestore := hremap.trans (SameHistory.foldlM (fun _ _ _ => restoreClass_history) hv)
  exact ⟨hmap, hrestore.1, fun p => (congrFun hrestore.2 p).trans (hpins p)⟩

/-- Two renames of the register, the second undone, then a third after the first is final. -/
def renameAgain : List RenameOp :=
  [.renameDestRegs 5 [⟨.int, 0⟩, ⟨.misc, 3⟩], .renameDestRegs 6 [⟨.int, 0⟩], .doSquash 5,
    .removeFromHistory 5, .renameDestRegs 7 [⟨.int, 0⟩]]

/-- `atEntry` with its checkpoint. -/
def saved : RegState Nat (Nat → RegVal) :=
  { atEntry with registerCheckpoints := fun c => ⟨fun _ => 7, List.range (oneReg.numArch c)⟩ }

def restored : RegState Nat (Nat → RegVal) := (saved.restoreCheckpointState oneReg).getD saved

theorem restored_fresh : Fresh oneReg restored := by
  obtain ⟨t, ht, hfresh⟩ : ∃ t, saved.restoreCheckpointState oneReg = some t ∧ Fresh oneReg t :=
    restoreCheckpointState_fresh (fun _ _ _ => rfl) fun _ => rfl
  rw [restored, ht]
  exact hfresh

def renamingRestored : Renaming Nat (Nat → RegVal) where
  regs := restored
  start := restored.renameMap
  insts := []
  retired := 4
  youngest := 4

theorem registers_owned_once_renameAgain : ∃ t : Renaming Nat (Nat → RegVal),
    t.regs.freeLists .int = [⟨.int, 0⟩] ∧
      (t.regs.freeLists .int ++ mappedRegs oneReg t.regs.renameMap .int ++
        heldRegs t.regs.historyBuffer .int).Nodup ∧
      ∃ regs, t.regs.doSquash 5 = some regs ∧ regs.renameMap = t.mapAt 5 := by
  have hlast : (renameAgain.foldlM (Renaming.step oneReg) renamingRestored).any
      (fun t => t.regs.freeLists .int = [⟨.int, 0⟩] && t.retired = 5) = true := by decide
  obtain ⟨t, ht, hlast⟩ := Option.any_eq_true .. |>.mp hlast
  rw [Bool.and_eq_true, decide_eq_true_eq, decide_eq_true_eq] at hlast
  have hreach : (renamingSystem oneReg).Reaches renameAgain t :=
    ⟨renamingRestored, ⟨restored_fresh, rfl, rfl⟩,
      .of_foldlM (M := renamingSystem oneReg) (fun _ _ _ h => h) ht⟩
  obtain ⟨howned, hsquash⟩ := registers_owned_once hreach
  refine ⟨t, hlast.1, (howned .int (by decide)).1, ?_⟩
  have h := hsquash 5
  rwa [hlast.2] at h

end System

end RegState
end Runahead
end Gem5
