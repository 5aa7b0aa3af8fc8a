import Gem5Runahead.Lib.QueueHeads
import Mathlib.Algebra.Ring.Nat

/-!
# ReadyLists

The instructions that are ready to issue: a priority queue for each class of operations, and the
list of the queues that are not empty, by the age of their oldest instruction. The list is linked,
and each queue keeps an iterator to its entry. `none` is a failing assertion, or an iterator that
does not point to an entry of the list.

* `addReady` — the end of `addIfReady` and of `addReadyMemInst`.
* `popTop` — the oldest instruction of a queue is taken, and the entry of the queue is replaced.
* `Linked` — the list has one entry for each queue that is not empty, and the iterators point there.
-/

namespace Gem5
namespace Runahead

/-- An entry, with the node of the list that it is in. -/
structure ListOrderEntry (κ : Type) where
  node : Nat
  queueType : κ
  oldestInst : Nat

structure ReadyLists (κ : Type) where
  /-- Priority queues of sequence numbers, in the order in which they are popped. -/
  readyInsts : κ → List Nat := fun _ => []
  listOrder : List (ListOrderEntry κ) := []
  queueOnList : κ → Bool := fun _ => false
  /-- `none` is the end of the list. -/
  readyIt : κ → Option Nat := fun _ => none
  nextNode : Nat := 0

namespace ReadyLists

variable {κ : Type}

section Operations

/-- The entry that an iterator points to. -/
def entryAt (s : ReadyLists κ) (it : Option Nat) : Option (ListOrderEntry κ) :=
  it.bind fun node => s.listOrder.find? fun e => e.node == node

def erase (s : ReadyLists κ) (it : Option Nat) : Option (ReadyLists κ) := do
  let e ← s.entryAt it
  return { s with listOrder := s.listOrder.eraseP fun e' => e'.node == e.node }

variable [DecidableEq κ]

def push (s : ReadyLists κ) (opClass : κ) (inst : Nat) : ReadyLists κ :=
  { s with
    readyInsts := Function.update s.readyInsts opClass
      ((s.readyInsts opClass).orderedInsert (· ≤ ·) inst) }

def addToOrderList (s : ReadyLists κ) (opClass : κ) : Option (ReadyLists κ) := do
  let top ← (s.readyInsts opClass).head?
  let queue_entry := ⟨s.nextNode, opClass, top⟩
  return { s with
    listOrder := s.listOrder.orderedInsert (fun e x => e.oldestInst < x.oldestInst) queue_entry
    readyIt := Function.update s.readyIt opClass (some s.nextNode)
    queueOnList := Function.update s.queueOnList opClass true
    nextNode := s.nextNode + 1 }

def addReady (s : ReadyLists κ) (opClass : κ) (inst : Nat) : Option (ReadyLists κ) := do
  let s := s.push opClass inst
  if !s.queueOnList opClass then s.addToOrderList opClass
  else
    let top ← (s.readyInsts opClass).head?
    let e ← s.entryAt (s.readyIt opClass)
    if top < e.oldestInst then do
      let s ← s.erase (s.readyIt opClass)
      s.addToOrderList opClass
    else return s

/-- The new entry of a queue is put into what comes after the old one. -/
def moveToYoungerInst (s : ReadyLists κ) (opClass : κ) (next : List (ListOrderEntry κ)) :
    Option (ReadyLists κ × List (ListOrderEntry κ)) := do
  let top ← (s.readyInsts opClass).head?
  let queue_entry := ⟨s.nextNode, opClass, top⟩
  return ({ s with
    readyIt := Function.update s.readyIt opClass (some s.nextNode)
    nextNode := s.nextNode + 1 },
    next.orderedInsert (fun e x => e.oldestInst ≤ x.oldestInst) queue_entry)

/-- The queue at the iterator of the list is popped; `next` comes after the iterator. The old entry
of the queue is erased, and the result comes in its place. -/
def popTop (s : ReadyLists κ) (opClass : κ) (next : List (ListOrderEntry κ)) :
    Option (ReadyLists κ × List (ListOrderEntry κ)) :=
  let s := { s with
    readyInsts := Function.update s.readyInsts opClass (s.readyInsts opClass).tail }
  if s.readyInsts opClass ≠ [] then s.moveToYoungerInst opClass next
  else some ({ s with
    readyIt := Function.update s.readyIt opClass none
    queueOnList := Function.update s.queueOnList opClass false }, next)

end Operations

/-- The list is right for the classes of a set, and so are the iterators. -/
structure Linked (s : ReadyLists κ) (covered : Set κ) (order : List (ListOrderEntry κ)) :
    Prop where
  heads : QueueHeads ListOrderEntry.queueType ListOrderEntry.oldestInst covered s.readyInsts order
  onList : ∀ c ∈ covered, s.queueOnList c = true ↔ c ∈ order.map ListOrderEntry.queueType
  readyIt : ∀ e ∈ order, s.readyIt e.queueType = some e.node
  nodes : (order.map ListOrderEntry.node).Nodup
  fresh : ∀ e ∈ order, e.node < s.nextNode

def Ok (s : ReadyLists κ) : Prop := s.Linked Set.univ s.listOrder

/-- How many instructions the queues of a part of the list hold. -/
def load (s : ReadyLists κ) (l : List (ListOrderEntry κ)) : Nat :=
  (l.map fun e => (s.readyInsts e.queueType).length).sum

variable {s : ReadyLists κ} {covered : Set κ} {order order' passed rest : List (ListOrderEntry κ)}
  {c : κ} {e : ListOrderEntry κ} {i top : Nat} {l : List Nat}

section Iterators

theorem ok_empty : Ok ({} : ReadyLists κ) :=
  ⟨.empty, fun _ _ => by simp, fun _ h => absurd h List.not_mem_nil, .nil,
    fun _ h => absurd h List.not_mem_nil⟩

theorem Linked.remove (h : s.Linked covered (passed ++ e :: rest)) :
    s.Linked (covered \ {e.queueType}) (passed ++ rest) := by
  have hsub : List.Sublist (passed ++ rest) (passed ++ e :: rest) :=
    (List.sublist_cons_self e rest).append_left passed
  refine ⟨h.heads.remove, fun c hc => (h.onList c hc.1).trans ?_,
    fun e' he' => h.readyIt e' (hsub.subset he'), h.nodes.sublist (hsub.map _),
    fun e' he' => h.fresh e' (hsub.subset he')⟩
  have hne : c ≠ e.queueType := hc.2
  simp [hne]

theorem Linked.unlisted (h : s.Linked covered order) (hc : s.readyInsts c = []) :
    s.Linked (covered \ {c}) order :=
  ⟨h.heads.unlisted hc, fun d hd => h.onList d hd.1, h.readyIt, h.nodes, h.fresh⟩

theorem before_node (hlist : s.listOrder = passed ++ e :: rest)
    (hnodes : (s.listOrder.map ListOrderEntry.node).Nodup) :
    ∀ x ∈ passed, ¬ (x.node == e.node) = true := by
  intro x hx heq
  rw [hlist, List.map_append, List.nodup_append] at hnodes
  exact hnodes.2.2 x.node (List.mem_map_of_mem hx) e.node (by simp) (by simpa using heq)

theorem entryAt_node (hlist : s.listOrder = passed ++ e :: rest)
    (hnodes : (s.listOrder.map ListOrderEntry.node).Nodup) :
    s.entryAt (some e.node) = some e := by
  rw [entryAt, Option.bind_some, hlist, List.find?_append,
    List.find?_eq_none.mpr (before_node hlist hnodes)]
  simp

theorem erase_node (hlist : s.listOrder = passed ++ e :: rest)
    (hnodes : (s.listOrder.map ListOrderEntry.node).Nodup) :
    s.erase (some e.node) = some { s with listOrder := passed ++ rest } := by
  have herase : s.listOrder.eraseP (fun e' => e'.node == e.node) = passed ++ rest := by
    rw [hlist, List.eraseP_append_right _ (before_node hlist hnodes),
      List.eraseP_cons_of_pos (by simp)]
  simp [ReadyLists.erase, entryAt_node hlist hnodes, herase]

theorem load_congr {s' : ReadyLists κ} (h : ∀ x ∈ rest,
    s'.readyInsts x.queueType = s.readyInsts x.queueType) : s'.load rest = s.load rest := by
  rw [load, load, List.map_congr_left]
  intro x hx
  rw [h x hx]

end Iterators

variable [DecidableEq κ]

section Insert

theorem Linked.change (h : s.Linked (covered \ {c}) order) (hl : l.Pairwise (· ≤ ·)) :
    { s with readyInsts := Function.update s.readyInsts c l }.Linked (covered \ {c}) order :=
  ⟨h.heads.change hl, h.onList, h.readyIt, h.nodes, h.fresh⟩

/-- A class comes back with an entry in a node of its own. -/
theorem Linked.insert (h : s.Linked (Set.univ \ {c}) order)
    (htop : (s.readyInsts c).head? = some top) (hperm : order'.Perm (⟨s.nextNode, c, top⟩ :: order))
    (hordered : order'.Pairwise (ListOrderEntry.oldestInst · ≤ ListOrderEntry.oldestInst ·))
    {queueOnList : κ → Bool} (hon : queueOnList c = true)
    (hother : ∀ d, d ≠ c → queueOnList d = s.queueOnList d)
    (listOrder : List (ListOrderEntry κ)) :
    { s with
      listOrder
      queueOnList
      readyIt := Function.update s.readyIt c (some s.nextNode)
      nextNode := s.nextNode + 1 }.Linked Set.univ order' := by
  have hnotin : ∀ e ∈ order, e.queueType ≠ c := fun e he => (h.heads.covered e he).2
  refine ⟨h.heads.insert trivial htop hperm hordered, fun d _ => ?_, fun e he => ?_, ?_,
    fun e he => ?_⟩
  · rw [(hperm.map _).mem_iff, List.map_cons, List.mem_cons]
    by_cases hd : d = c
    · subst hd
      simp [hon]
    · simp [hd, hother d hd, h.onList d ⟨trivial, hd⟩]
  · rcases List.mem_cons.mp (hperm.mem_iff.mp he) with rfl | he
    · simp
    · simp [hnotin e he, h.readyIt e he]
  · rw [(hperm.map _).nodup_iff, List.map_cons, List.nodup_cons]
    refine ⟨fun hmem => ?_, h.nodes⟩
    obtain ⟨e, he, heq⟩ := List.mem_map.mp hmem
    exact absurd heq (Nat.ne_of_lt (h.fresh e he))
  · rcases List.mem_cons.mp (hperm.mem_iff.mp he) with rfl | he
    · exact Nat.lt_succ_self _
    · exact Nat.lt_succ_of_lt (h.fresh e he)

theorem addToOrderList_spec (h : s.Linked (Set.univ \ {c}) s.listOrder)
    (htop : (s.readyInsts c).head? = some top) :
    ∃ s', s.addToOrderList c = some s' ∧ s'.Ok ∧ s'.readyInsts = s.readyInsts := by
  refine ⟨{ s with
    listOrder := s.listOrder.orderedInsert (fun e x => e.oldestInst < x.oldestInst)
      ⟨s.nextNode, c, top⟩
    queueOnList := Function.update s.queueOnList c true
    readyIt := Function.update s.readyIt c (some s.nextNode)
    nextNode := s.nextNode + 1 }, by simp [addToOrderList, htop], ?_, rfl⟩
  refine h.insert htop (List.perm_orderedInsert ..) ?_ (Function.update_self ..)
    (fun d hd => Function.update_of_ne hd ..) _
  exact pairwise_orderedInsert (fun x hx => Nat.le_of_lt hx) (fun x hx => Nat.le_of_not_lt hx)
    h.heads.ordered

theorem sorted_push (hl : l.Pairwise (· ≤ ·)) (i : Nat) :
    (l.orderedInsert (· ≤ ·) i).Pairwise (· ≤ ·) :=
  @pairwise_orderedInsert Nat Nat _ id (· ≤ ·) _ i l (fun _ hx => hx) (fun _ hx => Nat.le_of_not_le hx)
    hl

/-- An instruction that is ready joins the queue of its class, and the list stays right. -/
theorem addReady_spec (h : s.Ok) (c : κ) (i : Nat) :
    ∃ s', s.addReady c i = some s' ∧ s'.Ok ∧ s'.readyInsts =
      Function.update s.readyInsts c ((s.readyInsts c).orderedInsert (· ≤ ·) i) := by
  have hsorted := sorted_push (h.heads.sorted c) i
  cases hon : s.queueOnList c with
  | false =>
    have hempty : s.readyInsts c = [] := by
      by_contra hne
      have hmem := (h.onList c trivial).mpr (h.heads.listed c trivial hne)
      rw [hon] at hmem
      cases hmem
    obtain ⟨s', hs', hok, hready⟩ := @addToOrderList_spec _ (s.push c i) c i _
      ((h.unlisted hempty).change hsorted) (by simp [push, hempty])
    refine ⟨s', ?_, hok, hready⟩
    have honlist : (s.push c i).queueOnList c = false := hon
    simp [addReady, honlist, hs']
  | true =>
    obtain ⟨e, he, hc⟩ := List.mem_map.mp ((h.onList c trivial).mp hon)
    subst hc
    obtain ⟨passed, rest, hlist⟩ := List.append_of_mem he
    have hlinked : s.Linked Set.univ (passed ++ e :: rest) := hlist ▸ h
    have hbut := hlinked.remove.change hsorted
    have honlist : (s.push e.queueType i).queueOnList e.queueType = true := hon
    have hit : (s.push e.queueType i).readyIt e.queueType = some e.node := h.readyIt e he
    have hentry : (s.push e.queueType i).entryAt (some e.node) = some e :=
      entryAt_node hlist h.nodes
    have herase := @erase_node _ (s.push e.queueType i) passed rest e hlist h.nodes
    obtain ⟨q, hq⟩ := h.heads.head_cons he
    by_cases hlt : i < e.oldestInst
    · -- the queue moves to where its new oldest instruction belongs
      have htop : ((s.push e.queueType i).readyInsts e.queueType).head? = some i := by
        simp [push, hq, Nat.le_of_lt hlt]
      obtain ⟨s', hs', hok, hready⟩ := @addToOrderList_spec _
        { s.push e.queueType i with listOrder := passed ++ rest } e.queueType i _
        ⟨hbut.heads, hbut.onList, hbut.readyIt, hbut.nodes, hbut.fresh⟩ htop
      refine ⟨s', ?_, hok, hready⟩
      simp [addReady, honlist, htop, hit, hentry, hlt, herase, hs']
    · have htop : ((s.push e.queueType i).readyInsts e.queueType).head? = some e.oldestInst := by
        rcases Nat.lt_or_ge e.oldestInst i with hgt | hge
        · simp [push, hq, Nat.not_le_of_lt hgt]
        · have heq : i = e.oldestInst := by omega
          simp [push, hq, heq]
      refine ⟨s.push e.queueType i, by simp [addReady, honlist, htop, hit, hentry], ?_, rfl⟩
      have hperm : s.listOrder.Perm (e :: (passed ++ rest)) := by
        rw [hlist]
        exact List.perm_middle
      exact ⟨hbut.heads.insert trivial htop hperm h.heads.ordered, h.onList, h.readyIt, h.nodes,
        h.fresh⟩

end Insert

section Pop

/-- The oldest instruction at the iterator is popped: what comes next is not older, and there is
one instruction less to come. -/
theorem popTop_spec (h : s.Linked Set.univ (passed ++ e :: rest)) :
    ∃ s' next, s.popTop e.queueType rest = some (s', next) ∧ s'.Linked Set.univ (passed ++ next) ∧
      s'.readyInsts =
        Function.update s.readyInsts e.queueType (s.readyInsts e.queueType).tail ∧
      (∀ x ∈ next, e.oldestInst ≤ x.oldestInst) ∧ s'.load next < s.load (e :: rest) := by
  obtain ⟨q, hq⟩ := h.heads.head_cons (e := e) (by simp)
  have hsorted := h.heads.sorted e.queueType
  rw [hq] at hsorted
  obtain ⟨hhead, hsorted⟩ := List.pairwise_cons.mp hsorted
  have hbut := h.remove.change hsorted
  have hother : ∀ x ∈ passed ++ rest, x.queueType ≠ e.queueType :=
    fun x hx => (hbut.heads.covered x hx).2
  have hordered := (List.pairwise_append.mp h.heads.ordered).2.1
  have hpassed : ∀ x ∈ passed, x.oldestInst ≤ e.oldestInst :=
    fun x hx => (List.pairwise_append.mp h.heads.ordered).2.2 x hx e List.mem_cons_self
  have hload : ∀ s' : ReadyLists κ, s'.readyInsts = Function.update s.readyInsts e.queueType q →
      s'.load rest = s.load rest := fun s' hs' => load_congr fun x hx => by
    rw [hs', Function.update_of_ne (hother x (List.mem_append_right _ hx))]
  have hbefore : s.load (e :: rest) = q.length + 1 + s.load rest := by simp [load, hq]
  cases q with
  | nil =>
    refine ⟨{ s with
      readyInsts := Function.update s.readyInsts e.queueType []
      readyIt := Function.update s.readyIt e.queueType none
      queueOnList := Function.update s.queueOnList e.queueType false }, rest,
      by simp [popTop, hq], ?_, by rw [hq]; rfl, (List.pairwise_cons.mp hordered).1, ?_⟩
    · refine ⟨hbut.heads.close (Function.update_self ..), fun d _ => ?_, fun x hx => ?_,
        hbut.nodes, hbut.fresh⟩
      · by_cases hd : d = e.queueType
        · subst hd
          simp only [Function.update_self, Bool.false_eq_true, false_iff]
          intro hmem
          obtain ⟨x, hx, heq⟩ := List.mem_map.mp hmem
          exact hother x hx heq
        · simpa [hd] using hbut.onList d ⟨trivial, hd⟩
      · exact (Function.update_of_ne (hother x hx) ..).trans (hbut.readyIt x hx)
    · rw [hload _ rfl, hbefore]
      omega
  | cons top q =>
    have hon : s.queueOnList e.queueType = true := (h.onList _ trivial).mpr (by simp)
    have hle : e.oldestInst ≤ top := hhead top List.mem_cons_self
    have hperm := List.perm_orderedInsert
      (fun e x : ListOrderEntry κ => e.oldestInst ≤ x.oldestInst) ⟨s.nextNode, e.queueType, top⟩ rest
    refine ⟨{ s with
      readyInsts := Function.update s.readyInsts e.queueType (top :: q)
      readyIt := Function.update s.readyIt e.queueType (some s.nextNode)
      nextNode := s.nextNode + 1 }, rest.orderedInsert (fun e x => e.oldestInst ≤ x.oldestInst)
        ⟨s.nextNode, e.queueType, top⟩, by simp [popTop, moveToYoungerInst, hq], ?_,
      by rw [hq]; rfl, fun x hx => ?_, ?_⟩
    · have htop : (Function.update s.readyInsts e.queueType (top :: q) e.queueType).head? =
          some top := by simp
      refine hbut.insert htop ((hperm.append_left passed).trans
        List.perm_middle) ?_ hon (fun _ _ => rfl) _
      exact pairwise_append_orderedInsert (fun x hx => hx) (fun x hx => Nat.le_of_not_le hx)
        hbut.heads.ordered fun x hx => (hpassed x hx).trans hle
    · rcases List.mem_cons.mp (hperm.mem_iff.mp hx) with rfl | hx
      · exact hle
      · exact (List.pairwise_cons.mp hordered).1 x hx
    · have hnext := ((hperm.map fun x : ListOrderEntry κ =>
        (Function.update s.readyInsts e.queueType (top :: q) x.queueType).length)).sum_nat
      rw [List.map_cons, List.sum_cons] at hnext
      rw [load, hnext, hbefore]
      have hsame := hload { s with
        readyInsts := Function.update s.readyInsts e.queueType (top :: q) } rfl
      rw [load] at hsame
      simp only [Function.update_self, hsame]
      omega

end Pop

end ReadyLists
end Runahead
end Gem5
