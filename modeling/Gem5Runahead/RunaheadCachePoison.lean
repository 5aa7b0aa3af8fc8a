import Gem5Runahead.RunaheadCacheData

/-!
# RunaheadCachePoison

When a hit in the runahead cache poisons the load. The cache keeps one poison flag a block, and
every write sets it to the poison of its own request; so the flag speaks for the last write to
the block, and not for the bytes. Two more logs are kept of the calls: the poison of the bytes
the handled stores wrote, by address (`poisonWritten`), and the writes to each block, by index
(`blockWritten`).

* `block_inv` — a valid block's flag is the poison of the last write to it.
* `last_write_poison` — the bytes that this write wrote have its poison.
* `hit_poison_iff` — a hit poisons the load exactly when it should if the last write to the block
  speaks for the other bytes that are read too.
-/

namespace Gem5
namespace Runahead
namespace RunaheadCache

open WriteLog

/-- Whether the bytes a handled packet writes come from a poisoned request. -/
def Op.poisonWritten : Op → Entry Nat Bool
  | .handlePacket pkt _ => .put fun a => (writtenByte pkt a).map fun _ => pkt.poisoned
  | .invalidateCache => .clear

/-- The block a handled packet writes to. -/
def Op.blockWritten (c : RunaheadCache) : Op → Entry Nat Packet
  | .handlePacket pkt _ =>
    .put fun idx => if pkt.cmd.isWrite ∧ c.getIndex pkt.addr = idx then some pkt else none
  | .invalidateCache => .clear

/-- Since the last invalidation, the byte at `a` was last written by a poisoned request. -/
def PoisonedByte (ops : List Op) (a : Nat) : Prop :=
  contents (ops.map Op.poisonWritten) a = some true

/-- The read poisons its request for the bytes it returns, and for nothing else. -/
def MarksPoison (ops : List Op) (pkt resp : Packet) : Prop :=
  resp.poisoned = true ↔
    pkt.poisoned = true ∨ ∃ i < pkt.size, PoisonedByte ops (pkt.addr + i)

/-- The last write to the block, if poisoned, wrote one of the bytes read or another of them is
poisoned; if clean, none of the bytes read that it did not write is poisoned. -/
def LastWriteSpeaks (c : RunaheadCache) (ops : List Op) (pkt : Packet) : Prop :=
  ∃ last, contents (ops.map (Op.blockWritten c)) (c.getIndex pkt.addr) = some last ∧
    (last.poisoned = true →
      ∃ i < pkt.size, (writtenByte last (pkt.addr + i)).isSome ∨ PoisonedByte ops (pkt.addr + i)) ∧
    (last.poisoned = false →
      ∀ i < pkt.size, writtenByte last (pkt.addr + i) = none → ¬ PoisonedByte ops (pkt.addr + i))

section Logs

variable {c c' : RunaheadCache} {ops : List Op} {b : Nat}

theorem blockWritten_congr (hs : c'.size = c.size) (hb : c'.blockSize = c.blockSize) :
    Op.blockWritten c' = Op.blockWritten c := by
  funext op
  cases op with
  | invalidateCache => rfl
  | handlePacket pkt fresh => simp only [Op.blockWritten, getIndex_congr hs hb]

theorem blockWritten_setBlock (c : RunaheadCache) (idx : Nat) (block : CacheBlock) :
    Op.blockWritten (c.setBlock idx block) = Op.blockWritten c :=
  blockWritten_congr rfl rfl

/-- Inside one block, addresses have the block's index. -/
theorem getIndex_add (hc : c.blockSize = 2 ^ b) {a i : Nat} (h : a % 2 ^ b + i < 2 ^ b) :
    c.getIndex (a + i) = c.getIndex a :=
  congrArg Prod.fst (slot_add hc h)

/-- A packet in one block writes addresses of that block only. -/
theorem written_index (hc : c.blockSize = 2 ^ b) {pkt : Packet} (hin : pkt.InBlock (2 ^ b))
    {a : Nat} (ha : (writtenByte pkt a).isSome) :
    pkt.cmd.isWrite = true ∧ c.getIndex pkt.addr = c.getIndex a := by
  simp only [writtenByte] at ha
  split at ha
  · rename_i h
    obtain ⟨hw, hlo, hhi, -⟩ := h
    obtain ⟨i, rfl⟩ := Nat.exists_eq_add_of_le hlo
    have hi : i < pkt.size := by omega
    exact ⟨hw, (getIndex_add hc (Packet.InBlock.add_lt hin hi)).symm⟩
  · simp at ha

/-- The bytes that the last write to a block wrote have its poison: what is written later, is
written elsewhere. -/
theorem last_write_poison (hc : c.blockSize = 2 ^ b) (hin : ∀ op ∈ ops, op.InBlock (2 ^ b))
    {last : Packet} {a : Nat}
    (hlast : contents (ops.map (Op.blockWritten c)) (c.getIndex a) = some last)
    (ha : (writtenByte last a).isSome) :
    contents (ops.map Op.poisonWritten) a = some last.poisoned := by
  induction ops using List.reverseRecOn with
  | nil => simp at hlast
  | append_singleton ops op ih =>
    have ih := ih fun op' h => hin op' (List.mem_append_left _ h)
    have hop : op.InBlock (2 ^ b) := hin op (by simp)
    rw [List.map_append, List.map_singleton] at hlast ⊢
    cases op with
    | invalidateCache => simp [Op.blockWritten] at hlast
    | handlePacket pkt fresh =>
      simp only [Op.blockWritten, Op.poisonWritten, contents_put, Option.or_eq_some_iff] at hlast ⊢
      by_cases h : pkt.cmd.isWrite = true ∧ c.getIndex pkt.addr = c.getIndex a
      · rw [if_pos h] at hlast
        obtain rfl : pkt = last := by simpa using hlast
        left
        obtain ⟨v, hv⟩ := Option.isSome_iff_exists.mp ha
        rw [hv]
        rfl
      · rw [if_neg h] at hlast
        have hnone : writtenByte pkt a = none := by
          by_contra hsome
          exact h (written_index hc hop (Option.isSome_iff_ne_none.mpr hsome))
        right
        rw [hnone]
        exact ⟨rfl, ih (by simpa using hlast)⟩

end Logs

section Invariant

variable {size b : Nat} {c c' : RunaheadCache} {ops : List Op}

/-- A valid block's flag is the poison of the last write to it. -/
def BlockInv (ops : List Op) (c : RunaheadCache) : Prop :=
  ∀ idx block, c.cacheEntries[idx]? = some block → block.valid = true →
    ∃ last, contents (ops.map (Op.blockWritten c)) idx = some last ∧
      block.poisoned = last.poisoned

theorem block_inv_write {pkt : Packet} {fresh : Nat → Byte} {data : Nat → Byte} {tag : Nat}
    (ih : BlockInv ops c) (hw : pkt.cmd.isWrite = true) :
    BlockInv (ops ++ [.handlePacket pkt fresh]) (c.setBlock (c.getIndex pkt.addr)
      { data := data, tag := tag, valid := true, poisoned := pkt.poisoned }) := by
  intro idx block hb hvalid
  rw [blockWritten_setBlock, List.map_append, List.map_singleton, Op.blockWritten,
    contents_put, hw]
  simp only [setBlock, List.getElem?_set] at hb
  by_cases he : c.getIndex pkt.addr = idx
  · rw [if_pos he] at hb
    split at hb
    · cases hb
      exact ⟨pkt, by simp [he], rfl⟩
    · cases hb
  · rw [if_neg he] at hb
    obtain ⟨last, hlast, hpoison⟩ := ih idx block hb hvalid
    exact ⟨last, by simpa [he] using hlast, hpoison⟩

theorem block_inv (h : (system size (2 ^ b)).Reaches ops c) : BlockInv ops c := by
  refine h.history (I := BlockInv) ?_ ?_
  · rintro _ ⟨raw, rfl⟩ idx block hb hvalid
    simp only [create, List.getElem?_map, Option.map_eq_some_iff] at hb
    obtain ⟨i, -, rfl⟩ := hb
    cases hvalid
  · intro ops s op u ih ⟨_, hst⟩
    cases op with
    | invalidateCache =>
      cases hst
      intro idx block hb hvalid
      simp only [RunaheadCache.invalidateCache, List.getElem?_map, Option.map_eq_some_iff] at hb
      obtain ⟨old, -, rfl⟩ := hb
      cases hvalid
    | handlePacket pkt fresh =>
      simp only [RunaheadCache.step, Option.map_eq_some_iff] at hst
      obtain ⟨⟨c₁, resp⟩, hst, rfl⟩ := hst
      cases hw : pkt.cmd.isWrite with
      | true =>
        obtain ⟨old, -, rfl⟩ := handlePacket_write hw hst
        exact block_inv_write ih hw
      | false =>
        obtain ⟨rfl, -⟩ := handlePacket_read hw hst
        intro idx block hb hvalid
        obtain ⟨last, hlast, hpoison⟩ := ih idx block hb hvalid
        exact ⟨last, by simpa [Op.blockWritten, hw] using hlast, hpoison⟩

end Invariant

section Hits

variable {size b : Nat} {c c' : RunaheadCache} {ops : List Op} {pkt resp : Packet}
  {fresh : Nat → Byte}

/-- A hit takes the poison of the last write to the block. -/
theorem hit_poison (h : (system size (2 ^ b)).Reaches ops c) (hw : pkt.cmd.isWrite = false)
    (hit : c.handlePacket pkt fresh = some (c', some resp)) :
    ∃ last, contents (ops.map (Op.blockWritten c)) (c.getIndex pkt.addr) = some last ∧
      resp.poisoned = (pkt.poisoned || last.poisoned) := by
  obtain ⟨-, hr⟩ := handlePacket_read hw hit
  simp only [Option.map_eq_some_iff] at hr
  obtain ⟨_, hr, r, rfl, rfl⟩ := hr
  obtain ⟨block, hb, hvalid, -, -, hpoison⟩ := read_hit hr
  obtain ⟨last, hlast, hflag⟩ := block_inv h _ block hb hvalid
  exact ⟨last, hlast, by rw [respond_poisoned, hpoison, hflag, Packet.copy_poisoned]⟩

/-- **When a hit poisons the load.** After any sequence of calls, a read that hits marks its
request poisoned for the bytes it returns, and only for them, exactly when the last write to the
block speaks for all of them (or the request was poisoned already). -/
theorem hit_poison_iff (h : (system size (2 ^ b)).Reaches ops c) (hin : pkt.InBlock (2 ^ b))
    (hw : pkt.cmd.isWrite = false) (hit : c.handlePacket pkt fresh = some (c', some resp)) :
    MarksPoison ops pkt resp ↔ pkt.poisoned = true ∨ LastWriteSpeaks c ops pkt := by
  have hc := (reaches_geometry h).2
  obtain ⟨last, hlast, hresp⟩ := hit_poison h hw hit
  -- the bytes read lie in the block that the last write went to
  have hwritten : ∀ i < pkt.size, (writtenByte last (pkt.addr + i)).isSome →
      contents (ops.map Op.poisonWritten) (pkt.addr + i) = some last.poisoned := by
    intro i hi hsome
    refine last_write_poison hc (reaches_inBlock h) ?_ hsome
    rwa [getIndex_add hc (hin.add_lt hi)]
  unfold MarksPoison LastWriteSpeaks
  rw [hresp, Bool.or_eq_true]
  cases hp : pkt.poisoned with
  | true => simp
  | false =>
    simp only [Bool.false_eq_true, false_or]
    cases hl : last.poisoned with
    | true =>
      simp only [true_iff]
      constructor
      · rintro ⟨i, hi, hbyte⟩
        exact ⟨last, hlast, fun _ => ⟨i, hi, .inr hbyte⟩, fun hclean => by simp [hl] at hclean⟩
      · rintro ⟨w, hlast', hpoisoned, -⟩
        obtain rfl : last = w := Option.some.inj (hlast.symm.trans hlast')
        obtain ⟨i, hi, hsome | hbyte⟩ := hpoisoned hl
        · exact ⟨i, hi, (hwritten i hi hsome).trans (congrArg some hl)⟩
        · exact ⟨i, hi, hbyte⟩
    | false =>
      simp only [Bool.false_eq_true, false_iff]
      constructor
      · intro hnone
        refine ⟨last, hlast, fun hpoisoned => by simp [hl] at hpoisoned, fun _ i hi _ hbyte => ?_⟩
        exact hnone ⟨i, hi, hbyte⟩
      · rintro ⟨w, hlast', -, hclean⟩ ⟨i, hi, hbyte⟩
        obtain rfl : last = w := Option.some.inj (hlast.symm.trans hlast')
        refine hclean hl i hi ?_ hbyte
        by_contra hsome
        have hpoison := hwritten i hi (Option.isSome_iff_ne_none.mpr hsome)
        rw [PoisonedByte, hpoison, hl] at hbyte
        cases hbyte

/-- A poisoned store of one byte at `0x40`, then a clean one at `0x40 + d`. -/
def poisonThenClean (d : Nat) : List Op :=
  [.handlePacket { Packet.createWrite 0x40 1 (fun _ => 7) with poisoned := true } fun _ => 0,
    .handlePacket (.createWrite (0x40 + d) 1 fun _ => 8) fun _ => 0]

/-- A load of the byte at `0x40` hits after both stores. -/
theorem poisonThenClean_hits {d : Nat} (hd : d = 0 ∨ d = 1) :
    ∃ c c' resp, (system 2048 (2 ^ 6)).Reaches (poisonThenClean d) c ∧
      (∀ a, c.getIndex a = (create 2048 (2 ^ 6) fun _ _ => 0).getIndex a) ∧
      c.handlePacket (.createRead 0x40 1 fun _ => 0) (fun _ => 0) = some (c', some resp) ∧
      resp.poisoned = false := by
  have hin : ∀ op ∈ poisonThenClean d, op.InBlock (2 ^ 6) := by
    rcases hd with rfl | rfl <;> decide
  have hrun : (((poisonThenClean d).foldlM RunaheadCache.step
      (create 2048 (2 ^ 6) fun _ _ => 0)).bind fun c =>
        (c.handlePacket (.createRead 0x40 1 fun _ => 0) fun _ => 0).bind Prod.snd).any
          (fun resp => resp.poisoned == false) = true := by
    rcases hd with rfl | rfl <;> decide
  obtain ⟨resp, hrun, hclean⟩ := Option.any_eq_true _ _ |>.mp hrun
  simp only [Option.bind_eq_some_iff] at hrun
  obtain ⟨c, hsteps, ⟨c', _⟩, hit, rfl⟩ := hrun
  simp only [poisonThenClean, List.foldlM_cons, List.foldlM_nil, Option.bind_eq_bind,
    Option.bind_eq_some_iff] at hsteps
  obtain ⟨c₁, h₁, c₂, h₂, h₃⟩ := hsteps
  obtain rfl : c₂ = c := Option.some.inj h₃
  have hstart : (system 2048 (2 ^ 6)).Reaches [] (create 2048 (2 ^ 6) fun _ _ => 0) :=
    .start ⟨fun _ _ => 0, rfl⟩
  have hreach := (hstart.snoc ⟨hin _ (by simp [poisonThenClean]), h₁⟩).snoc
    ⟨hin _ (by simp [poisonThenClean]), h₂⟩
  obtain ⟨hs, hb⟩ := reaches_geometry hreach
  exact ⟨_, c', resp, hreach, getIndex_congr hs hb, hit, by simpa using hclean⟩

/-- A clean store cures the byte it writes. -/
theorem hit_poison_iff_cured :
    ∃ c c' resp,
      RunaheadCache.handlePacket c (.createRead 0x40 1 fun _ => 0) (fun _ => 0) =
        some (c', some resp) ∧
      MarksPoison (poisonThenClean 0) (.createRead 0x40 1 fun _ => 0) resp := by
  obtain ⟨c, c', resp, h, hidx, hit, -⟩ := poisonThenClean_hits (.inl rfl)
  refine ⟨c, c', resp, hit, (hit_poison_iff h (by decide) rfl hit).mpr (.inr ?_)⟩
  refine ⟨.createWrite 0x40 1 fun _ => 8, ?_, ?_, ?_⟩
  · obtain ⟨hs, hb⟩ := reaches_geometry h
    rw [blockWritten_congr (c := create 2048 (2 ^ 6) fun _ _ => 0) hs hb, hidx]
    rfl
  · intro hpoisoned
    cases hpoisoned
  · intro _ i hi hnone
    have hi : i < 1 := hi
    interval_cases i
    cases hnone

/-- A clean store to the next byte cleanses the whole block: the load of the poisoned byte is not
marked. -/
theorem clean_write_loses_poison :
    ∃ c c' resp,
      (system 2048 (2 ^ 6)).Reaches (poisonThenClean 1) c ∧
      (Packet.createRead 0x40 1 fun _ => 0).InBlock (2 ^ 6) ∧
      c.handlePacket (.createRead 0x40 1 fun _ => 0) (fun _ => 0) = some (c', some resp) ∧
      ¬ MarksPoison (poisonThenClean 1) (.createRead 0x40 1 fun _ => 0) resp := by
  obtain ⟨c, c', resp, h, -, hit, hclean⟩ := poisonThenClean_hits (.inr rfl)
  refine ⟨c, c', resp, h, by decide, hit, fun hmarks => ?_⟩
  have hbyte : PoisonedByte (poisonThenClean 1) 0x40 := by
    unfold PoisonedByte
    decide
  have hpoisoned := hmarks.mpr (.inr ⟨0, by decide, hbyte⟩)
  rw [hclean] at hpoisoned
  cases hpoisoned

end Hits

end RunaheadCache
end Runahead
end Gem5
