import Mathlib.Tactic.IntervalCases
import Gem5Runahead.Lib.WriteLog
import Gem5Runahead.RunaheadCache

/-!
# RunaheadCacheData

Which bytes a hit in the runahead cache returns. Two logs are kept of the calls so far: the bytes
the handled stores wrote, by address (`written`), and the bytes the cache put into its blocks, by
index and offset (`stored`). Both are cleared by an invalidation.

* `slot_inv` — a block holds what the second log holds for its slots.
* `hit_returns_written_iff` — a hit returns the bytes last written to its addresses exactly when
  each of them was written since the last invalidation and is still the byte last put into its
  slot. Bytes of a valid block that no store wrote, and bytes left behind by a store to another
  block of the same index, are returned as well.
-/

namespace Gem5
namespace Runahead
namespace RunaheadCache

open WriteLog

/-- The byte `pkt` writes to address `a`. -/
def writtenByte (pkt : Packet) (a : Nat) : Option Byte :=
  if pkt.cmd.isWrite ∧ pkt.addr ≤ a ∧ a < pkt.addr + pkt.size ∧ pkt.byteEnable (a - pkt.addr) then
    some (pkt.data (a - pkt.addr))
  else none

def Op.written : Op → Entry Nat Byte
  | .handlePacket pkt _ => .put (writtenByte pkt)
  | .invalidateCache => .clear

/-- The byte of the array an address maps to: its block's index and the offset in the block. -/
def slot (c : RunaheadCache) (a : Nat) : Nat × Nat := (c.getIndex a, a % c.blockSize)

/-- The byte handling `pkt` puts into a slot, whatever address the slot holds. -/
def storedByte (c : RunaheadCache) (pkt : Packet) (fresh : Nat → Byte) (k : Nat × Nat) :
    Option Byte :=
  let off := pkt.getOffset c.blockSize
  if pkt.cmd.isWrite ∧ c.getIndex pkt.addr = k.1 ∧ off ≤ k.2 ∧ k.2 < off + pkt.size ∧
      pkt.byteEnable (k.2 - off) then
    some ((pkt.copy fresh).data (k.2 - off))
  else none

def Op.stored (c : RunaheadCache) : Op → Entry (Nat × Nat) Byte
  | .handlePacket pkt fresh => .put (storedByte c pkt fresh)
  | .invalidateCache => .clear

/-- The bytes of the response are the ones last written to their addresses. -/
def ReturnsWritten (ops : List Op) (pkt resp : Packet) : Prop :=
  ∀ i, i < pkt.size → contents (ops.map Op.written) (pkt.addr + i) = some (resp.data i)

/-- The byte at `a` was written since the last invalidation, and no store put another byte into
its slot after that. -/
def WrittenAndKept (c : RunaheadCache) (ops : List Op) (a : Nat) : Prop :=
  ∃ v, contents (ops.map Op.written) a = some v ∧ contents (ops.map (Op.stored c)) (c.slot a) = some v

section Geometry

variable {c c' : RunaheadCache} {b : Nat}

theorem getOffset_eq (pkt : Packet) (b : Nat) : pkt.getOffset (2 ^ b) = pkt.addr % 2 ^ b := by
  simp [Packet.getOffset, Nat.and_two_pow_sub_one_eq_mod]

theorem indexShift_eq (hc : c.blockSize = 2 ^ b) : c.indexShift = b := by
  simp [indexShift, ceilLog2, hc]

theorem add_div_block {a i : Nat} (h : a % 2 ^ b + i < 2 ^ b) : (a + i) / 2 ^ b = a / 2 ^ b := by
  have hb : 0 < 2 ^ b := Nat.two_pow_pos b
  rw [Nat.add_div hb, Nat.div_eq_of_lt (show i < 2 ^ b by omega),
    if_neg (by rw [Nat.mod_eq_of_lt (show i < 2 ^ b by omega)]; omega)]
  rfl

theorem add_mod_block {a i : Nat} (h : a % 2 ^ b + i < 2 ^ b) :
    (a + i) % 2 ^ b = a % 2 ^ b + i := by
  rw [Nat.add_mod, Nat.mod_eq_of_lt (show i < 2 ^ b by omega), Nat.mod_eq_of_lt h]

/-- Inside one block, slots follow addresses. -/
theorem slot_add (hc : c.blockSize = 2 ^ b) {a i : Nat} (h : a % 2 ^ b + i < 2 ^ b) :
    c.slot (a + i) = (c.getIndex a, a % 2 ^ b + i) := by
  simp only [slot, getIndex, indexShift_eq hc, hc, Nat.shiftRight_eq_div_pow, add_div_block h,
    add_mod_block h]

theorem getIndex_congr (hs : c'.size = c.size) (hb : c'.blockSize = c.blockSize) (a : Nat) :
    c'.getIndex a = c.getIndex a := by
  simp only [getIndex, indexShift, indexMask, numBlocks, hs, hb]

theorem stored_congr (hs : c'.size = c.size) (hb : c'.blockSize = c.blockSize) :
    Op.stored c' = Op.stored c := by
  funext op
  cases op with
  | invalidateCache => rfl
  | handlePacket pkt fresh =>
    simp only [Op.stored, Entry.put.injEq]
    funext k
    simp only [storedByte, getIndex_congr hs hb, hb]

@[simp] theorem stored_setBlock (c : RunaheadCache) (idx : Nat) (block : CacheBlock) :
    Op.stored (c.setBlock idx block) = Op.stored c :=
  stored_congr rfl rfl

end Geometry

section Invariants

variable {size b : Nat} {c : RunaheadCache} {ops : List Op}

theorem reaches_geometry (h : (system size (2 ^ b)).Reaches ops c) :
    c.size = size ∧ c.blockSize = 2 ^ b := by
  refine h.invariant (I := fun c => c.size = size ∧ c.blockSize = 2 ^ b) ?_ ?_
  · rintro _ ⟨raw, rfl⟩
    exact ⟨rfl, rfl⟩
  · rintro s op u ⟨hs, hb⟩ ⟨-, hst⟩
    obtain ⟨hs', hb'⟩ := step_blockSize hst
    exact ⟨hs'.trans hs, hb'.trans hb⟩

theorem reaches_inBlock (h : (system size (2 ^ b)).Reaches ops c) :
    ∀ op ∈ ops, op.InBlock (2 ^ b) := by
  refine h.history (I := fun ops _ => ∀ op ∈ ops, op.InBlock (2 ^ b)) (by simp) ?_
  intro l s op u ih hst
  simpa [or_imp, forall_and] using ⟨ih, hst.1⟩

/-- A block holds, at every slot written since the last invalidation, the byte put there last. -/
def SlotInv (ops : List Op) (c : RunaheadCache) : Prop :=
  ∀ idx block, c.cacheEntries[idx]? = some block → ∀ off v,
    contents (ops.map (Op.stored c)) (idx, off) = some v → block.data off = v

theorem slot_inv_write {pkt : Packet} {fresh : Nat → Byte} {block : CacheBlock}
    (ih : SlotInv ops c) (hw : pkt.cmd.isWrite = true)
    (hb : c.cacheEntries[c.getIndex pkt.addr]? = some block) :
    SlotInv (ops ++ [.handlePacket pkt fresh]) (c.setBlock (c.getIndex pkt.addr)
      { data := (pkt.copy fresh).writeDataToBlock block.data c.blockSize
        tag := c.getTag pkt.addr, valid := true, poisoned := pkt.poisoned }) := by
  intro idx block' hb' off v hv
  rw [stored_setBlock, List.map_append, List.map_singleton, Op.stored, contents_put,
    Option.or_eq_some_iff] at hv
  simp only [setBlock, List.getElem?_set] at hb'
  by_cases he : c.getIndex pkt.addr = idx
  · -- the block written: the packet's enabled bytes, and the old ones around them
    subst he
    rw [if_pos rfl, if_pos (List.getElem?_eq_some_iff.mp hb).1] at hb'
    cases hb'
    change (pkt.copy fresh).writeDataToBlock block.data c.blockSize off = v
    rw [Packet.copy_writeDataToBlock]
    simp only [storedByte, hw, true_and] at hv
    split at hv
    · rename_i hr
      rw [if_pos hr]
      simpa using hv
    · rename_i hr
      rw [if_neg hr]
      exact ih _ _ hb off v (by simpa using hv)
  · rw [if_neg he] at hb'
    exact ih _ _ hb' off v (by simpa [storedByte, he] using hv)

theorem slot_inv (h : (system size (2 ^ b)).Reaches ops c) : SlotInv ops c := by
  refine h.history (I := SlotInv) ?_ ?_
  · intro s _ idx block _ off v hv
    simp at hv
  · intro l s op u ih ⟨_, hst⟩
    cases op with
    | invalidateCache =>
      intro idx block _ off v hv
      simp [Op.stored] at hv
    | handlePacket pkt fresh =>
      simp only [RunaheadCache.step, Option.map_eq_some_iff] at hst
      obtain ⟨⟨c₁, resp⟩, hst, rfl⟩ := hst
      cases hw : pkt.cmd.isWrite with
      | true =>
        obtain ⟨block, hb, rfl⟩ := handlePacket_write hw hst
        exact slot_inv_write ih hw hb
      | false =>
        obtain ⟨rfl, _⟩ := handlePacket_read hw hst
        intro idx block hb off v hv
        exact ih idx block hb off v (by simpa [Op.stored, storedByte, hw] using hv)

/-- A store that writes an address puts a byte into the address's slot. -/
theorem written_covers (hc : c.blockSize = 2 ^ b) {op : Op} (hop : op.InBlock (2 ^ b)) :
    Covers (fun a k => k = c.slot a) op.written (op.stored c) := by
  cases op with
  | invalidateCache => trivial
  | handlePacket pkt fresh =>
    rintro a _ rfl hsome
    simp only [writtenByte] at hsome
    split at hsome
    · rename_i h
      obtain ⟨hw, hlo, hhi, hen⟩ := h
      obtain ⟨i, rfl⟩ := Nat.exists_eq_add_of_le hlo
      have hi : i < pkt.size := by omega
      rw [slot_add hc (Packet.InBlock.add_lt hop hi)]
      simp only [storedByte, hc, getOffset_eq]
      rw [if_pos ⟨hw, trivial, Nat.le_add_right _ _, Nat.add_lt_add_left hi _, by simpa using hen⟩]
      rfl
    · simp at hsome

theorem stored_isSome (h : (system size (2 ^ b)).Reaches ops c) {a : Nat}
    (ha : (contents (ops.map Op.written) a).isSome) :
    (contents (ops.map (Op.stored c)) (c.slot a)).isSome :=
  isSome_of_cover (fun op hop => written_covers ((reaches_geometry h).2) (reaches_inBlock h op hop))
    rfl ha

end Invariants

section Hits

variable {size b : Nat} {c c' : RunaheadCache} {ops : List Op} {pkt resp : Packet}
  {fresh : Nat → Byte}

/-- A hit returns, for each address, the byte of the block that holds the address's slot. -/
theorem hit_data (h : (system size (2 ^ b)).Reaches ops c) (hin : pkt.InBlock (2 ^ b))
    (hw : pkt.cmd.isWrite = false) (hit : c.handlePacket pkt fresh = some (c', some resp)) :
    ∀ i, i < pkt.size → ∀ v, contents (ops.map (Op.stored c)) (c.slot (pkt.addr + i)) = some v →
      resp.data i = v := by
  intro i hi v hv
  have hc := (reaches_geometry h).2
  obtain ⟨-, hr⟩ := handlePacket_read hw hit
  simp only [Option.map_eq_some_iff] at hr
  obtain ⟨_, hr, r, rfl, rfl⟩ := hr
  obtain ⟨block, hb, -, -, hdata, -⟩ := read_hit hr
  rw [respond_data, hdata i hi]
  rw [slot_add hc (hin.add_lt hi)] at hv
  rw [Packet.copy_getOffset, hc, getOffset_eq]
  exact slot_inv h _ _ hb _ v hv

/-- **What a hit returns.** After any sequence of calls, a read that hits returns the bytes last
written to its addresses exactly when each address was written since the last invalidation and
its byte has been kept. -/
theorem hit_returns_written_iff (h : (system size (2 ^ b)).Reaches ops c)
    (hin : pkt.InBlock (2 ^ b)) (hw : pkt.cmd.isWrite = false)
    (hit : c.handlePacket pkt fresh = some (c', some resp)) :
    ReturnsWritten ops pkt resp ↔ ∀ i, i < pkt.size → WrittenAndKept c ops (pkt.addr + i) := by
  constructor
  · intro hret i hi
    have hwr := hret i hi
    obtain ⟨v, hv⟩ := Option.isSome_iff_exists.mp (stored_isSome h (by rw [hwr]; rfl))
    exact ⟨v, by rw [hwr, hit_data h hin hw hit i hi v hv], hv⟩
  · intro hkept i hi
    obtain ⟨v, hwr, hv⟩ := hkept i hi
    rw [hwr, hit_data h hin hw hit i hi v hv]

/-- A store of `n` bytes at `0x40` into a fresh cache of 32 blocks, and a load of eight bytes
there, which hits. -/
theorem store_load_hits {n : Nat} (hn : n = 1 ∨ n = 8) :
    ∃ c c' resp,
      (system 2048 (2 ^ 6)).Reaches [.handlePacket (.createWrite 0x40 n fun _ => 7) fun _ => 0] c ∧
      c.handlePacket (.createRead 0x40 8 fun _ => 0) (fun _ => 0) = some (c', some resp) := by
  have hin : (Packet.createWrite 0x40 n fun _ => 7).InBlock (2 ^ 6) := by
    rcases hn with rfl | rfl <;> decide
  have hrun : (((create 2048 (2 ^ 6) fun _ _ => 0).step
      (.handlePacket (.createWrite 0x40 n fun _ => 7) fun _ => 0)).bind fun c =>
        (c.handlePacket (.createRead 0x40 8 fun _ => 0) fun _ => 0).bind Prod.snd).isSome := by
    rcases hn with rfl | rfl <;> decide
  obtain ⟨resp, hrun⟩ := Option.isSome_iff_exists.mp hrun
  simp only [Option.bind_eq_some_iff] at hrun
  obtain ⟨c, hstep, ⟨c', _⟩, hit, rfl⟩ := hrun
  have hstart : (system 2048 (2 ^ 6)).Reaches [] (create 2048 (2 ^ 6) fun _ _ => 0) :=
    .start ⟨fun _ _ => 0, rfl⟩
  exact ⟨c, c', resp, hstart.snoc ⟨hin, hstep⟩, hit⟩

/-- Eight bytes written and read back. -/
theorem hit_returns_written_iff_store_load :
    ∃ c c' resp,
      RunaheadCache.handlePacket c (.createRead 0x40 8 fun _ => 0) (fun _ => 0) =
        some (c', some resp) ∧
      ReturnsWritten [.handlePacket (.createWrite 0x40 8 fun _ => 7) fun _ => 0]
        (.createRead 0x40 8 fun _ => 0) resp := by
  obtain ⟨c, c', resp, h, hit⟩ := store_load_hits (.inr rfl)
  refine ⟨c, c', resp, hit, (hit_returns_written_iff h (by decide) rfl hit).mpr ?_⟩
  intro i hi
  have hi : i < 8 := hi
  refine ⟨7, ?_, ?_⟩
  · interval_cases i <;> decide
  · obtain ⟨hs, hb⟩ := reaches_geometry h
    have hidx := getIndex_congr (c := create 2048 (2 ^ 6) fun _ _ => 0) hs hb
    rw [stored_congr (c := create 2048 (2 ^ 6) fun _ _ => 0) hs hb, slot, hidx, hb]
    interval_cases i <;> decide

/-- One byte written, eight bytes read: the load hits and takes seven bytes that no store wrote
from the block's uninitialised buffer. -/
theorem hit_returns_unwritten :
    ∃ c c' resp,
      (system 2048 (2 ^ 6)).Reaches [.handlePacket (.createWrite 0x40 1 fun _ => 7) fun _ => 0] c ∧
      (Packet.createRead 0x40 8 fun _ => 0).InBlock (2 ^ 6) ∧
      c.handlePacket (.createRead 0x40 8 fun _ => 0) (fun _ => 0) = some (c', some resp) ∧
      ¬ ReturnsWritten [.handlePacket (.createWrite 0x40 1 fun _ => 7) fun _ => 0]
        (.createRead 0x40 8 fun _ => 0) resp := by
  obtain ⟨c, c', resp, h, hit⟩ := store_load_hits (.inl rfl)
  refine ⟨c, c', resp, h, by decide, hit, fun hret => ?_⟩
  exact Option.some_ne_none _ (hret 1 (by decide)).symm

end Hits

end RunaheadCache
end Runahead
end Gem5
