import Gem5Runahead.RunaheadStoreData

/-!
# RunaheadCacheIndex

Index and tag of the runahead cache on machine words. The mask is computed in an `int`, where the
shift and the subtraction are undefined from 31 bits on, and kept in 32 bits; the constructor
accepts every size and rounds the logarithm up.

* `getIndex64` — the index of a 64-bit address; `getIndex64_eq`, it is the index in
  `RunaheadCache` where it is defined.
* `IndexesBlocks` — indices are in the array, and a hit means that the entry was last written for
  the same block.
* `indexesBlocks_iff` — for which sizes that is so.
-/

namespace Gem5
namespace Runahead
namespace RunaheadCache

open WriteLog

section Machine

/-- `(1 << ceilLog2(numBlocks)) - 1`. -/
def indexMask32 (c : RunaheadCache) : Option (BitVec 32) :=
  if ceilLog2 c.numBlocks < 31 then some (BitVec.ofNat 32 c.indexMask) else none

def getIndex64 (c : RunaheadCache) (addr : BitVec 64) : Option (BitVec 64) := do
  let mask ← c.indexMask32
  return (addr >>> c.indexShift) &&& mask.setWidth 64

/-- `RunaheadCache::align`. -/
def align (c : RunaheadCache) (addr : Nat) : Nat := addr - addr % c.blockSize

/-- The addresses of packets have 64 bits. -/
def Op.Addressed : Op → Prop
  | .handlePacket pkt _ => pkt.addr < 2 ^ 64
  | .invalidateCache => True

/-- The entry a call writes, and the address it writes it for. -/
def Op.addrWritten (c : RunaheadCache) : Op → Entry Nat Nat
  | .handlePacket pkt _ =>
    .put fun idx => if pkt.cmd.isWrite ∧ c.getIndex pkt.addr = idx then some pkt.addr else none
  | .invalidateCache => .put fun _ => none

/-- The address for which the entry was last written. -/
def lastWrittenFor (c : RunaheadCache) (ops : List Op) (idx : Nat) : Option Nat :=
  contents (ops.map (Op.addrWritten c)) idx

/-- The cache under any sequence of writes, reads and invalidations. -/
def calls (size blockSize : Nat) : Transition.System RunaheadCache Op where
  init c := ∃ raw, c = create size blockSize raw
  step c op c' := op.Addressed ∧ c.step op = some c'

/-- For a configured size: the index of every address is in the array, and after any sequence of
calls a lookup succeeds exactly if the entry is valid and was last written for the same block. -/
structure IndexesBlocks (size blockSize : Nat) : Prop where
  index_lt : ∀ raw (addr : BitVec 64), ∃ idx,
    (create size blockSize raw).getIndex64 addr = some idx ∧ idx.toNat < size / blockSize
  lookup_iff : ∀ ops c, (calls size blockSize).Reaches ops c → ∀ addr : BitVec 64,
    c.lookup addr.toNat = some true ↔
      ∃ block, c.cacheEntries[c.getIndex addr.toNat]? = some block ∧ block.valid = true ∧
        ∃ a, c.lastWrittenFor ops (c.getIndex addr.toNat) = some a ∧
          c.align a = c.align addr.toNat
  no_alias : ∀ ops c, (calls size blockSize).Reaches ops c → ∀ addr addr' : BitVec 64,
    c.getIndex addr.toNat = c.getIndex addr'.toNat → c.lookup addr.toNat = some true →
      c.lookup addr'.toNat = some true → c.align addr.toNat = c.align addr'.toNat

variable {c c' : RunaheadCache}

theorem indexMask_lt (c : RunaheadCache) : c.indexMask < 2 ^ ceilLog2 c.numBlocks := by
  unfold indexMask
  rw [Nat.one_shiftLeft]
  exact Nat.sub_lt (Nat.two_pow_pos _) Nat.one_pos

/-- Where the mask is defined, the index is the one of the cache on natural numbers. -/
theorem getIndex64_eq (h : ceilLog2 c.numBlocks < 31) (addr : BitVec 64) :
    ∃ idx, c.getIndex64 addr = some idx ∧ idx.toNat = c.getIndex addr.toNat := by
  have hmask : c.indexMask < 2 ^ 32 :=
    Nat.lt_trans c.indexMask_lt (Nat.pow_lt_pow_right (by decide) (by omega))
  refine ⟨(addr >>> c.indexShift) &&& (BitVec.ofNat 32 c.indexMask).setWidth 64, ?_, ?_⟩
  · rw [getIndex64, indexMask32, if_pos h]
    rfl
  · rw [BitVec.toNat_and, BitVec.toNat_ushiftRight, BitVec.toNat_setWidth, BitVec.toNat_ofNat,
      Nat.mod_eq_of_lt hmask, Nat.mod_eq_of_lt (by omega), getIndex]

theorem getIndex64_eq_none (h : ¬ ceilLog2 c.numBlocks < 31) (addr : BitVec 64) :
    c.getIndex64 addr = none := by
  rw [getIndex64, indexMask32, if_neg h]
  rfl

end Machine

section Writes

variable {size b : Nat} {c c' : RunaheadCache} {ops : List Op}

theorem addrWritten_congr (hs : c'.size = c.size) (hb : c'.blockSize = c.blockSize) :
    Op.addrWritten c' = Op.addrWritten c := by
  funext op
  cases op with
  | invalidateCache => rfl
  | handlePacket pkt fresh => simp only [Op.addrWritten, getIndex_congr hs hb]

/-- The tag of an entry is that of the address it was last written for, and an entry that was
never written is invalid. -/
structure Tagged (ops : List Op) (c : RunaheadCache) : Prop where
  written : ∀ idx block, c.cacheEntries[idx]? = some block → block.valid = true →
    ∃ a, c.lastWrittenFor ops idx = some a
  tag : ∀ idx block a, c.cacheEntries[idx]? = some block →
    c.lastWrittenFor ops idx = some a → block.tag = c.getTag a ∧ c.getIndex a = idx

theorem tagged_create (size blockSize : Nat) (raw : Nat → Nat → Byte) :
    Tagged [] (create size blockSize raw) where
  written idx block hblock hvalid := by
    simp only [create, List.getElem?_map, Option.map_eq_some_iff] at hblock
    obtain ⟨_, _, rfl⟩ := hblock
    cases hvalid
  tag idx block a hblock hlast := by
    rw [lastWrittenFor, List.map_nil, contents_nil] at hlast
    cases hlast

theorem lastWrittenFor_concat (ops : List Op) (op : Op) (idx : Nat) :
    c.lastWrittenFor (ops ++ [op]) idx = (match op with
      | .handlePacket pkt _ =>
        if pkt.cmd.isWrite ∧ c.getIndex pkt.addr = idx then some pkt.addr
        else c.lastWrittenFor ops idx
      | .invalidateCache => c.lastWrittenFor ops idx) := by
  unfold lastWrittenFor
  cases op with
  | invalidateCache =>
    rw [List.map_append, List.map_singleton, Op.addrWritten, contents_put, Option.none_or]
  | handlePacket pkt fresh =>
    rw [List.map_append, List.map_singleton, Op.addrWritten, contents_put]
    by_cases h : pkt.cmd.isWrite = true ∧ c.getIndex pkt.addr = idx
    · rw [if_pos h, Option.some_or]
      exact (if_pos h).symm
    · rw [if_neg h, Option.none_or]
      exact (if_neg h).symm

theorem lastWrittenFor_congr (hs : c'.size = c.size) (hb : c'.blockSize = c.blockSize)
    (ops : List Op) (idx : Nat) : c'.lastWrittenFor ops idx = c.lastWrittenFor ops idx := by
  rw [lastWrittenFor, lastWrittenFor, addrWritten_congr hs hb]

theorem lastWrittenFor_setBlock (i : Nat) (block : CacheBlock) (ops : List Op) (idx : Nat) :
    (c.setBlock i block).lastWrittenFor ops idx = c.lastWrittenFor ops idx :=
  lastWrittenFor_congr rfl rfl ops idx

theorem lastWrittenFor_invalidateCache (ops : List Op) (idx : Nat) :
    c.invalidateCache.lastWrittenFor ops idx = c.lastWrittenFor ops idx :=
  lastWrittenFor_congr rfl rfl ops idx

/-- An entry after a write: the new block, last written for the packet's address, or the old one. -/
theorem getElem?_setBlock {pkt : Packet} {fresh : Nat → Byte} {new block : CacheBlock} {idx : Nat}
    (hw : pkt.cmd.isWrite = true)
    (hblock : (c.setBlock (c.getIndex pkt.addr) new).cacheEntries[idx]? = some block) :
    c.getIndex pkt.addr = idx ∧ block = new ∧
        c.lastWrittenFor (ops ++ [.handlePacket pkt fresh]) idx = some pkt.addr ∨
      c.cacheEntries[idx]? = some block ∧
        c.lastWrittenFor (ops ++ [.handlePacket pkt fresh]) idx = c.lastWrittenFor ops idx := by
  simp only [setBlock, List.getElem?_set] at hblock
  rw [lastWrittenFor_concat]
  by_cases he : c.getIndex pkt.addr = idx
  · rw [if_pos he] at hblock
    split at hblock
    · cases hblock
      exact .inl ⟨he, rfl, if_pos ⟨hw, he⟩⟩
    · cases hblock
  · rw [if_neg he] at hblock
    exact .inr ⟨hblock, if_neg fun h => he h.2⟩

theorem Tagged.write (h : Tagged ops c) {pkt : Packet} (fresh : Nat → Byte)
    (hw : pkt.cmd.isWrite = true) (data : Nat → Byte) :
    Tagged (ops ++ [.handlePacket pkt fresh]) (c.setBlock (c.getIndex pkt.addr)
      { data := data, tag := c.getTag pkt.addr, valid := true, poisoned := pkt.poisoned }) where
  written idx block hblock hvalid := by
    rw [lastWrittenFor_setBlock]
    rcases @getElem?_setBlock _ ops _ fresh _ _ _ hw hblock with
      ⟨-, -, hlast⟩ | ⟨hold, hlast⟩
    · exact ⟨_, hlast⟩
    · rw [hlast]
      exact h.written idx block hold hvalid
  tag idx block a hblock hlast := by
    rw [lastWrittenFor_setBlock] at hlast
    change block.tag = c.getTag a ∧ c.getIndex a = idx
    rcases @getElem?_setBlock _ ops _ fresh _ _ _ hw hblock with
      ⟨hidx, rfl, hlast'⟩ | ⟨hold, hlast'⟩
    · obtain rfl : pkt.addr = a := Option.some.inj (hlast'.symm.trans hlast)
      exact ⟨rfl, hidx⟩
    · exact h.tag idx block a hold (hlast'.symm.trans hlast)

theorem Tagged.invalidateCache (h : Tagged ops c) :
    Tagged (ops ++ [.invalidateCache]) c.invalidateCache where
  written idx block hblock hvalid := by
    simp only [RunaheadCache.invalidateCache, List.getElem?_map, Option.map_eq_some_iff] at hblock
    obtain ⟨old, -, rfl⟩ := hblock
    cases hvalid
  tag idx block a hblock hlast := by
    simp only [RunaheadCache.invalidateCache, List.getElem?_map, Option.map_eq_some_iff] at hblock
    obtain ⟨old, hold, rfl⟩ := hblock
    rw [lastWrittenFor_invalidateCache, lastWrittenFor_concat] at hlast
    exact h.tag idx old a hold hlast

theorem Tagged.step (h : Tagged ops c) {op : Op} (hstep : c.step op = some c') :
    Tagged (ops ++ [op]) c' := by
  cases op with
  | invalidateCache =>
    cases hstep
    exact h.invalidateCache
  | handlePacket pkt fresh =>
    simp only [RunaheadCache.step, Option.map_eq_some_iff] at hstep
    obtain ⟨⟨c₁, resp⟩, hstep, rfl⟩ := hstep
    cases hw : pkt.cmd.isWrite with
    | true =>
      obtain ⟨old, -, rfl⟩ := handlePacket_write hw hstep
      exact h.write fresh hw _
    | false =>
      obtain ⟨rfl, -⟩ := handlePacket_read hw hstep
      have hlast : ∀ idx, c₁.lastWrittenFor (ops ++ [.handlePacket pkt fresh]) idx =
          c₁.lastWrittenFor ops idx := by
        intro idx
        rw [lastWrittenFor_concat]
        exact if_neg fun h => by rw [hw] at h; cases h.1
      exact ⟨fun idx block hblock hvalid => by rw [hlast]; exact h.written idx block hblock hvalid,
        fun idx block a hblock ha => h.tag idx block a hblock ((hlast idx).symm.trans ha)⟩

theorem calls_tagged {blockSize : Nat} (h : (calls size blockSize).Reaches ops c) :
    c.size = size ∧ c.blockSize = blockSize ∧ Tagged ops c := by
  refine h.history (I := fun ops c => c.size = size ∧ c.blockSize = blockSize ∧ Tagged ops c) ?_ ?_
  · rintro _ ⟨raw, rfl⟩
    exact ⟨rfl, rfl, tagged_create size blockSize raw⟩
  · rintro ops s op u ⟨hs, hb, htagged⟩ ⟨-, hstep⟩
    obtain ⟨hs', hb'⟩ := step_blockSize hstep
    exact ⟨hs'.trans hs, hb'.trans hb, htagged.step hstep⟩

end Writes

section Iff

variable {size b : Nat} {c : RunaheadCache} {ops : List Op}

theorem step_write {pkt : Packet} {block : CacheBlock} (fresh : Nat → Byte)
    (hw : pkt.cmd.isWrite = true) (hb : c.cacheEntries[c.getIndex pkt.addr]? = some block) :
    c.step (.handlePacket pkt fresh) = some (c.setBlock (c.getIndex pkt.addr)
      { data := (pkt.copy fresh).writeDataToBlock block.data c.blockSize
        tag := c.getTag pkt.addr, valid := true, poisoned := pkt.poisoned }) := by
  simp [RunaheadCache.step, handlePacket, RunaheadCache.write, hw, hb]

theorem lookup_eq_some_true {addr : Nat} : c.lookup addr = some true ↔
    ∃ block, c.cacheEntries[c.getIndex addr]? = some block ∧ block.tag = c.getTag addr ∧
      block.valid = true := by
  unfold lookup
  cases c.cacheEntries[c.getIndex addr]? with
  | none => simp
  | some block => simp

theorem align_eq_iff (hc : c.blockSize = 2 ^ b) (a a' : Nat) :
    c.align a = c.align a' ↔ a / 2 ^ b = a' / 2 ^ b := by
  have hpos : 0 < 2 ^ b := Nat.two_pow_pos b
  have ha := Nat.div_add_mod a (2 ^ b)
  have ha' := Nat.div_add_mod a' (2 ^ b)
  have halign : c.align a = 2 ^ b * (a / 2 ^ b) := by
    rw [align, hc]
    omega
  have halign' : c.align a' = 2 ^ b * (a' / 2 ^ b) := by
    rw [align, hc]
    omega
  rw [halign, halign', Nat.mul_right_inj (by omega)]

/-- Blocks of a power of two: what a hit means. -/
theorem lookup_iff_of_pow (h : (calls size (2 ^ b)).Reaches ops c) (addr : Nat) :
    c.lookup addr = some true ↔
      ∃ block, c.cacheEntries[c.getIndex addr]? = some block ∧ block.valid = true ∧
        ∃ a, c.lastWrittenFor ops (c.getIndex addr) = some a ∧ c.align a = c.align addr := by
  obtain ⟨-, hb, htagged⟩ := calls_tagged h
  rw [lookup_eq_some_true]
  refine exists_congr fun block => and_congr_right fun hblock => ?_
  constructor
  · rintro ⟨htag, hvalid⟩
    obtain ⟨a, hlast⟩ := htagged.written _ block hblock hvalid
    obtain ⟨htag', hidx⟩ := htagged.tag _ block a hblock hlast
    refine ⟨hvalid, a, hlast, (align_eq_iff hb a addr).mpr ?_⟩
    exact block_eq hb hidx (htag'.symm.trans htag)
  · rintro ⟨hvalid, a, hlast, halign⟩
    obtain ⟨htag', hidx⟩ := htagged.tag _ block a hblock hlast
    refine ⟨?_, hvalid⟩
    rw [htag', getTag_eq hb, getTag_eq hb, (align_eq_iff hb a addr).mp halign]

variable {blockSize : Nat} {raw : Nat → Nat → Byte}

theorem numBlocks_create : (create size blockSize raw).numBlocks = size / blockSize := rfl

theorem indexShift_create : (create size blockSize raw).indexShift = ceilLog2 blockSize := rfl

theorem getIndex_create (addr : Nat) : (create size blockSize raw).getIndex addr =
    addr / 2 ^ ceilLog2 blockSize % 2 ^ ceilLog2 (size / blockSize) := by
  rw [getIndex, indexMask, numBlocks_create, indexShift_create, Nat.shiftRight_eq_div_pow,
    Nat.one_shiftLeft, Nat.and_two_pow_sub_one_eq_mod]

theorem le_two_pow_ceilLog2 (n : Nat) : n ≤ 2 ^ ceilLog2 n := Nat.le_pow_clog (by decide) n

/-- The address of the block after the last one has an index of its own unless the number of
blocks is a power of two. -/
theorem numBlocks_eq_of_index_lt (hblock : blockSize < 2 ^ 8)
    (h : ∀ raw (addr : BitVec 64), ∃ idx, (create size blockSize raw).getIndex64 addr = some idx ∧
      idx.toNat < size / blockSize) :
    ceilLog2 (size / blockSize) < 31 ∧ size / blockSize = 2 ^ ceilLog2 (size / blockSize) := by
  have hdefined : ceilLog2 (size / blockSize) < 31 := by
    by_contra hlarge
    obtain ⟨idx, hidx, -⟩ := h (fun _ _ => 0) 0
    rw [getIndex64_eq_none (c := create size blockSize fun _ _ => 0) hlarge] at hidx
    cases hidx
  refine ⟨hdefined, ?_⟩
  have hshift : ceilLog2 blockSize ≤ 8 := Nat.clog_le_of_le_pow (Nat.le_of_lt hblock)
  have hle := le_two_pow_ceilLog2 (size / blockSize)
  by_contra hne
  have hlt : size / blockSize < 2 ^ ceilLog2 (size / blockSize) := by omega
  -- the address in question
  have haddr : size / blockSize * 2 ^ ceilLog2 blockSize < 2 ^ 64 := by
    calc size / blockSize * 2 ^ ceilLog2 blockSize
        ≤ 2 ^ 30 * 2 ^ 8 := Nat.mul_le_mul
          (hle.trans (Nat.pow_le_pow_right (by decide) (by omega)))
          (Nat.pow_le_pow_right (by decide) hshift)
      _ < 2 ^ 64 := by decide
  obtain ⟨idx, hidx, hin⟩ := h (fun _ _ => 0)
    (BitVec.ofNat 64 (size / blockSize * 2 ^ ceilLog2 blockSize))
  obtain ⟨idx', hidx', hnat⟩ := getIndex64_eq (c := create size blockSize fun _ _ => 0) hdefined
    (BitVec.ofNat 64 (size / blockSize * 2 ^ ceilLog2 blockSize))
  obtain rfl : idx' = idx := Option.some.inj (hidx'.symm.trans hidx)
  rw [hnat, BitVec.toNat_ofNat, Nat.mod_eq_of_lt haddr, getIndex_create,
    Nat.mul_div_cancel _ (Nat.two_pow_pos _), Nat.mod_eq_of_lt hlt] at hin
  exact Nat.lt_irrefl _ hin

/-- A byte is written at address zero. -/
def writeZero : Op := .handlePacket (.createWrite 0 1 fun _ => 1) fun _ => 0

/-- If blocks are no power of two, the first byte of the second block hits after it. -/
theorem writeZero_hits (hone : 0 < size / blockSize) {addr : Nat}
    (haddr : addr < 2 ^ ceilLog2 blockSize) :
    ∃ c, (calls size blockSize).Reaches [writeZero] c ∧ c.lookup addr = some true ∧
      c.lastWrittenFor [writeZero] (c.getIndex addr) = some 0 := by
  have hindex : ∀ a < 2 ^ ceilLog2 blockSize,
      (create size blockSize fun _ _ => 0).getIndex a = 0 := by
    intro a ha
    rw [getIndex_create, Nat.div_eq_of_lt ha, Nat.zero_mod]
  have htag : ∀ a < 2 ^ ceilLog2 blockSize, (create size blockSize fun _ _ => 0).getTag a = 0 := by
    intro a ha
    rw [getTag, tagShift, indexShift_create, Nat.shiftRight_eq_div_pow, Nat.pow_add,
      ← Nat.div_div_eq_div_mul, Nat.div_eq_of_lt ha, Nat.zero_div]
  have hzero := Nat.two_pow_pos (ceilLog2 blockSize)
  have hblock : (create size blockSize fun _ _ => 0).cacheEntries[0]? =
      some ⟨fun _ => 0, 0, false, false⟩ := by
    simp [create, hone]
  have hat : (create size blockSize fun _ _ => 0).cacheEntries[
      (create size blockSize fun _ _ => 0).getIndex 0]? = some ⟨fun _ => 0, 0, false, false⟩ := by
    rw [hindex 0 hzero, hblock]
  have hstart : (calls size blockSize).Reaches [] (create size blockSize fun _ _ => 0) :=
    .start ⟨fun _ _ => 0, rfl⟩
  have hstep := @step_write _ (.createWrite 0 1 fun _ => 1) _ (fun _ => 0) rfl hat
  have haddressed : writeZero.Addressed := Nat.two_pow_pos 64
  refine ⟨_, hstart.snoc ⟨haddressed, hstep⟩, ?_, ?_⟩
  · rw [lookup_eq_some_true]
    change ∃ block, ((create size blockSize fun _ _ => 0).cacheEntries.set
      ((create size blockSize fun _ _ => 0).getIndex 0) _)[
        (create size blockSize fun _ _ => 0).getIndex addr]? = some block ∧
      block.tag = (create size blockSize fun _ _ => 0).getTag addr ∧ block.valid = true
    have hlen := (List.getElem?_eq_some_iff.mp hat).1
    have hsame := (hindex addr haddr).trans (hindex 0 hzero).symm
    rw [hsame, List.getElem?_set_self hlen]
    exact ⟨_, rfl, (htag 0 hzero).trans (htag addr haddr).symm, rfl⟩
  · rw [lastWrittenFor_setBlock]
    change (create size blockSize fun _ _ => 0).lastWrittenFor ([] ++ [writeZero])
      ((create size blockSize fun _ _ => 0).getIndex addr) = some 0
    rw [writeZero, lastWrittenFor_concat]
    exact if_pos ⟨rfl, (hindex 0 hzero).trans (hindex addr haddr).symm⟩

/-- **Indexing the runahead cache.** For a size of at least one block, indices are in range and
hits identify blocks exactly if the number of blocks is a power of two the mask can be computed
for, and the size of a block is a power of two. -/
theorem indexesBlocks_iff (size : BitVec 64) (blockSize : BitVec 8)
    (hone : 0 < size.toNat / blockSize.toNat) :
    IndexesBlocks size.toNat blockSize.toNat ↔
      (∃ m ≤ 30, size.toNat / blockSize.toNat = 2 ^ m) ∧ ∃ s, blockSize.toNat = 2 ^ s := by
  constructor
  · intro h
    obtain ⟨hdefined, hpow⟩ := numBlocks_eq_of_index_lt blockSize.isLt h.index_lt
    refine ⟨⟨_, by omega, hpow⟩, ceilLog2 blockSize.toNat, ?_⟩
    by_contra hne
    have hlt : blockSize.toNat < 2 ^ ceilLog2 blockSize.toNat :=
      Nat.lt_of_le_of_ne (le_two_pow_ceilLog2 _) hne
    obtain ⟨c, hreach, hlookup, hlast⟩ := writeZero_hits hone hlt
    have hblock := (calls_tagged hreach).2.1
    have haddr : (blockSize.setWidth 64).toNat = blockSize.toNat := by
      rw [BitVec.toNat_setWidth, Nat.mod_eq_of_lt (by omega)]
    obtain ⟨block, -, -, a, ha, halign⟩ := (h.lookup_iff _ c hreach (blockSize.setWidth 64)).mp
      (by rw [haddr]; exact hlookup)
    rw [haddr] at ha halign
    obtain rfl : 0 = a := Option.some.inj (hlast.symm.trans ha)
    rw [align, align, hblock, Nat.zero_mod, Nat.mod_self, Nat.sub_zero, Nat.sub_zero] at halign
    rw [← halign, Nat.div_zero] at hone
    exact Nat.lt_irrefl 0 hone
  · rintro ⟨⟨m, hm, hblocks⟩, s, hblock⟩
    have hlog : ceilLog2 (size.toNat / blockSize.toNat) = m := by
      rw [hblocks, ceilLog2, Nat.clog_pow 2 m (by decide)]
    refine ⟨fun raw addr => ?_, fun ops c hreach addr => ?_, fun ops c hreach addr addr' hidx
      hlookup hlookup' => ?_⟩
    · obtain ⟨idx, hidx, hnat⟩ :=
        getIndex64_eq (c := create size.toNat blockSize.toNat raw) (by
          rw [numBlocks_create, hlog]
          omega) addr
      refine ⟨idx, hidx, ?_⟩
      rw [hnat, getIndex_create, hlog, hblocks]
      exact Nat.mod_lt _ (Nat.two_pow_pos m)
    · rw [hblock] at hreach
      exact lookup_iff_of_pow hreach addr.toNat
    · rw [hblock] at hreach
      obtain ⟨block, hentry, -, a, hlast, halign⟩ := (lookup_iff_of_pow hreach _).mp hlookup
      obtain ⟨block', hentry', -, a', hlast', halign'⟩ := (lookup_iff_of_pow hreach _).mp hlookup'
      rw [hidx] at hlast
      obtain rfl : a = a' := Option.some.inj (hlast.symm.trans hlast')
      exact halign.symm.trans halign'

/-- The default cache of 2 KiB with blocks of 64 bytes. -/
theorem indexesBlocks_iff_default : 0 < (2048 : BitVec 64).toNat / (64 : BitVec 8).toNat ∧
    (IndexesBlocks (2048 : BitVec 64).toNat (64 : BitVec 8).toNat ↔
      (∃ m ≤ 30, (2048 : BitVec 64).toNat / (64 : BitVec 8).toNat = 2 ^ m) ∧
        ∃ s, (64 : BitVec 8).toNat = 2 ^ s) :=
  have hone : 0 < (2048 : BitVec 64).toNat / (64 : BitVec 8).toNat := by decide
  ⟨hone, indexesBlocks_iff 2048 64 hone⟩

/-- Three blocks: the address `0xc0` has index 3. -/
theorem three_blocks_out_of_range :
    (create 192 64 fun _ _ => 0).getIndex64 0xc0 = some 3 ∧ ¬ IndexesBlocks 192 64 := by
  have hidx : (create 192 64 fun _ _ => 0).getIndex64 0xc0 = some 3 := by
    obtain ⟨idx, hidx, hnat⟩ := getIndex64_eq (c := create 192 64 fun _ _ => 0) (by decide) 0xc0
    rw [hidx]
    exact congrArg some (BitVec.eq_of_toNat_eq (hnat.trans (by decide)))
  refine ⟨hidx, fun h => ?_⟩
  obtain ⟨idx, hidx', hlt⟩ := h.index_lt (fun _ _ => 0) 0xc0
  obtain rfl : (3 : BitVec 64) = idx := Option.some.inj (hidx.symm.trans hidx')
  exact absurd hlt (by decide)

end Iff

end RunaheadCache
end Runahead
end Gem5
