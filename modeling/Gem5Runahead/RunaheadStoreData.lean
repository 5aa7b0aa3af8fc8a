import Gem5Runahead.RunaheadCacheData

/-!
# RunaheadStoreData

The packets of a runahead store, and what they leave in the runahead cache. A store that stays
inside one cache line is one packet, which points to the store's data; one that crosses into the
next line is split into a fragment a line, and each fragment's packet gets a copy of its part of
the data. The runahead cache works on a copy of the packet, and a copy shares the data only in
the first case: in the second it comes with a new buffer.

Fragments are translated one by one. `translate` takes a virtual to a physical address; it keeps
the bytes of a cache line together.

* `fragments`, `buildPackets` — how a store is split, and its packets.
* `handleStore` — the cache handles the packets in order.
* `puts_data_iff` — the cache then holds the store's data, whatever it held before and whatever a
  new buffer holds, exactly for the stores that are not split.
-/

namespace Gem5
namespace Runahead

structure StoreRequest where
  addr : Nat
  size : Nat
  /-- The data, and which of the bytes are to be written. -/
  memData : Nat → Byte
  byteEnable : Nat → Bool := fun _ => true

/-- A fragment of a request: its address and size. -/
structure Fragment where
  vaddr : Nat
  size : Nat
deriving DecidableEq

namespace StoreRequest

/-- `addrBlockAlign`. -/
def blockAlign (addr lineSize : Nat) : Nat := addr - addr % lineSize

def needsBurst (st : StoreRequest) (lineSize : Nat) : Bool :=
  lineSize < st.addr % lineSize + st.size

/-- `addReq` drops a fragment of which no byte is enabled. -/
def isAnyActiveElement (st : StoreRequest) (f : Fragment) : Bool :=
  (List.range f.size).any fun k => st.byteEnable (f.vaddr - st.addr + k)

/-- The fragments of a split request: up to the end of the first line, whole lines, and the
tail. -/
def splitFragments (st : StoreRequest) (lineSize : Nat) : List Fragment :=
  let nextAddr := blockAlign (st.addr + lineSize) lineSize
  let finalAddr := blockAlign (st.addr + st.size) lineSize
  let lines := (List.range ((finalAddr - nextAddr) / lineSize)).map fun k =>
    Fragment.mk (nextAddr + k * lineSize) lineSize
  let sizeSoFar := finalAddr - st.addr
  let tail := if sizeSoFar < st.size then [Fragment.mk finalAddr (st.size - sizeSoFar)] else []
  ⟨st.addr, nextAddr - st.addr⟩ :: lines ++ tail

/-- The requests that `initiateTranslation` makes. -/
def fragments (st : StoreRequest) (lineSize : Nat) : List Fragment :=
  (if st.needsBurst lineSize then st.splitFragments lineSize else [⟨st.addr, st.size⟩]).filter
    st.isAnyActiveElement

/-- The packet of a fragment: static data for a single request, a dynamic copy for a split one. -/
def buildPacket (st : StoreRequest) (translate : Nat → Nat) (isSplit : Bool) (f : Fragment) :
    Packet :=
  let offset := f.vaddr - st.addr
  { Packet.createWrite (translate f.vaddr) f.size fun k => st.memData (offset + k) with
    staticData := !isSplit
    byteEnable := fun k => st.byteEnable (offset + k) }

def buildPackets (st : StoreRequest) (lineSize : Nat) (translate : Nat → Nat) : List Packet :=
  (st.fragments lineSize).map (st.buildPacket translate (st.needsBurst lineSize))

end StoreRequest

namespace RunaheadCache

/-- The packets are handled in order; `fresh n` is what the `n`-th new buffer holds. -/
def handleStore : List Packet → RunaheadCache → (Nat → Nat → Byte) → Option RunaheadCache
  | [], c, _ => some c
  | pkt :: pkts, c, fresh => do
    let (c, _) ← c.handlePacket pkt (fresh 0)
    handleStore pkts c fun n => fresh (n + 1)

/-- What the cache holds at an address, if it does. -/
def byteAt (c : RunaheadCache) (addr : Nat) : Option Byte := do
  let block ← c.cacheEntries[c.getIndex addr]?
  if block.tag == c.getTag addr && block.valid then some (block.data (addr % c.blockSize)) else none

/-- Once its packets are handled, the cache holds the store's data at the store's addresses,
whatever it held before and whatever the new buffers hold. -/
def PutsData (size blockSize lineSize : Nat) (translate : Nat → Nat) (st : StoreRequest) : Prop :=
  ∀ ops c, (system size blockSize).Reaches ops c → ∀ fresh,
    ∃ c', handleStore (st.buildPackets lineSize translate) c fresh = some c' ∧
      ∀ k < st.size, st.byteEnable k = true →
        c'.byteAt (translate (st.addr + k)) = some (st.memData k)

/-- The store is not split, its bytes lie in the packet's block, and the block in the array; or
it writes nothing at all. -/
def SentWhole (size blockSize lineSize : Nat) (translate : Nat → Nat) (st : StoreRequest) : Prop :=
  (∀ k < st.size, st.byteEnable k = false) ∨
    st.needsBurst lineSize = false ∧
      (∀ k < st.size, st.byteEnable k = true → translate st.addr % blockSize + k < blockSize) ∧
      (create size blockSize fun _ _ => 0).getIndex (translate st.addr) < size / blockSize

section Fragments

variable {st : StoreRequest} {L k : Nat} {f : Fragment}

theorem blockAlign_le (a L : Nat) : StoreRequest.blockAlign a L ≤ a := Nat.sub_le a (a % L)

theorem blockAlign_eq (a L : Nat) : StoreRequest.blockAlign a L = L * (a / L) := by
  have := Nat.div_add_mod a L
  unfold StoreRequest.blockAlign
  omega

theorem splitFragments_within (hL : 0 < L) (hburst : st.needsBurst L = true)
    (hf : f ∈ st.splitFragments L) :
    st.addr ≤ f.vaddr ∧ f.vaddr + f.size ≤ st.addr + st.size := by
  have hmod := Nat.mod_lt st.addr hL
  have hburst : L < st.addr % L + st.size := by simpa [StoreRequest.needsBurst] using hburst
  have hnext : StoreRequest.blockAlign (st.addr + L) L = st.addr - st.addr % L + L := by
    unfold StoreRequest.blockAlign
    rw [Nat.add_mod_right]
    have := Nat.mod_le st.addr L
    omega
  have hfinal := blockAlign_le (st.addr + st.size) L
  have hle := Nat.mod_le st.addr L
  simp only [StoreRequest.splitFragments, List.cons_append, List.mem_cons, List.mem_append,
    List.mem_map, List.mem_range] at hf
  have hreach : StoreRequest.blockAlign (st.addr + L) L ≤
      StoreRequest.blockAlign (st.addr + st.size) L := by
    rw [hnext, blockAlign_eq, ← Nat.sub_add_comm hle]
    have hstart : st.addr + L - st.addr % L = L * (st.addr / L + 1) := by
      have := Nat.div_add_mod st.addr L
      rw [Nat.mul_add, Nat.mul_one]
      omega
    rw [hstart]
    refine Nat.mul_le_mul_left L ((Nat.le_div_iff_mul_le hL).mpr ?_)
    rw [Nat.mul_comm, ← hstart]
    omega
  rcases hf with rfl | ⟨k, hk, rfl⟩ | hf
  · exact ⟨Nat.le_refl _, by simp only; omega⟩
  · have hlines := (Nat.le_div_iff_mul_le hL).mp hk
    rw [Nat.succ_mul] at hlines
    exact ⟨by simp only; omega, by simp only; omega⟩
  · split at hf
    · rw [List.mem_singleton] at hf
      subst hf
      exact ⟨by simp only; omega, by simp only; omega⟩
    · cases hf

/-- A fragment is made only if one of the store's bytes is enabled. -/
theorem fragments_active (hL : 0 < L) (hf : f ∈ st.fragments L) :
    ∃ k < st.size, st.byteEnable k = true := by
  simp only [StoreRequest.fragments, List.mem_filter, StoreRequest.isAnyActiveElement,
    List.any_eq_true, List.mem_range] at hf
  obtain ⟨hf, k, hk, henable⟩ := hf
  refine ⟨f.vaddr - st.addr + k, ?_, henable⟩
  split at hf
  · rename_i hburst
    obtain ⟨hlo, hhi⟩ := splitFragments_within hL hburst hf
    omega
  · rw [List.mem_singleton] at hf
    subst hf
    simpa using hk

theorem fragments_single (hburst : st.needsBurst L = false) (hk : k < st.size)
    (henable : st.byteEnable k = true) : st.fragments L = [⟨st.addr, st.size⟩] := by
  have hactive : st.isAnyActiveElement ⟨st.addr, st.size⟩ = true := by
    rw [StoreRequest.isAnyActiveElement, List.any_eq_true]
    exact ⟨k, List.mem_range.mpr hk, by simpa using henable⟩
  simp [StoreRequest.fragments, hburst, hactive]

end Fragments

section Geometry

variable {c c' : RunaheadCache} {size b : Nat} {ops : List Op}

theorem reaches_length (h : (system size (2 ^ b)).Reaches ops c) :
    c.cacheEntries.length = size / 2 ^ b := by
  refine h.invariant (I := fun c => c.cacheEntries.length = size / 2 ^ b) ?_ ?_
  · rintro _ ⟨raw, rfl⟩
    simp [create]
  · rintro s op u hlen ⟨-, hst⟩
    cases op with
    | invalidateCache =>
      cases hst
      simpa [RunaheadCache.invalidateCache] using hlen
    | handlePacket pkt fresh =>
      simp only [RunaheadCache.step, Option.map_eq_some_iff] at hst
      obtain ⟨⟨c₁, resp⟩, hst, rfl⟩ := hst
      cases hw : pkt.cmd.isWrite with
      | true =>
        obtain ⟨block, -, rfl⟩ := handlePacket_write hw hst
        simpa [setBlock] using hlen
      | false =>
        obtain ⟨rfl, -⟩ := handlePacket_read hw hst
        exact hlen

theorem getIndex_eq (hc : c.blockSize = 2 ^ b) (a : Nat) :
    c.getIndex a = a / 2 ^ b % 2 ^ ceilLog2 c.numBlocks := by
  simp only [getIndex, indexMask, indexShift_eq hc, Nat.shiftRight_eq_div_pow, Nat.one_shiftLeft,
    Nat.and_two_pow_sub_one_eq_mod]

theorem getTag_eq (hc : c.blockSize = 2 ^ b) (a : Nat) :
    c.getTag a = a / 2 ^ b / 2 ^ ceilLog2 c.numBlocks := by
  simp only [getTag, tagShift, indexShift_eq hc, Nat.shiftRight_eq_div_pow, Nat.pow_add,
    Nat.div_div_eq_div_mul]

/-- Index and tag together name the block of memory. -/
theorem block_eq (hc : c.blockSize = 2 ^ b) {a a' : Nat} (hidx : c.getIndex a = c.getIndex a')
    (htag : c.getTag a = c.getTag a') : a / 2 ^ b = a' / 2 ^ b := by
  rw [getIndex_eq hc, getIndex_eq hc] at hidx
  rw [getTag_eq hc, getTag_eq hc] at htag
  rw [← Nat.div_add_mod (a / 2 ^ b) (2 ^ ceilLog2 c.numBlocks), hidx, htag, Nat.div_add_mod]

end Geometry

section Uniform

variable {c c' : RunaheadCache} {v : Byte} {pkts : List Packet} {fresh : Nat → Nat → Byte}

/-- Every byte of every block, valid or not, is `v`. -/
def Uniform (v : Byte) (c : RunaheadCache) : Prop :=
  ∀ (idx : Nat) (block : CacheBlock), c.cacheEntries[idx]? = some block → ∀ off, block.data off = v

theorem Uniform.byteAt (h : Uniform v c) {a : Nat} {x : Byte} (hx : c.byteAt a = some x) :
    x = v := by
  obtain ⟨block, hb, hx⟩ := Option.bind_eq_some_iff.mp hx
  split at hx
  · rw [← Option.some.inj hx]
    exact h _ block hb _
  · cases hx

theorem create_uniform (size blockSize : Nat) (v : Byte) :
    Uniform v (create size blockSize fun _ _ => v) := by
  intro idx block hb off
  simp only [create, List.getElem?_map, Option.map_eq_some_iff] at hb
  obtain ⟨i, -, rfl⟩ := hb
  rfl

/-- Packets whose data is not carried over write what the new buffers hold. -/
theorem handleStore_uniform (hpkts : ∀ pkt ∈ pkts, pkt.cmd.isWrite = true ∧ pkt.staticData = false)
    (hfresh : ∀ n k, fresh n k = v) (h : Uniform v c) (hst : handleStore pkts c fresh = some c') :
    Uniform v c' := by
  induction pkts generalizing c fresh with
  | nil =>
    cases hst
    exact h
  | cons pkt pkts ih =>
    obtain ⟨⟨c₁, resp⟩, hone, hrest⟩ := Option.bind_eq_some_iff.mp hst
    obtain ⟨hw, hdyn⟩ := hpkts pkt List.mem_cons_self
    obtain ⟨old, hold, rfl⟩ := handlePacket_write hw hone
    refine ih (fun pkt hp => hpkts pkt (List.mem_cons_of_mem _ hp)) (fun n => hfresh (n + 1)) ?_ hrest
    intro idx block hb off
    simp only [setBlock, List.getElem?_set] at hb
    split at hb
    · split at hb
      · cases hb
        have hdata : ∀ k, (pkt.copy (fresh 0)).data k = v := by
          intro k
          simp only [Packet.copy, hdyn, Bool.false_eq_true, if_false]
          exact hfresh 0 k
        simp only [Packet.copy_writeDataToBlock, hdata]
        split
        · rfl
        · exact h _ old hold off
      · cases hb
    · exact h idx block hb off

end Uniform

section Stores

variable {size b lineSize k : Nat} {translate : Nat → Nat} {st : StoreRequest} {c : RunaheadCache}
  {ops : List Op}

theorem buildPackets_single (hburst : st.needsBurst lineSize = false) (hk : k < st.size)
    (henable : st.byteEnable k = true) :
    st.buildPackets lineSize translate =
      [st.buildPacket translate false ⟨st.addr, st.size⟩] := by
  rw [StoreRequest.buildPackets, fragments_single hburst hk henable, hburst]
  rfl

/-- A single packet whose index is in the array writes its block. -/
theorem handleStore_single {pkt : Packet} {block : CacheBlock} (fresh : Nat → Nat → Byte)
    (hw : pkt.cmd.isWrite = true) (hb : c.cacheEntries[c.getIndex pkt.addr]? = some block) :
    handleStore [pkt] c fresh = some (c.setBlock (c.getIndex pkt.addr)
      { data := (pkt.copy (fresh 0)).writeDataToBlock block.data c.blockSize
        tag := c.getTag pkt.addr, valid := true, poisoned := pkt.poisoned }) := by
  simp [handleStore, handlePacket, write, hw, hb]

/-- The new block after a single packet, at the addresses of the packet's block. -/
theorem byteAt_setBlock (hc : c.blockSize = 2 ^ b) {a i : Nat} {data : Nat → Byte} {poisoned : Bool}
    (hin : a % 2 ^ b + i < 2 ^ b) (hlen : c.getIndex a < c.cacheEntries.length) :
    (c.setBlock (c.getIndex a)
      { data := data, tag := c.getTag a, valid := true, poisoned := poisoned }).byteAt (a + i) =
      some (data (a % 2 ^ b + i)) := by
  have htag : c.getTag (a + i) = c.getTag a := by
    rw [getTag_eq hc, getTag_eq hc, add_div_block hin]
  have hidx : c.getIndex (a + i) = c.getIndex a := congrArg Prod.fst (slot_add hc hin)
  have hmod : (a + i) % c.blockSize = a % 2 ^ b + i := by rw [hc, add_mod_block hin]
  change ((c.cacheEntries.set (c.getIndex a) _)[c.getIndex (a + i)]?.bind fun block =>
    if block.tag == c.getTag (a + i) && block.valid then some (block.data ((a + i) % c.blockSize))
    else none) = _
  rw [hidx, List.getElem?_set_self hlen, Option.bind_some, htag, hmod]
  simp

/-- A cache with no valid block but the one a packet has just written holds nothing outside of
it. -/
theorem byteAt_outside (hc : c.blockSize = 2 ^ b) {a a' : Nat} {block : CacheBlock}
    (hinvalid : ∀ (idx : Nat) (old : CacheBlock), c.cacheEntries[idx]? = some old → old.valid = false)
    (htag : block.tag = c.getTag a) (hne : a' / 2 ^ b ≠ a / 2 ^ b) :
    (c.setBlock (c.getIndex a) block).byteAt a' = none := by
  change ((c.cacheEntries.set (c.getIndex a) block)[c.getIndex a']?.bind fun block =>
    if block.tag == c.getTag a' && block.valid then some (block.data (a' % c.blockSize))
    else none) = _
  by_cases hidx : c.getIndex a = c.getIndex a'
  · have htag' : c.getTag a ≠ c.getTag a' := by
      intro heq
      exact hne (block_eq hc hidx.symm heq.symm)
    rw [hidx]
    by_cases hlen : c.getIndex a' < c.cacheEntries.length
    · rw [List.getElem?_set_self hlen, Option.bind_some, htag]
      simp [htag']
    · rw [List.getElem?_eq_none (by simpa using hlen)]
      rfl
  · rw [List.getElem?_set_ne hidx]
    cases hold : c.cacheEntries[c.getIndex a']? with
    | none => rfl
    | some old => simp [hinvalid _ old hold]

/-- A store of which no byte is enabled makes no packet. -/
theorem buildPackets_nil (hline : 0 < lineSize) (hnone : ∀ k < st.size, st.byteEnable k = false) :
    st.buildPackets lineSize translate = [] := by
  rw [StoreRequest.buildPackets, List.map_eq_nil_iff, List.eq_nil_iff_forall_not_mem]
  intro f hf
  obtain ⟨k, hk, henable⟩ := fragments_active hline hf
  rw [hnone k hk] at henable
  cases henable

/-- A single packet leaves its bytes, as far as they lie in its block. -/
theorem putsData_single (hburst : st.needsBurst lineSize = false)
    (htr : ∀ a i, a % lineSize + i < lineSize → translate (a + i) = translate a + i)
    (hin : ∀ k < st.size, st.byteEnable k = true → translate st.addr % 2 ^ b + k < 2 ^ b)
    (hidx : (create size (2 ^ b) fun _ _ => 0).getIndex (translate st.addr) < size / 2 ^ b)
    {k₀ : Nat} (hk₀ : k₀ < st.size) (henable₀ : st.byteEnable k₀ = true) :
    PutsData size (2 ^ b) lineSize translate st := by
  intro ops c hreach fresh
  obtain ⟨hsize, hblock⟩ := reaches_geometry hreach
  have hlen : c.getIndex (translate st.addr) < c.cacheEntries.length := by
    rw [reaches_length hreach]
    rwa [getIndex_congr (c := create size (2 ^ b) fun _ _ => 0) hsize hblock]
  rw [buildPackets_single hburst hk₀ henable₀]
  refine ⟨_, handleStore_single fresh rfl (List.getElem?_eq_getElem hlen), ?_⟩
  intro k hk henable
  have hline : st.addr % lineSize + k < lineSize := by
    have hburst : ¬ lineSize < st.addr % lineSize + st.size := by
      simpa [StoreRequest.needsBurst] using hburst
    omega
  rw [htr st.addr k hline]
  refine (byteAt_setBlock hblock (hin k hk henable) hlen).trans ?_
  simp only [StoreRequest.buildPacket, Packet.createWrite, Packet.writeDataToBlock, Packet.copy,
    hblock, Packet.getOffset, Nat.and_two_pow_sub_one_eq_mod]
  simp [henable, hk]

/-- A split store may leave anything: with buffers full of another byte, its byte is nowhere. -/
theorem not_putsData_split {k : Nat} (hburst : st.needsBurst lineSize = true) (hk : k < st.size)
    (henable : st.byteEnable k = true) : ¬ PutsData size (2 ^ b) lineSize translate st := by
  intro hputs
  obtain ⟨v, hv⟩ : ∃ v : Byte, v ≠ st.memData k := by
    by_cases hzero : st.memData k = 0
    · exact ⟨1, by rw [hzero]; decide⟩
    · exact ⟨0, Ne.symm hzero⟩
  obtain ⟨c', hst, hdata⟩ :=
    hputs [] (create size (2 ^ b) fun _ _ => v) (.start ⟨_, rfl⟩) fun _ _ => v
  have huniform : Uniform v c' := by
    refine handleStore_uniform (fun pkt hp => ?_) (fun _ _ => rfl) (create_uniform _ _ v) hst
    simp only [StoreRequest.buildPackets, hburst, List.mem_map] at hp
    obtain ⟨f, -, rfl⟩ := hp
    exact ⟨rfl, rfl⟩
  exact hv (huniform.byteAt (hdata k hk henable)).symm

/-- A single packet leaves nothing outside its block, and nothing if its index is outside the
array. -/
theorem not_putsData_single {k : Nat} (hburst : st.needsBurst lineSize = false)
    (htr : ∀ a i, a % lineSize + i < lineSize → translate (a + i) = translate a + i)
    (hk : k < st.size) (henable : st.byteEnable k = true)
    (hout : ¬ translate st.addr % 2 ^ b + k < 2 ^ b ∨
      ¬ (create size (2 ^ b) fun _ _ => 0).getIndex (translate st.addr) < size / 2 ^ b) :
    ¬ PutsData size (2 ^ b) lineSize translate st := by
  intro hputs
  obtain ⟨c', hst, hdata⟩ :=
    hputs [] (create size (2 ^ b) fun _ _ => 0) (.start ⟨_, rfl⟩) fun _ _ => 0
  rw [buildPackets_single hburst hk henable] at hst
  obtain ⟨⟨c₁, resp⟩, hone, hrest⟩ := Option.bind_eq_some_iff.mp hst
  obtain rfl : c₁ = c' := Option.some.inj hrest
  obtain ⟨old, hold, rfl⟩ := handlePacket_write rfl hone
  have hlen : (create size (2 ^ b) fun _ _ => 0).cacheEntries.length = size / 2 ^ b := by
    simp [create]
  rcases hout with hout | hout
  · have hline : st.addr % lineSize + k < lineSize := by
      have hburst : ¬ lineSize < st.addr % lineSize + st.size := by
        simpa [StoreRequest.needsBurst] using hburst
      omega
    have hfound := hdata k hk henable
    rw [htr st.addr k hline] at hfound
    have hne : (translate st.addr + k) / 2 ^ b ≠ translate st.addr / 2 ^ b := by
      have hpos : 0 < 2 ^ b := Nat.two_pow_pos b
      have hnext : translate st.addr / 2 ^ b + 1 ≤ (translate st.addr + k) / 2 ^ b := by
        rw [Nat.le_div_iff_mul_le hpos, Nat.add_mul, Nat.one_mul]
        have := Nat.div_add_mod (translate st.addr) (2 ^ b)
        rw [Nat.mul_comm] at this
        omega
      omega
    have hinvalid : ∀ (idx : Nat) (old : CacheBlock),
        (create size (2 ^ b) fun _ _ => 0).cacheEntries[idx]? = some old → old.valid = false := by
      intro idx old hold
      simp only [create, List.getElem?_map, Option.map_eq_some_iff] at hold
      obtain ⟨i, -, rfl⟩ := hold
      rfl
    have hblock : (create size (2 ^ b) fun _ _ => 0).blockSize = 2 ^ b := rfl
    exact Option.some_ne_none _ (hfound.symm.trans (byteAt_outside hblock hinvalid rfl hne))
  · rw [← hlen] at hout
    have hnone := List.getElem?_eq_none (Nat.le_of_not_lt hout)
    exact Option.some_ne_none _ (hold.symm.trans hnone)

/-- **A runahead store's data in the runahead cache.** After the packets of a runahead store are
handled, the cache holds the store's data, exactly if the store is sent whole. -/
theorem puts_data_iff (hline : 0 < lineSize)
    (htr : ∀ a i, a % lineSize + i < lineSize → translate (a + i) = translate a + i) :
    PutsData size (2 ^ b) lineSize translate st ↔
      SentWhole size (2 ^ b) lineSize translate st := by
  by_cases hsome : ∃ k < st.size, st.byteEnable k = true
  · obtain ⟨k, hk, henable⟩ := hsome
    constructor
    · intro hputs
      right
      have hburst : st.needsBurst lineSize = false := by
        by_contra hburst
        exact not_putsData_split (by simpa using hburst) hk henable hputs
      refine ⟨hburst, fun j hj henable' => ?_, ?_⟩
      · by_contra hout
        exact not_putsData_single hburst htr hj henable' (.inl hout) hputs
      · by_contra hout
        exact not_putsData_single hburst htr hk henable (.inr hout) hputs
    · rintro (hnone | ⟨hburst, hin, hidx⟩)
      · rw [hnone k hk] at henable
        cases henable
      · exact putsData_single hburst htr hin hidx hk henable
  · have hnone : ∀ k < st.size, st.byteEnable k = false := by
      intro k hk
      by_contra henable
      exact hsome ⟨k, hk, by simpa using henable⟩
    refine ⟨fun _ => .inl hnone, fun _ ops c _ fresh => ⟨c, ?_, fun k hk henable => ?_⟩⟩
    · rw [buildPackets_nil hline hnone]
      rfl
    · rw [hnone k hk] at henable
      cases henable

/-- Eight bytes at `0x40` are one packet. -/
theorem puts_data_iff_aligned :
    PutsData 2048 (2 ^ 6) 64 id { addr := 0x40, size := 8, memData := fun _ => 7 } := by
  refine (puts_data_iff (by decide) fun a i _ => rfl).mpr (.inr ⟨by decide, ?_, by decide⟩)
  intro k hk _
  have hk : k < 8 := hk
  have haddr : id 0x40 % 2 ^ 6 = 0 := by decide
  simp only [haddr]
  omega

/-- Eight bytes at `0x7c` are split, and the two fragments leave what the new buffers hold. -/
theorem split_store_loses_data :
    ¬ PutsData 2048 (2 ^ 6) 64 id { addr := 0x7c, size := 8, memData := fun _ => 7 } :=
  not_putsData_split (k := 0) (by decide) (by decide) rfl

end Stores

end RunaheadCache
end Runahead
end Gem5
