import Gem5Runahead.Lib.Tiling
import Mathlib.Data.List.TakeWhile

/-!
# SplitRequest

An access that crosses a cache line is translated and sent in fragments: a head up to the first
line boundary, whole lines, and a tail. Addresses have 64 bits, sizes are `uint32_t`, and a
fragment without an active byte is not made.

`addrBlockAlign` and `isAnyActiveElement` are functions of the simulator around; `CpuUtils` says
what is relied on. The iterators into the byte mask are its indices, and `none` is one past the
end of the mask or a loop that has used up its fuel.

* `initiateTranslation`, `buildPackets` — the code.
* `blockLoop_spec` — the loop over whole lines ends, and tiles.
* `initiateTranslation_tiles` — the fragments tile the access.
-/

namespace Gem5
namespace Runahead

structure CpuUtils where
  addrBlockAlign : BitVec 64 → BitVec 64 → BitVec 64
  isAnyActiveElement : List Bool → Bool
  /-- The address without the bits below a power of two. -/
  align : ∀ addr k, k < 64 →
    (addrBlockAlign addr (BitVec.twoPow 64 k)).toNat = addr.toNat / 2 ^ k * 2 ^ k
  anyActive : ∀ mask, isAnyActiveElement mask = mask.any id

/-- A request to the memory system, for a part of the access. -/
structure SubRequest where
  vaddr : BitVec 64
  size : BitVec 32
  byteEnable : List Bool

def SubRequest.range (f : SubRequest) : ByteRange 64 := ⟨f.vaddr, f.size.toNat⟩

structure SplitRequest where
  addr : BitVec 64
  size : BitVec 32
  byteEnable : List Bool
  mainReq : Option SubRequest := none
  reqs : List SubRequest := []
  translationStarted : Bool := false
  memAccPredicate : Bool := true
  /-- Whether the translation of each fragment has faulted. -/
  fault : List Bool := []

/-- What a packet takes from, or hands to, the data of the instruction. -/
structure SubPacket where
  offset : BitVec 64
  size : BitVec 32

/-- The indices of the data buffer that the packet accesses. -/
def SubPacket.indices (pkt : SubPacket) : List Nat :=
  List.range' pkt.offset.toNat pkt.size.toNat

namespace SplitRequest

/-- The constructor, and the mask that `pushRequest` sets. -/
def create (addr : BitVec 64) (size : BitVec 32) (byteEnable : List Bool) : SplitRequest where
  addr := addr
  size := size
  byteEnable := byteEnable

def slice (mask : List Bool) (itStart itEnd : Nat) : Option (List Bool) :=
  if itStart ≤ itEnd ∧ itEnd ≤ mask.length then some ((mask.drop itStart).take (itEnd - itStart))
  else none

section Translation

variable (u : CpuUtils) (cacheLineSize : BitVec 32)

def addReq (r : SplitRequest) (addr : BitVec 64) (size : BitVec 32) (byteEnable : List Bool) :
    SplitRequest :=
  if u.isAnyActiveElement byteEnable then { r with reqs := r.reqs ++ [⟨addr, size, byteEnable⟩] }
  else r

/-- The loop over the whole lines up to `finalAddr`, with `sizeSoFar` bytes behind `baseAddr`. -/
def blockLoop (finalAddr : BitVec 64) :
    Nat → SplitRequest → BitVec 64 → BitVec 32 → Option (SplitRequest × BitVec 32)
  | 0, _, _, _ => none
  | fuel + 1, r, baseAddr, sizeSoFar =>
    if baseAddr = finalAddr then some (r, sizeSoFar)
    else do
      let mask ← slice r.byteEnable sizeSoFar.toNat (sizeSoFar.toNat + cacheLineSize.toNat)
      blockLoop finalAddr fuel (r.addReq u baseAddr cacheLineSize mask)
        (baseAddr + cacheLineSize.setWidth 64) (sizeSoFar + cacheLineSize)

def addTail (r : SplitRequest) (baseAddr : BitVec 64) (sizeSoFar : BitVec 32) :
    Option SplitRequest :=
  if sizeSoFar < r.size then do
    let mask ← slice r.byteEnable sizeSoFar.toNat r.byteEnable.length
    return r.addReq u baseAddr (r.size - sizeSoFar) mask
  else some r

def startTranslation (r : SplitRequest) : SplitRequest :=
  if r.reqs.isEmpty then { r with memAccPredicate := false }
  else { r with translationStarted := true, fault := r.reqs.map fun _ => false }

/-- The size of the head is cut to the width of the parameter. -/
def initiateTranslation (fuel : Nat) (r : SplitRequest) : Option SplitRequest := do
  let lineSize := cacheLineSize.setWidth 64
  let nextAddr := u.addrBlockAlign (r.addr + lineSize) lineSize
  let finalAddr := u.addrBlockAlign (r.addr + r.size.setWidth 64) lineSize
  let r := { r with mainReq := some ⟨r.addr, r.size, r.byteEnable⟩ }
  let mask ← slice r.byteEnable 0 (nextAddr - r.addr).toNat
  let headSize := (nextAddr - r.addr).setWidth 32
  let r := r.addReq u r.addr headSize mask
  let (r, sizeSoFar) ← blockLoop u cacheLineSize finalAddr fuel r nextAddr headSize
  let r ← r.addTail u finalAddr sizeSoFar
  return r.startTranslation

end Translation

/-- The packets of the fragments up to the first that faulted. -/
def buildPackets (r : SplitRequest) : List SubPacket :=
  ((r.reqs.zip r.fault).takeWhile (!·.2)).map fun f =>
    { offset := f.1.vaddr - r.addr, size := f.1.size }

section Tiling

variable {u : CpuUtils} {k : Nat}

/-- All of the range is in one cache line. -/
def InOneLine (lineSize : Nat) (r : ByteRange 64) : Prop :=
  ∃ line, line * lineSize ≤ r.start.toNat ∧ r.start.toNat + r.size ≤ (line + 1) * lineSize

theorem slice_replicate {n itStart itEnd : Nat} (h : itStart ≤ itEnd) (hend : itEnd ≤ n) :
    slice (List.replicate n true) itStart itEnd =
      some (List.replicate (itEnd - itStart) true) := by
  unfold slice
  rw [List.length_replicate, if_pos ⟨h, hend⟩, List.drop_replicate, List.take_replicate,
    Nat.min_eq_left (by omega)]

theorem addReq_replicate {n : Nat} (hn : 0 < n) (r : SplitRequest) (addr : BitVec 64)
    (size : BitVec 32) : r.addReq u addr size (List.replicate n true) =
      { r with reqs := r.reqs ++ [⟨addr, size, List.replicate n true⟩] } := by
  have hany : u.isAnyActiveElement (List.replicate n true) = true := by
    rw [u.anyActive, List.any_eq_true]
    exact ⟨true, List.mem_replicate.mpr ⟨by omega, rfl⟩, rfl⟩
  unfold addReq
  rw [if_pos hany]

theorem twoPow_eq_ofNat (w k : Nat) : BitVec.twoPow w k = BitVec.ofNat w (2 ^ k) :=
  BitVec.eq_of_toNat_eq (by rw [BitVec.toNat_twoPow, BitVec.toNat_ofNat])

theorem toNat_lineSize (hk : k < 32) : (BitVec.twoPow 32 k).toNat = 2 ^ k := by
  rw [BitVec.toNat_twoPow, Nat.mod_eq_of_lt (Nat.pow_lt_pow_right (by decide) hk)]

theorem setWidth_lineSize (hk : k < 32) :
    (BitVec.twoPow 32 k).setWidth 64 = BitVec.twoPow 64 k := by
  refine BitVec.eq_of_toNat_eq ?_
  have hlt : 2 ^ k < 2 ^ 32 := Nat.pow_lt_pow_right (by decide) hk
  rw [BitVec.toNat_setWidth, toNat_lineSize hk, BitVec.toNat_twoPow]

theorem inOneLine_of_dvd {lineSize : Nat} {r : ByteRange 64} (hdvd : lineSize ∣ r.start.toNat)
    (hle : r.size ≤ lineSize) : InOneLine lineSize r := by
  obtain ⟨line, hline⟩ := hdvd
  refine ⟨line, ?_, ?_⟩
  · rw [hline, Nat.mul_comm]
  · rw [hline, Nat.add_mul, Nat.one_mul, Nat.mul_comm]
    omega

/-- The loop over `n` whole lines ends, and the fragments it adds tile them. -/
theorem blockLoop_spec (hk : k < 32) {size : Nat} (hsize : size < 2 ^ 32) (n : Nat) :
    ∀ (base sizeSoFar : Nat) (r : SplitRequest), 0 < base → 2 ^ k ∣ base →
      base + n * 2 ^ k ≤ 2 ^ 64 → sizeSoFar + n * 2 ^ k ≤ size →
      r.byteEnable = List.replicate size true →
      ∃ blocks, (∀ fuel, n < fuel → blockLoop u (BitVec.twoPow 32 k)
          (BitVec.ofNat 64 (base + n * 2 ^ k)) fuel r (BitVec.ofNat 64 base)
          (BitVec.ofNat 32 sizeSoFar) =
            some ({ r with reqs := r.reqs ++ blocks }, BitVec.ofNat 32 (sizeSoFar + n * 2 ^ k))) ∧
        ByteRange.Tiles base (base + n * 2 ^ k) (blocks.map SubRequest.range) ∧
        ∀ f ∈ blocks, InOneLine (2 ^ k) f.range := by
  have hL : 0 < 2 ^ k := Nat.two_pow_pos k
  induction n with
  | zero =>
    intro base sizeSoFar r _ _ _ _ _
    rw [Nat.zero_mul, Nat.add_zero]
    refine ⟨[], fun fuel hfuel => ?_, .nil base, fun f hf => by cases hf⟩
    obtain ⟨fuel, rfl⟩ : ∃ m, fuel = m + 1 := ⟨fuel - 1, by omega⟩
    rw [blockLoop, if_pos rfl, List.append_nil, Nat.add_zero]
  | succ n ih =>
    intro base sizeSoFar r hpos hdvd htop hsofar hmask
    rw [Nat.add_mul, Nat.one_mul] at htop hsofar ⊢
    have hbase : base < 2 ^ 64 := by omega
    have hstart : (BitVec.ofNat 64 base).toNat = base := by
      rw [BitVec.toNat_ofNat, Nat.mod_eq_of_lt hbase]
    have hne : BitVec.ofNat 64 base ≠ BitVec.ofNat 64 (base + (n * 2 ^ k + 2 ^ k)) := by
      intro heq
      have heq := congrArg BitVec.toNat heq
      rw [BitVec.toNat_ofNat, BitVec.toNat_ofNat] at heq
      omega
    have hslice : slice r.byteEnable (BitVec.ofNat 32 sizeSoFar).toNat
        ((BitVec.ofNat 32 sizeSoFar).toNat + (BitVec.twoPow 32 k).toNat) =
          some (List.replicate (2 ^ k) true) := by
      rw [toNat_lineSize hk, BitVec.toNat_ofNat, Nat.mod_eq_of_lt (by omega), hmask,
        slice_replicate (by omega) (by omega), Nat.add_sub_cancel_left]
    have hnextBase : BitVec.ofNat 64 base + (BitVec.twoPow 32 k).setWidth 64 =
        BitVec.ofNat 64 (base + 2 ^ k) := by
      rw [setWidth_lineSize hk, BitVec.ofNat_add, twoPow_eq_ofNat]
    have hnextSize : BitVec.ofNat 32 sizeSoFar + BitVec.twoPow 32 k =
        BitVec.ofNat 32 (sizeSoFar + 2 ^ k) := by
      rw [BitVec.ofNat_add, twoPow_eq_ofNat]
    obtain ⟨blocks, hloop, htiles, hlines⟩ := ih (base + 2 ^ k) (sizeSoFar + 2 ^ k)
      { r with reqs := r.reqs ++
        [⟨BitVec.ofNat 64 base, BitVec.twoPow 32 k, List.replicate (2 ^ k) true⟩] }
      (by omega) (Nat.dvd_add_self_right.mpr hdvd) (by omega) (by omega) hmask
    have hshift : base + 2 ^ k + n * 2 ^ k = base + (n * 2 ^ k + 2 ^ k) := by omega
    have hshift' : sizeSoFar + 2 ^ k + n * 2 ^ k = sizeSoFar + (n * 2 ^ k + 2 ^ k) := by omega
    rw [hshift, hshift'] at hloop
    rw [hshift] at htiles
    refine ⟨⟨BitVec.ofNat 64 base, BitVec.twoPow 32 k, List.replicate (2 ^ k) true⟩ :: blocks,
      fun fuel hfuel => ?_, ?_, ?_⟩
    · obtain ⟨fuel, rfl⟩ : ∃ m, fuel = m + 1 := ⟨fuel - 1, by omega⟩
      rw [blockLoop, if_neg hne, hslice]
      simp only [Option.bind_eq_bind, Option.bind_some]
      rw [addReq_replicate hL, hnextBase, hnextSize, hloop fuel (by omega), List.append_assoc,
        List.singleton_append]
    · exact .cons_of hstart (toNat_lineSize hk) hL htiles
    · intro f hf
      rcases List.mem_cons.mp hf with rfl | hf
      · refine inOneLine_of_dvd ?_ ?_
        · show 2 ^ k ∣ (BitVec.ofNat 64 base).toNat
          rw [hstart]
          exact hdvd
        · exact (toNat_lineSize hk).le
      · exact hlines f hf

/-- The first line boundary in an access, and the number of whole lines from there on. -/
structure Boundaries (a s lineSize next n : Nat) : Prop where
  next_eq : (a / lineSize + 1) * lineSize = next
  final_eq : (a + s) / lineSize * lineSize = next + n * lineSize
  start_lt : a < next
  next_le : next ≤ a + lineSize
  next_lt : next < a + s
  final_le : next + n * lineSize ≤ a + s
  lt_final : a + s < next + n * lineSize + lineSize

theorem exists_boundaries {a s lineSize : Nat} (hL : 0 < lineSize)
    (hcross : a / lineSize < (a + s - 1) / lineSize) :
    ∃ next n, Boundaries a s lineSize next n := by
  have hpos : 0 < a + s := by
    rcases Nat.eq_zero_or_pos (a + s) with h | h
    · rw [h, Nat.zero_sub, Nat.zero_div] at hcross
      exact absurd hcross (Nat.not_lt_zero _)
    · exact h
  have hcount : (a / lineSize + 1) ≤ (a + s) / lineSize :=
    Nat.le_trans hcross (Nat.div_le_div_right (by omega))
  have hfirst : (a / lineSize + 1) * lineSize ≤ a + s - 1 := (Nat.le_div_iff_mul_le hL).mp hcross
  have hfinal : (a / lineSize + 1) * lineSize +
      ((a + s) / lineSize - (a / lineSize + 1)) * lineSize = (a + s) / lineSize * lineSize := by
    rw [← Nat.add_mul, Nat.add_sub_cancel' hcount]
  have hstart := Nat.div_add_mod a lineSize
  have hend := Nat.div_add_mod (a + s) lineSize
  have hmod := Nat.mod_lt a hL
  have hmod' := Nat.mod_lt (a + s) hL
  rw [Nat.mul_comm] at hstart hend
  have hnext : (a / lineSize + 1) * lineSize = a / lineSize * lineSize + lineSize := by
    rw [Nat.add_mul, Nat.one_mul]
  exact ⟨_, _, rfl, hfinal.symm, by omega, by omega, by omega, by omega, by omega⟩

section Addresses

variable {r : SplitRequest} {next n : Nat}
  (hb : Boundaries r.addr.toNat r.size.toNat (2 ^ k) next n)
  (hk : k < 32) (hfits : r.addr.toNat + r.size.toNat ≤ 2 ^ 64)
include hb hk hfits

theorem nextAddr_eq : u.addrBlockAlign (r.addr + (BitVec.twoPow 32 k).setWidth 64)
    ((BitVec.twoPow 32 k).setWidth 64) = BitVec.ofNat 64 next := by
  have hL : 2 ^ k < 2 ^ 32 := Nat.pow_lt_pow_right (by decide) hk
  have hspace : 2 ^ k ∣ 2 ^ 64 := Nat.pow_dvd_pow 2 (by omega)
  have hdvd : 2 ^ k ∣ next := ⟨_, (hb.next_eq.symm.trans (Nat.mul_comm _ _))⟩
  -- the line after the boundary is still in the address space
  have hroom : next + 2 ^ k ≤ 2 ^ 64 := by
    obtain ⟨i, hi⟩ := hdvd
    obtain ⟨j, hj⟩ := hspace
    have hlt : i < j := by
      have hlt : 2 ^ k * i < 2 ^ k * j := by
        rw [← hi, ← hj]
        exact Nat.lt_of_lt_of_le hb.next_lt hfits
      exact Nat.lt_of_mul_lt_mul_left hlt
    calc next + 2 ^ k = 2 ^ k * (i + 1) := by rw [hi, Nat.mul_add, Nat.mul_one]
      _ ≤ 2 ^ k * j := Nat.mul_le_mul_left _ hlt
      _ = 2 ^ 64 := hj.symm
  have hlt := hb.start_lt
  refine BitVec.eq_of_toNat_eq ?_
  rw [setWidth_lineSize hk, u.align _ k (by omega), BitVec.toNat_add, BitVec.toNat_twoPow,
    Nat.mod_eq_of_lt (a := 2 ^ k) (by omega), Nat.mod_eq_of_lt (by omega),
    Nat.add_div_right _ (Nat.two_pow_pos k), BitVec.toNat_ofNat, Nat.mod_eq_of_lt (by omega)]
  exact hb.next_eq

theorem finalAddr_eq : u.addrBlockAlign (r.addr + r.size.setWidth 64)
    ((BitVec.twoPow 32 k).setWidth 64) = BitVec.ofNat 64 (next + n * 2 ^ k) := by
  refine BitVec.eq_of_toNat_eq ?_
  have hsize := r.size.isLt
  rw [setWidth_lineSize hk, u.align _ k (by omega), BitVec.toNat_add, BitVec.toNat_setWidth,
    Nat.mod_eq_of_lt (a := r.size.toNat) (by omega), BitVec.toNat_ofNat, ← hb.final_eq]
  rcases Nat.lt_or_eq_of_le hfits with hlt | htop
  · have hle := Nat.div_mul_le_self (r.addr.toNat + r.size.toNat) (2 ^ k)
    rw [Nat.mod_eq_of_lt hlt, Nat.mod_eq_of_lt (Nat.lt_of_le_of_lt hle hlt)]
  · -- the end of the access is computed as address zero
    rw [htop, Nat.mod_self, Nat.zero_div, Nat.zero_mul,
      Nat.div_mul_cancel (Nat.pow_dvd_pow 2 (by omega)), Nat.mod_self]

end Addresses

theorem toNat_headSize {a : BitVec 64} {s next n : Nat} (hb : Boundaries a.toNat s (2 ^ k) next n)
    (hfits : a.toNat + s ≤ 2 ^ 64) : (BitVec.ofNat 64 next - a).toNat = next - a.toNat := by
  have hlt := hb.start_lt
  have hend := hb.next_lt
  rw [BitVec.toNat_sub, BitVec.toNat_ofNat]
  omega

/-- What the translation of an access does: the fragments tile it, each in one cache line, and
whatever part of them is translated, their packets use a first part of the data once per byte. -/
structure Tiled (lineSize : Nat) (r : SplitRequest) : Prop where
  tiles : ByteRange.Tiles r.addr.toNat (r.addr.toNat + r.size.toNat) (r.reqs.map SubRequest.range)
  oneLine : ∀ f ∈ r.reqs, InOneLine lineSize f.range
  nonempty : ∀ f ∈ r.reqs, 0 < f.size.toNat
  ascending : r.reqs.Pairwise fun f f' => f.vaddr.toNat + f.size.toNat ≤ f'.vaddr.toNat
  union : ∀ x, (∃ f ∈ r.reqs, x ∈ f.range) ↔
    r.addr.toNat ≤ x ∧ x < r.addr.toNat + r.size.toNat
  offsets : r.buildPackets.flatMap SubPacket.indices = List.range r.size.toNat
  partialOffsets : ∀ fault : List Bool, fault.length = r.reqs.length →
    ∃ m ≤ r.size.toNat,
      { r with fault := fault }.buildPackets.flatMap SubPacket.indices = List.range m

/-- The packets of a first part of the fragments. -/
theorem indices_eq {r : SplitRequest} {fs : List SubRequest} {c : Nat}
    (h : ByteRange.Tiles r.addr.toNat c (fs.map SubRequest.range)) :
    fs.flatMap (fun f => SubPacket.indices ⟨f.vaddr - r.addr, f.size⟩) =
      List.range (c - r.addr.toNat) := by
  rw [← h.offsets, List.flatMap_map]
  refine List.flatMap_congr fun f hf => ?_
  have hle : r.addr.toNat ≤ f.vaddr.toNat := h.le_start _ (List.mem_map_of_mem hf)
  have hoffset : (f.vaddr - r.addr).toNat = f.vaddr.toNat - r.addr.toNat := by
    rw [BitVec.toNat_sub]
    omega
  rw [SubPacket.indices, hoffset]
  rfl

theorem tiled_of_tiles {lineSize : Nat} {r : SplitRequest}
    (htiles : ByteRange.Tiles r.addr.toNat (r.addr.toNat + r.size.toNat) (r.reqs.map SubRequest.range))
    (hlines : ∀ f ∈ r.reqs, InOneLine lineSize f.range)
    (hfault : r.fault = r.reqs.map fun _ => false) : Tiled lineSize r where
  tiles := htiles
  oneLine := hlines
  nonempty f hf := htiles.pos _ (List.mem_map_of_mem hf)
  ascending := List.pairwise_map.mp htiles.pairwise
  union x := by
    rw [← htiles.mem_iff]
    simp
  offsets := by
    have hall : (r.reqs.zip r.fault).takeWhile (!·.2) = r.reqs.zip r.fault := by
      refine List.takeWhile_eq_self_iff.mpr fun f hf => ?_
      have hmem := (List.of_mem_zip hf).2
      rw [hfault, List.mem_map] at hmem
      obtain ⟨_, _, hf⟩ := hmem
      rw [← hf]
      rfl
    have hfst : (r.reqs.zip r.fault).map Prod.fst = r.reqs :=
      List.map_fst_zip (by rw [hfault, List.length_map])
    have hindices := indices_eq htiles
    rw [← hfst, List.flatMap_map, Nat.add_sub_cancel_left] at hindices
    rw [buildPackets, hall, List.flatMap_map]
    exact hindices
  partialOffsets fault hlen := by
    obtain ⟨rest, hrest⟩ := List.takeWhile_prefix (l := r.reqs.zip fault) (!·.2)
    have hfst : (r.reqs.zip fault).map Prod.fst = r.reqs := List.map_fst_zip hlen.ge
    rw [← hrest, List.map_append] at hfst
    have hparts := htiles
    rw [← hfst, List.map_append] at hparts
    obtain ⟨c, hfirst, hsecond⟩ := hparts.of_append
    have hindices := indices_eq hfirst
    rw [List.flatMap_map] at hindices
    refine ⟨c - r.addr.toNat, ?_, ?_⟩
    · have := hsecond.le
      omega
    · rw [buildPackets, List.flatMap_map]
      exact hindices

/-- What is left after the whole lines is a fragment of its own, if anything is. -/
theorem addTail_spec {r : SplitRequest} {next n : Nat}
    (hb : Boundaries r.addr.toNat r.size.toNat (2 ^ k) next n)
    (hfits : r.addr.toNat + r.size.toNat ≤ 2 ^ 64)
    (hmask : r.byteEnable = List.replicate r.size.toNat true) :
    ∃ tail, r.addTail u (BitVec.ofNat 64 (next + n * 2 ^ k))
        (BitVec.ofNat 32 (next + n * 2 ^ k - r.addr.toNat)) =
          some { r with reqs := r.reqs ++ tail } ∧
      ByteRange.Tiles (next + n * 2 ^ k) (r.addr.toNat + r.size.toNat)
        (tail.map SubRequest.range) ∧
      ∀ f ∈ tail, InOneLine (2 ^ k) f.range := by
  have hstart := hb.start_lt
  have hle := hb.final_le
  have hlt := hb.lt_final
  have hsize := r.size.isLt
  have hdvd : 2 ^ k ∣ next + n * 2 ^ k := ⟨_, hb.final_eq.symm.trans (Nat.mul_comm _ _)⟩
  have hge : r.addr.toNat ≤ next + n * 2 ^ k := by omega
  generalize next + n * 2 ^ k = final at *
  have hsoFar : (BitVec.ofNat 32 (final - r.addr.toNat)).toNat = final - r.addr.toNat := by
    rw [BitVec.toNat_ofNat, Nat.mod_eq_of_lt (by omega)]
  unfold addTail
  by_cases htail : final < r.addr.toNat + r.size.toNat
  · have hstartAddr : (BitVec.ofNat 64 final).toNat = final := by
      rw [BitVec.toNat_ofNat, Nat.mod_eq_of_lt (by omega)]
    have hleft : (r.size - BitVec.ofNat 32 (final - r.addr.toNat)).toNat =
        r.addr.toNat + r.size.toNat - final := by
      rw [BitVec.toNat_sub, hsoFar]
      omega
    refine ⟨[⟨BitVec.ofNat 64 final, r.size - BitVec.ofNat 32 (final - r.addr.toNat),
      List.replicate (r.size.toNat - (final - r.addr.toNat)) true⟩], ?_, ?_, ?_⟩
    · have hmore : BitVec.ofNat 32 (final - r.addr.toNat) < r.size := by
        rw [BitVec.lt_def, hsoFar]
        omega
      rw [if_pos hmore, hmask, List.length_replicate, hsoFar,
        slice_replicate (by omega) (Nat.le_refl _)]
      simp only [Option.bind_eq_bind, Option.bind_some]
      rw [addReq_replicate (by omega), Option.pure_def, hmask]
    · refine .cons_of hstartAddr hleft (by omega) ?_
      rw [Nat.add_sub_cancel' hle]
      exact .nil _
    · intro f hf
      rw [List.mem_singleton.mp hf]
      refine inOneLine_of_dvd ?_ ?_
      · show 2 ^ k ∣ (BitVec.ofNat 64 final).toNat
        rw [hstartAddr]
        exact hdvd
      · show (r.size - BitVec.ofNat 32 (final - r.addr.toNat)).toNat ≤ 2 ^ k
        rw [hleft]
        omega
  · have hdone : ¬ BitVec.ofNat 32 (final - r.addr.toNat) < r.size := by
      rw [BitVec.lt_def, hsoFar]
      omega
    refine ⟨[], ?_, ?_, fun f hf => by cases hf⟩
    · rw [if_neg hdone, List.append_nil]
    · rw [show r.addr.toNat + r.size.toNat = final by omega]
      exact .nil _

/-- **The fragments of a split request tile its range.** For every access that does not wrap and
crosses a line boundary, with all of its bytes enabled, the loop over the whole lines ends. -/
theorem initiateTranslation_tiles (u : CpuUtils) (addr : BitVec 64) (size : BitVec 32)
    (hk : k < 32) (hfits : addr.toNat + size.toNat ≤ 2 ^ 64)
    (hcross : addr.toNat / 2 ^ k < (addr.toNat + size.toNat - 1) / 2 ^ k) :
    ∃ r', (∀ fuel, size.toNat ≤ fuel → initiateTranslation u (BitVec.twoPow 32 k) fuel
        (create addr size (List.replicate size.toNat true)) = some r') ∧
      r'.addr = addr ∧ r'.size = size ∧ Tiled (2 ^ k) r' := by
  have hL : 0 < 2 ^ k := Nat.two_pow_pos k
  have hL' : 2 ^ k < 2 ^ 32 := Nat.pow_lt_pow_right (by decide) hk
  have hsize := size.isLt
  obtain ⟨next, n, hb⟩ := exists_boundaries hL hcross
  have hstart := hb.start_lt
  have hend := hb.next_lt
  have hfinal := hb.final_le
  have hnextle := hb.next_le
  have hdvd : 2 ^ k ∣ next := ⟨_, hb.next_eq.symm.trans (Nat.mul_comm _ _)⟩
  have hlines : n ≤ n * 2 ^ k := Nat.le_mul_of_pos_right n hL
  -- the head
  let head : SubRequest := ⟨addr, BitVec.ofNat 32 (next - addr.toNat),
    List.replicate (next - addr.toNat) true⟩
  have hheadSize : (BitVec.ofNat 32 (next - addr.toNat)).toNat = next - addr.toNat := by
    rw [BitVec.toNat_ofNat, Nat.mod_eq_of_lt (by omega)]
  have hhead : ByteRange.Tiles addr.toNat next [head.range] := by
    refine .cons_of rfl hheadSize (by omega) ?_
    rw [Nat.add_sub_cancel' (by omega)]
    exact .nil _
  have hheadLine : InOneLine (2 ^ k) head.range := by
    refine ⟨addr.toNat / 2 ^ k, Nat.div_mul_le_self _ _, ?_⟩
    show addr.toNat + (BitVec.ofNat 32 (next - addr.toNat)).toNat ≤ _
    rw [hheadSize, hb.next_eq]
    omega
  -- the whole lines
  let r₁ : SplitRequest := {
    create addr size (List.replicate size.toNat true) with
    mainReq := some ⟨addr, size, List.replicate size.toNat true⟩
    reqs := [head] }
  obtain ⟨blocks, hloop, hblocks, hblockLines⟩ := blockLoop_spec (u := u) hk hsize n next
    (next - addr.toNat) r₁ (by omega) hdvd (by omega) (by omega) rfl
  have hsoFar : next - addr.toNat + n * 2 ^ k = next + n * 2 ^ k - addr.toNat := by omega
  rw [hsoFar] at hloop
  obtain ⟨tail, htailAdd, htailTiles, htailLines⟩ := addTail_spec (u := u) (r := {
    r₁ with reqs := [head] ++ blocks }) hb hfits rfl
  -- the code, with what each part of it gives
  have hmask : slice (List.replicate size.toNat true) 0 (BitVec.ofNat 64 next - addr).toNat =
      some (List.replicate (next - addr.toNat) true) := by
    rw [toNat_headSize hb hfits, slice_replicate (Nat.zero_le _) (by omega), Nat.sub_zero]
  have hcut : (BitVec.ofNat 64 next - addr).setWidth 32 = BitVec.ofNat 32 (next - addr.toNat) := by
    refine BitVec.eq_of_toNat_eq ?_
    rw [BitVec.toNat_setWidth, toNat_headSize hb hfits, BitVec.toNat_ofNat]
  refine ⟨{ r₁ with
    reqs := [head] ++ blocks ++ tail
    translationStarted := true
    fault := ([head] ++ blocks ++ tail).map fun _ => false }, fun fuel hfuel => ?_, rfl, rfl,
    tiled_of_tiles ?_ ?_ rfl⟩
  · unfold initiateTranslation
    have hnext := nextAddr_eq (u := u) (r := create addr size (List.replicate size.toNat true))
      hb hk hfits
    have hlast := finalAddr_eq (u := u) (r := create addr size (List.replicate size.toNat true))
      hb hk hfits
    simp only [hnext, hlast]
    simp only [create, hmask, hcut, Option.bind_eq_bind, Option.bind_some]
    rw [addReq_replicate (by omega)]
    have hblocksEq := hloop fuel (by omega)
    simp only [r₁, create, head] at hblocksEq htailAdd ⊢
    rw [List.nil_append, hblocksEq]
    simp only [Option.bind_some]
    rw [htailAdd]
    rfl
  · show ByteRange.Tiles addr.toNat (addr.toNat + size.toNat)
      (([head] ++ blocks ++ tail).map SubRequest.range)
    rw [List.map_append, List.map_append]
    exact (hhead.append hblocks).append htailTiles
  · intro f hf
    rcases List.mem_append.mp hf with hf | hf
    · rcases List.mem_append.mp hf with hf | hf
      · rw [List.mem_singleton.mp hf]
        exact hheadLine
      · exact hblockLines f hf
    · exact htailLines f hf

/-- The address less what it has beyond a multiple of the block size. -/
def plainUtils : CpuUtils where
  addrBlockAlign addr blockSize := addr - addr % blockSize
  isAnyActiveElement mask := mask.any id
  align addr k hk := by
    have hmod := Nat.mod_le addr.toNat (2 ^ k)
    have hdiv := Nat.div_add_mod addr.toNat (2 ^ k)
    rw [Nat.mul_comm] at hdiv
    have hsub : (addr - addr % BitVec.twoPow 64 k).toNat =
        addr.toNat - addr.toNat % 2 ^ k := by
      rw [BitVec.toNat_sub_of_le, BitVec.toNat_umod, BitVec.toNat_twoPow_of_lt hk]
      rw [BitVec.le_def, BitVec.toNat_umod]
      exact Nat.mod_le _ _
    rw [hsub]
    omega
  anyActive _ := rfl

/-- 72 bytes from 60 on: the end of a line, a whole line, and 4 bytes of the next. -/
theorem initiateTranslation_tiles_threeLines : ∃ r',
    (∀ fuel, 72 ≤ fuel → initiateTranslation plainUtils 64 fuel
      (create 60 72 (List.replicate 72 true)) = some r') ∧
      r'.addr = 60 ∧ r'.size = 72 ∧ Tiled 64 r' :=
  initiateTranslation_tiles plainUtils 60 72 (k := 6) (by decide) (by decide) (by decide)

end Tiling

end SplitRequest
end Runahead
end Gem5
