import Mathlib.Data.Nat.Log
import Gem5Runahead.Lib.Transition
import Gem5Runahead.Packet

/-!
# RunaheadCache

The runahead cache: a direct-mapped array of blocks that holds the data of runahead stores while
the CPU runs ahead. A write overwrites the block its address maps to, whatever the block held,
and makes it valid as a whole; a read hits when the tag matches and the block is valid.

The array access `cacheEntries[idx]` is unchecked in the source. `none` stands for an access
outside the array, which the constructor's warning about a block count that is no power of two
leaves possible, and for the panic on a packet that neither reads nor writes.

* `Op` / `system` — the calls the CPU makes, packets inside one block each, as a transition
  system.
* `handlePacket_write` / `handlePacket_read` — what a handled packet does to the cache.
-/

namespace Gem5
namespace Runahead

structure CacheBlock where
  data : Nat → Byte
  tag : Nat
  valid : Bool
  poisoned : Bool

structure RunaheadCache where
  /-- Size in bytes of the entire cache. -/
  size : Nat
  /-- Size in bytes of each cache block. -/
  blockSize : Nat
  cacheEntries : List CacheBlock

namespace RunaheadCache

def ceilLog2 (n : Nat) : Nat := Nat.clog 2 n

def numBlocks (c : RunaheadCache) : Nat := c.size / c.blockSize
def indexShift (c : RunaheadCache) : Nat := ceilLog2 c.blockSize
def indexMask (c : RunaheadCache) : Nat := (1 <<< ceilLog2 c.numBlocks) - 1
def tagShift (c : RunaheadCache) : Nat := c.indexShift + ceilLog2 c.numBlocks

/-- The constructor. The blocks' buffers are not initialised: `raw` is what they hold. -/
def create (size blockSize : Nat) (raw : Nat → Nat → Byte) : RunaheadCache where
  size := size
  blockSize := blockSize
  cacheEntries := (List.range (size / blockSize)).map fun idx => ⟨raw idx, 0, false, false⟩

def getIndex (c : RunaheadCache) (addr : Nat) : Nat := (addr >>> c.indexShift) &&& c.indexMask
def getTag (c : RunaheadCache) (addr : Nat) : Nat := addr >>> c.tagShift

def lookup (c : RunaheadCache) (addr : Nat) : Option Bool := do
  let block ← c.cacheEntries[c.getIndex addr]?
  return block.tag == c.getTag addr && block.valid

def setBlock (c : RunaheadCache) (idx : Nat) (block : CacheBlock) : RunaheadCache :=
  { c with cacheEntries := c.cacheEntries.set idx block }

def write (c : RunaheadCache) (pkt : Packet) : Option (RunaheadCache × Packet) := do
  let block ← c.cacheEntries[c.getIndex pkt.addr]?
  let block : CacheBlock :=
    { data := pkt.writeDataToBlock block.data c.blockSize
      tag := c.getTag pkt.addr
      valid := true
      poisoned := pkt.poisoned }
  -- the written bytes are read back into the packet
  return (c.setBlock (c.getIndex pkt.addr) block, pkt.setDataFromBlock block.data c.blockSize)

/-- The inner `none` is a miss. -/
def read (c : RunaheadCache) (pkt : Packet) : Option (Option Packet) := do
  if !(← c.lookup pkt.addr) then
    return none
  let block ← c.cacheEntries[c.getIndex pkt.addr]?
  let pkt := pkt.setDataFromBlock block.data c.blockSize
  return some { pkt with poisoned := pkt.poisoned || block.poisoned }

def invalidateCache (c : RunaheadCache) : RunaheadCache :=
  { c with
    cacheEntries := c.cacheEntries.map fun block =>
      { block with valid := false, poisoned := false } }

def respond (respPkt : Packet) : Packet :=
  if respPkt.cmd.needsResponse then respPkt.makeResponse else respPkt

/-- The response is `none` when a read misses. -/
def handlePacket (c : RunaheadCache) (pkt : Packet) (fresh : Nat → Byte) :
    Option (RunaheadCache × Option Packet) :=
  let respPkt := pkt.copy fresh
  if respPkt.cmd.isWrite then do
    let (c, respPkt) ← c.write respPkt
    return (c, some (respond respPkt))
  else if respPkt.cmd.isRead then do
    return (c, (← c.read respPkt).map respond)
  else none

inductive Op where
  | handlePacket (pkt : Packet) (fresh : Nat → Byte)
  | invalidateCache

def step (c : RunaheadCache) : Op → Option RunaheadCache
  | .handlePacket pkt fresh => (c.handlePacket pkt fresh).map Prod.fst
  | .invalidateCache => some c.invalidateCache

/-- The packets each lie inside one block. -/
def Op.InBlock (blockSize : Nat) : Op → Prop
  | .handlePacket pkt _ => pkt.InBlock blockSize
  | .invalidateCache => True

instance (blockSize : Nat) (op : Op) : Decidable (op.InBlock blockSize) :=
  match op with
  | .handlePacket pkt _ => inferInstanceAs (Decidable (pkt.InBlock blockSize))
  | .invalidateCache => isTrue trivial

/-- The cache under any sequence of calls whose packets lie inside one block each. -/
def system (size blockSize : Nat) : Transition.System RunaheadCache Op where
  init c := ∃ raw, c = create size blockSize raw
  step c op c' := op.InBlock blockSize ∧ c.step op = some c'

section Calls

variable {c c' : RunaheadCache} {pkt : Packet} {fresh : Nat → Byte} {resp : Option Packet}

@[simp] theorem respond_data (pkt : Packet) : (respond pkt).data = pkt.data := by
  unfold respond; split <;> rfl

@[simp] theorem respond_poisoned (pkt : Packet) : (respond pkt).poisoned = pkt.poisoned := by
  unfold respond; split <;> rfl

/-- A packet that writes replaces the one block its address maps to. -/
theorem handlePacket_write (hw : pkt.cmd.isWrite = true)
    (h : c.handlePacket pkt fresh = some (c', resp)) :
    ∃ block, c.cacheEntries[c.getIndex pkt.addr]? = some block ∧
      c' = c.setBlock (c.getIndex pkt.addr)
        { data := (pkt.copy fresh).writeDataToBlock block.data c.blockSize
          tag := c.getTag pkt.addr, valid := true, poisoned := pkt.poisoned } := by
  simp only [handlePacket, Packet.copy_cmd, hw, if_true, write, Packet.copy_addr,
    Packet.copy_poisoned] at h
  cases hb : c.cacheEntries[c.getIndex pkt.addr]? with
  | none => simp [hb] at h
  | some block =>
    simp only [hb, Option.bind_eq_bind, Option.bind_some, Option.pure_def, Option.some.injEq,
      Prod.mk.injEq] at h
    exact ⟨block, rfl, h.1.symm⟩

/-- A packet that only reads leaves the cache as it is. -/
theorem handlePacket_read (hw : pkt.cmd.isWrite = false)
    (h : c.handlePacket pkt fresh = some (c', resp)) :
    c' = c ∧ (c.read (pkt.copy fresh)).map (Option.map respond) = some resp := by
  simp only [handlePacket, Packet.copy_cmd, hw, Bool.false_eq_true, if_false] at h
  cases hrd : pkt.cmd.isRead with
  | false => simp [hrd] at h
  | true =>
    cases hr : c.read (pkt.copy fresh) with
    | none => simp [hrd, hr] at h
    | some r =>
      simp only [hrd, if_true, hr, Option.bind_eq_bind, Option.bind_some, Option.pure_def,
        Option.some.injEq, Prod.mk.injEq] at h
      exact ⟨h.1.symm, by simp [h.2]⟩

/-- A hit returns the bytes of the block, and its poison. -/
theorem read_hit {r : Packet} (h : c.read pkt = some (some r)) :
    ∃ block, c.cacheEntries[c.getIndex pkt.addr]? = some block ∧ block.valid = true ∧
      block.tag = c.getTag pkt.addr ∧
      (∀ i, i < pkt.size → r.data i = block.data (pkt.getOffset c.blockSize + i)) ∧
      r.poisoned = (pkt.poisoned || block.poisoned) := by
  simp only [read, lookup] at h
  cases hb : c.cacheEntries[c.getIndex pkt.addr]? with
  | none => simp [hb] at h
  | some block =>
    simp only [hb, Option.bind_eq_bind, Option.bind_some, Option.pure_def] at h
    split at h
    · cases h
    · rename_i hhit
      simp only [Bool.not_eq_true, Bool.not_eq_false', Bool.and_eq_true, beq_iff_eq] at hhit
      cases h
      exact ⟨block, rfl, hhit.2, hhit.1, fun i hi => Packet.setDataFromBlock_data_of_lt hi, rfl⟩

theorem step_blockSize {op : Op} (h : c.step op = some c') :
    c'.size = c.size ∧ c'.blockSize = c.blockSize := by
  cases op with
  | invalidateCache => cases h; exact ⟨rfl, rfl⟩
  | handlePacket pkt fresh =>
    simp only [step, Option.map_eq_some_iff] at h
    obtain ⟨⟨c₁, resp⟩, h, rfl⟩ := h
    cases hw : pkt.cmd.isWrite with
    | true => obtain ⟨_, _, rfl⟩ := handlePacket_write hw h; exact ⟨rfl, rfl⟩
    | false => obtain ⟨rfl, _⟩ := handlePacket_read hw h; exact ⟨rfl, rfl⟩

end Calls

end RunaheadCache
end Runahead
end Gem5
