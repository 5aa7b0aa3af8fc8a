/-!
# Packet

What the runahead cache uses of a memory packet: its command, the bytes it accesses, the buffer
it carries and one flag of the request its sender state points to. Packets are a part of the
simulator the CPU sits in, so their operations follow its documented behaviour:

* copying with `clear_flags = false, alloc_data = true` shares a static data buffer and
  otherwise allocates a new one, whose contents are unspecified;
* `writeDataToBlock` and `setDataFromBlock` copy between the packet's buffer and its offset in a
  cache block; a write under a byte enable leaves the disabled bytes of the block as they are.

Buffers are functions from an offset to a byte. Addresses are natural numbers.
-/

namespace Gem5
namespace Runahead

abbrev Byte := UInt8

/-- The attributes of a memory command. -/
structure MemCmd where
  isRead : Bool
  isWrite : Bool
  needsResponse : Bool
  isResponse : Bool := false
deriving DecidableEq

structure Packet where
  cmd : MemCmd
  addr : Nat
  size : Nat
  /-- The packet holds static data: copies share the buffer. -/
  staticData : Bool
  data : Nat → Byte
  /-- The byte enables of the request; all `true` when it has none. -/
  byteEnable : Nat → Bool := fun _ => true
  /-- `isPoisoned()` of the load/store request in the sender state. -/
  poisoned : Bool := false

namespace Packet

/-- `Packet::createRead` with `dataStatic(buf)`. -/
def createRead (addr size : Nat) (buf : Nat → Byte) : Packet where
  cmd := { isRead := true, isWrite := false, needsResponse := true }
  addr := addr
  size := size
  staticData := true
  data := buf

/-- `Packet::createWrite` with `dataStatic(buf)`. -/
def createWrite (addr size : Nat) (buf : Nat → Byte) : Packet where
  cmd := { isRead := false, isWrite := true, needsResponse := true }
  addr := addr
  size := size
  staticData := true
  data := buf

/-- `Packet(pkt, false, true)`; `fresh` is what a newly allocated buffer holds. -/
def copy (pkt : Packet) (fresh : Nat → Byte) : Packet :=
  { pkt with data := if pkt.staticData then pkt.data else fresh }

def getOffset (pkt : Packet) (blkSize : Nat) : Nat := pkt.addr &&& (blkSize - 1)

/-- The block after the packet's enabled bytes are written at its offset. -/
def writeDataToBlock (pkt : Packet) (blkData : Nat → Byte) (blkSize : Nat) : Nat → Byte :=
  fun k =>
    let off := pkt.getOffset blkSize
    if off ≤ k ∧ k < off + pkt.size ∧ pkt.byteEnable (k - off) then pkt.data (k - off)
    else blkData k

def setData (pkt : Packet) (bytes : Nat → Byte) : Packet :=
  { pkt with data := fun i => if i < pkt.size then bytes i else pkt.data i }

def setDataFromBlock (pkt : Packet) (blkData : Nat → Byte) (blkSize : Nat) : Packet :=
  pkt.setData fun i => blkData (pkt.getOffset blkSize + i)

def makeResponse (pkt : Packet) : Packet :=
  { pkt with cmd := { pkt.cmd with needsResponse := false, isResponse := true } }

/-- The packet's bytes all lie in one block of `blkSize` bytes. -/
def InBlock (pkt : Packet) (blkSize : Nat) : Prop := pkt.addr % blkSize + pkt.size ≤ blkSize

instance (pkt : Packet) (blkSize : Nat) : Decidable (pkt.InBlock blkSize) :=
  inferInstanceAs (Decidable (_ ≤ _))

theorem InBlock.add_lt {pkt : Packet} {blkSize i : Nat} (h : pkt.InBlock blkSize)
    (hi : i < pkt.size) : pkt.addr % blkSize + i < blkSize :=
  Nat.lt_of_lt_of_le (Nat.add_lt_add_left hi _) h

@[simp] theorem copy_addr (pkt : Packet) (fresh : Nat → Byte) :
    (pkt.copy fresh).addr = pkt.addr := rfl
@[simp] theorem copy_size (pkt : Packet) (fresh : Nat → Byte) :
    (pkt.copy fresh).size = pkt.size := rfl
@[simp] theorem copy_cmd (pkt : Packet) (fresh : Nat → Byte) :
    (pkt.copy fresh).cmd = pkt.cmd := rfl
@[simp] theorem copy_byteEnable (pkt : Packet) (fresh : Nat → Byte) :
    (pkt.copy fresh).byteEnable = pkt.byteEnable := rfl
@[simp] theorem copy_poisoned (pkt : Packet) (fresh : Nat → Byte) :
    (pkt.copy fresh).poisoned = pkt.poisoned := rfl
@[simp] theorem copy_getOffset (pkt : Packet) (fresh : Nat → Byte) (b : Nat) :
    (pkt.copy fresh).getOffset b = pkt.getOffset b := rfl
theorem copy_writeDataToBlock (pkt : Packet) (fresh blkData : Nat → Byte) (b k : Nat) :
    (pkt.copy fresh).writeDataToBlock blkData b k =
      if pkt.getOffset b ≤ k ∧ k < pkt.getOffset b + pkt.size ∧ pkt.byteEnable (k - pkt.getOffset b)
      then (pkt.copy fresh).data (k - pkt.getOffset b) else blkData k := rfl
@[simp] theorem makeResponse_data (pkt : Packet) : pkt.makeResponse.data = pkt.data := rfl

theorem setDataFromBlock_data_of_lt {pkt : Packet} {blkData : Nat → Byte} {b i : Nat}
    (hi : i < pkt.size) :
    (pkt.setDataFromBlock blkData b).data i = blkData (pkt.getOffset b + i) := by
  simp [setDataFromBlock, setData, hi]

end Packet

end Runahead
end Gem5
