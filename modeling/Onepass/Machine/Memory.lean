import Std.Data.TreeMap
import Onepass.Machine.Word

/-! The memory of the machine: one flat range of bytes that are zero until they are written. -/
namespace Onepass.Machine

/-- Bytes of memory. -/
def memorySize : Nat := 0x100000

/-- Bytes below the top of memory that the heap leaves to the stack. -/
def stackSize : Nat := 0x10000

/-- Where the heap has to end. -/
def heapLimit : Nat := memorySize - stackSize

structure Memory where
  /-- The bytes that were written. -/
  cells : Std.TreeMap Word UInt8 := ∅

namespace Memory

def read (m : Memory) (address : Word) : UInt8 := m.cells.getD address 0

def write (m : Memory) (address : Word) (value : UInt8) : Memory := ⟨m.cells.insert address value⟩

/-- The word whose first byte is at an address. -/
def readWord (m : Memory) (address : Word) : Word :=
  .ofBytes (m.read address) (m.read (address + 1)) (m.read (address + 2)) (m.read (address + 3))

/-- Writes bytes from an address on. -/
def writeBytes (m : Memory) (address : Word) : List UInt8 → Memory
  | [] => m
  | b :: rest => (m.write address b).writeBytes (address + 1) rest

/-- Writes the four bytes of a word. -/
def writeWord (m : Memory) (address value : Word) : Memory := m.writeBytes address value.bytes

theorem read_write (m : Memory) (address other : Word) (value : UInt8) :
    (m.write address value).read other = if address = other then value else m.read other := by
  simp [read, write, Std.TreeMap.getD_insert]

end Memory

end Onepass.Machine
