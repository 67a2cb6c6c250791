import Onepass.Assembly.Image
import Onepass.Machine.Fault
import Onepass.Machine.Flags
import Onepass.Machine.Memory
import Onepass.Sink

/-! The state of the machine. Instructions are executed from the decoded text of an image; data,
heap and stack share one memory. -/
namespace Onepass

namespace Machine

/-- The contents of the general registers. -/
structure Registers where
  eax : Word := 0
  ecx : Word := 0
  edx : Word := 0
  ebx : Word := 0
  esp : Word := 0
  ebp : Word := 0
  esi : Word := 0
  edi : Word := 0
deriving DecidableEq

namespace Registers

def get (r : Registers) : Register → Word
  | .eax => r.eax
  | .ecx => r.ecx
  | .edx => r.edx
  | .ebx => r.ebx
  | .esp => r.esp
  | .ebp => r.ebp
  | .esi => r.esi
  | .edi => r.edi

def set (r : Registers) (register : Register) (value : Word) : Registers :=
  match register with
  | .eax => { r with eax := value }
  | .ecx => { r with ecx := value }
  | .edx => { r with edx := value }
  | .ebx => { r with ebx := value }
  | .esp => { r with esp := value }
  | .ebp => { r with ebp := value }
  | .esi => { r with esi := value }
  | .edi => { r with edi := value }

theorem get_set (r : Registers) (a b : Register) (value : Word) :
    (r.set a value).get b = if a = b then value else r.get b := by
  cases a <;> cases b <;> rfl

end Registers

end Machine

open Machine in
structure Machine where
  registers : Registers := { esp := memorySize.toUInt32 }
  /-- The index of the next instruction. -/
  pc : Int := 0
  flags : Flags := {}
  memory : Memory := {}
  text : Array Instr := #[]
  labels : List (Bytes × Nat) := []
  /-- The address of the next block the allocator gives out. -/
  heap : Word := 0
  halted : Bool := false
  status : Int := 0
  /-- Instructions executed so far. -/
  steps : Nat := 0
  /-- The bound on the instructions of a run; zero stands for the default bound. -/
  maxSteps : Int := 0
  sink : Sink := {}

namespace Machine

/-- The bound on the instructions of a run that sets no other. -/
def defaultMaxSteps : Nat := 10000000

/-- Whether bytes at an address belong to the memory in use: nothing lies below the data. -/
def accessible (address : Word) (size : Nat) : Bool :=
  Assembly.dataBase ≤ address && address.toNat + size ≤ memorySize

/-- Fails unless the bytes are accessible. -/
def checkAccess (address : Word) (size : Nat) : Except Fault Unit :=
  if accessible address size then .ok () else .error (.badAccess size address)

def readByte (m : Machine) (address : Word) : Except Fault UInt8 := do
  checkAccess address 1
  return m.memory.read address

def readWord (m : Machine) (address : Word) : Except Fault Word := do
  checkAccess address 4
  return m.memory.readWord address

def writeByte (m : Machine) (address : Word) (value : UInt8) : Except Fault Machine := do
  checkAccess address 1
  return { m with memory := m.memory.write address value }

def writeWord (m : Machine) (address value : Word) : Except Fault Machine := do
  checkAccess address 4
  return { m with memory := m.memory.writeWord address value }

/-- The bytes from an address to the next zero byte, at most `fuel` of them. -/
def readTextWithin (m : Machine) : (fuel : Nat) → Word → Except Fault Bytes
  | 0, address => .error (.badAccess 1 address)
  | fuel + 1, address => do
    let b ← m.readByte address
    if b = 0 then return []
    else
      let rest ← m.readTextWithin fuel (address + 1)
      return b :: rest

/-- The bytes from an address to the next zero byte. The memory ends at some point, so reading
does. -/
def readText (m : Machine) (address : Word) : Except Fault Bytes :=
  m.readTextWithin (memorySize + 1 - address.toNat) address

/-- Copies the data of an image into memory and makes its text the program. The heap starts after
the data. -/
def load (m : Machine) (image : Assembly.Image) : Except Fault Machine :=
  let dataEnd := Assembly.dataBase + image.data.size.toUInt32
  if heapLimit < dataEnd.toNat then .error (.dataTooLarge image.data.size)
  else
    .ok { m with
      memory := m.memory.writeBytes Assembly.dataBase image.data.toList
      text := image.text
      labels := image.labels
      heap := (dataEnd + 15) &&& ~~~15 }

/-- The instruction index of a label, with or without the underscore that platforms put before
symbols. -/
def label? (m : Machine) (name : Bytes) : Option Nat :=
  m.labels.lookup name <|> m.labels.lookup ("_" ++ name) <|>
    m.labels.lookup (Bytes.dropStart "_" name)

/-- A run of machine actions. What was done before a fault stays done. -/
abbrev Exec (α : Type) := ExceptT Fault (StateM Machine) α

namespace Exec

/-- Looks something up in the state. -/
def look {α : Type} (f : Machine → Except Fault α) : Exec α := do
  match f (← get) with
  | .ok a => return a
  | .error fault => throw fault

/-- Changes the state, or fails and leaves it alone. -/
def change (f : Machine → Except Fault Machine) : Exec Unit := do
  match f (← get) with
  | .ok m => set m
  | .error fault => throw fault

def getRegister (r : Register) : Exec Word := return (← get).registers.get r

def setRegister (r : Register) (value : Word) : Exec Unit :=
  modify fun m => { m with registers := m.registers.set r value }

def setFlags (flags : Flags) : Exec Unit := modify fun m => { m with flags }

def setPc (pc : Int) : Exec Unit := modify fun m => { m with pc }

/-- Pushes a word; the stack pointer has moved even if the write fails. -/
def push (value : Word) : Exec Unit := do
  let top ← getRegister .esp
  setRegister .esp (top - 4)
  change (·.writeWord (top - 4) value)

/-- Pops a word; the stack pointer moves only after the read. -/
def pop : Exec Word := do
  let top ← getRegister .esp
  let value ← look (·.readWord top)
  setRegister .esp (top + 4)
  return value

/-- Ends the program with a status. -/
def halt (status : Int) : Exec Unit :=
  modify fun m => { m with halted := true, status }

end Exec

end Machine

end Onepass
