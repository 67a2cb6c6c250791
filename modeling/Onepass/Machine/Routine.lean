import Onepass.Machine.State

/-! The library routines that programs can call. Arguments are words on the stack from the stack
pointer on; results go to the accumulator. -/
namespace Onepass.Machine

inductive Routine
  | printf
  | puts
  | malloc
  | exit
  | abort
deriving DecidableEq

namespace Routine

def all : List Routine := [.printf, .puts, .malloc, .exit, .abort]

def name : Routine → Bytes
  | .printf => "printf"
  | .puts => "puts"
  | .malloc => "malloc"
  | .exit => "exit"
  | .abort => "abort"

/-- The routine of a symbol, with or without the underscore that platforms put before symbols. -/
def ofSymbol? (symbol : Bytes) : Option Routine :=
  all.find? (·.name = Bytes.dropStart "_" symbol)

/-- The status of a program that was aborted. -/
def abortStatus : Int := 134

/-- The argument with an index. -/
def argument (m : Machine) (index : Nat) : Except Fault Word :=
  m.readWord (m.registers.esp + (4 * index).toUInt32)

/-- The text of a word by the letter of a conversion. -/
def convert (m : Machine) (letter : UInt8) (value : Word) : Except Fault Bytes :=
  if letter = Bytes.code 'd' then .ok (Numeral.decimal value.toInt)
  else if letter = Bytes.code 'c' then .ok [value.toUInt8]
  else if letter = Bytes.code 's' then m.readText value
  else .error (.badConversion letter)

/-- A format with its conversions replaced from left to right; the next one takes the argument
`next`. A percent sign at the end stands for itself. -/
def expand (m : Machine) : (next : Nat) → (format : Bytes) → Except Fault Bytes
  | _, [] => .ok []
  | next, b :: rest =>
    if b = Bytes.code '%' then
      match rest with
      | [] => .ok [b]
      | letter :: rest =>
        if letter = Bytes.code '%' then do
          let text ← expand m next rest
          return letter :: text
        else do
          let value ← argument m next
          let shown ← convert m letter value
          let text ← expand m (next + 1) rest
          return shown ++ text
    else do
      let text ← expand m next rest
      return b :: text

/-- Writes a text; gives the number of bytes the sink took and whether that was all. -/
def output (text : Bytes) : Exec (Nat × Bool) := do
  let m ← get
  set { m with sink := m.sink.write text }
  return ((m.sink.accepted text).length, m.sink.fits text)

/-- The end of every block of memory is rounded up to a multiple of eight. -/
def roundUp (address : Word) : Word := (address + 7) &&& ~~~7

/-- What a routine does. -/
def run : Routine → Exec Unit
  | .printf => do
    let format ← Exec.look fun m => do m.readText (← argument m 0)
    let text ← Exec.look fun m => expand m 1 format
    let (count, complete) ← output text
    Exec.setRegister .eax count.toUInt32
    unless complete do throw .sinkFull
  | .puts => do
    let text ← Exec.look fun m => do m.readText (← argument m 0)
    let (_, complete) ← output (text ++ [10])
    Exec.setRegister .eax 0
    unless complete do throw .sinkFull
  | .malloc => do
    let size ← Exec.look fun m => argument m 0
    let m ← get
    if heapLimit < m.heap.toNat + size.toNat then Exec.setRegister .eax 0
    else
      set { m with heap := roundUp (m.heap + size) }
      Exec.setRegister .eax m.heap
  | .exit => do
    let status ← Exec.look fun m => argument m 0
    Exec.halt status.toInt
  | .abort => do
    Exec.halt abortStatus
    throw .aborted

/-- Calls the routine of a symbol. -/
def call (symbol : Bytes) : Exec Unit :=
  match ofSymbol? symbol with
  | some routine => routine.run
  | none => throw (.undefinedRoutine symbol)

end Routine

end Onepass.Machine
