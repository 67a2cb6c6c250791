import Onepass.Machine.Routine

/-! Executing one instruction. -/
namespace Onepass.Machine

namespace Exec

/-- The value of a register by its name in an instruction. -/
def readRegister (name : RegisterName) : Exec Word :=
  match name with
  | .full r => getRegister r
  | .al => return (← getRegister .eax) &&& 0xFF
  | .unknown name => throw (.unknownRegister name)

/-- Sets a register by its name in an instruction; the low byte keeps the rest of the word. -/
def writeRegister (name : RegisterName) (value : Word) : Exec Unit :=
  match name with
  | .full r => setRegister r value
  | .al => do
    let old ← getRegister .eax
    setRegister .eax ((old &&& ~~~0xFF) ||| (value &&& 0xFF))
  | .unknown name => throw (.unknownRegister name)

/-- The address a memory operand denotes. -/
def address (o : Operand) : Exec Word :=
  match o.mode with
  | .memory offset none => return offset.toUInt32
  | .memory offset (some base) => return (← readRegister base) + offset.toUInt32
  | _ => throw (.notMemory o)

/-- The word an operand denotes. -/
def read (o : Operand) : Exec Word :=
  match o.mode with
  | .immediate value => return value.toUInt32
  | .register name => readRegister name
  | _ => do
    let a ← address o
    look (·.readWord a)

def write (o : Operand) (value : Word) : Exec Unit :=
  match o.mode with
  | .register name => writeRegister name value
  | _ => do
    let a ← address o
    change (·.writeWord a value)

/-- The byte an operand denotes. -/
def readByte (o : Operand) : Exec UInt8 :=
  match o.mode with
  | .immediate _ | .register _ => return (← read o).toUInt8
  | _ => do
    let a ← address o
    look (Machine.readByte · a)

def writeByte (o : Operand) (value : UInt8) : Exec Unit :=
  match o.mode with
  | .register name => writeRegister name value.toUInt32
  | _ => do
    let a ← address o
    change (Machine.writeByte · a value)

/-- The operand of an instruction with an index. -/
def operand (i : Instr) (index : Nat) : Exec Operand :=
  match i.operands[index]? with
  | some o => return o
  | none => throw (.missingOperand index i.operands.length)

end Exec

open Exec

/-- The result of an operation with its flags. -/
def Arithmetic.apply (operation : Arithmetic) (left right : Word) : Word × Flags :=
  match operation with
  | .add => (left + right, .ofAdd left right)
  | .sub => (left - right, .ofSub left right)
  | .or => (left ||| right, .ofLogic (left ||| right))
  | .and => (left &&& right, .ofLogic (left &&& right))
  | .xor => (left ^^^ right, .ofLogic (left ^^^ right))

/-- Carry and overflow of a product: set when it does not fit a signed word. -/
def Flags.withProduct (f : Flags) (product : Int) : Flags :=
  let lost := (Word.ofInt product).toInt != product
  { f with carry := lost, overflow := lost }

/-- The signed number whose high and low words these are. -/
def wideInt (high low : Word) : Int := high.toInt * 0x100000000 + low.toNat

/-- `%edx:%eax` becomes the product of the accumulator and the operand. -/
def multiplyWide (factor : Word) : Exec Unit := do
  let m ← get
  let product := m.registers.eax.toInt * factor.toInt
  setRegister .eax (.ofInt product)
  setRegister .edx (.ofInt (product / 0x100000000))
  setFlags (m.flags.withProduct product)

/-- Divides `%edx:%eax`, rounding toward zero; the quotient must fit a signed word. -/
def divideWide (divisor : Word) : Exec Unit := do
  let m ← get
  if divisor = 0 then throw .divisionByZero
  let dividend := wideInt m.registers.edx m.registers.eax
  let quotient := dividend.tdiv divisor.toInt
  if (Word.ofInt quotient).toInt ≠ quotient then throw .quotientOverflow
  setRegister .eax (.ofInt quotient)
  setRegister .edx (.ofInt (dividend.tmod divisor.toInt))

/-- The word pushed as the return address of a program's entry; returning to it ends the
program. -/
def returnSentinel : Word := 0xFFFFFFFF

/-- Calls a destination: a routine of the library when it is not in the program. -/
def callTo (d : Destination) : Exec Unit := do
  if d.index < 0 then Routine.call d.symbol
  else
    push (.ofInt (← get).pc)
    setPc d.index

/-- What an instruction does. -/
def execute (i : Instr) : Exec Unit := do
  match i.mnemonic with
  | .nop => return
  | .movl =>
    let value ← read (← operand i 0)
    write (← operand i 1) value
  | .movb =>
    let value ← Exec.readByte (← operand i 0)
    Exec.writeByte (← operand i 1) value
  | .movzbl =>
    let value ← Exec.readByte (← operand i 0)
    write (← operand i 1) value.toUInt32
  | .leal =>
    let a ← address (← operand i 0)
    write (← operand i 1) a
  | .pushl =>
    let value ← read (← operand i 0)
    push value
  | .popl =>
    let value ← pop
    write (← operand i 0) value
  | .arithmetic operation =>
    let source ← operand i 0
    let target ← operand i 1
    let right ← read source
    let left ← read target
    let (result, flags) := operation.apply left right
    setFlags flags
    write target result
  | .cmpl =>
    let source ← operand i 0
    let target ← operand i 1
    let right ← read source
    let left ← read target
    setFlags (.ofSub left right)
  | .imull =>
    let right ← read (← operand i 0)
    if i.operands.length = 1 then multiplyWide right
    else
      let target ← operand i 1
      let left ← read target
      let product := left.toInt * right.toInt
      setFlags ((← get).flags.withProduct product)
      write target (.ofInt product)
  | .idivl =>
    let divisor ← read (← operand i 0)
    divideWide divisor
  | .cdq =>
    let value ← getRegister .eax
    setRegister .edx (if value.isNegative then 0xFFFFFFFF else 0)
  | .negl =>
    let target ← operand i 0
    let value ← read target
    setFlags (.ofSub 0 value)
    write target (-value)
  | .shll =>
    let count ← read (← operand i 0)
    let target ← operand i 1
    let value ← read target
    let result := value <<< (count &&& 31)
    setFlags ((← get).flags.withResult result)
    write target result
  | .set comparison =>
    let holds := (← get).flags.compares comparison
    Exec.writeByte (← operand i 0) (if holds then 1 else 0)
  | .jmp => setPc (← operand i 0).destination.index
  | .jump condition =>
    if (← get).flags.holds condition then setPc (← operand i 0).destination.index
  | .call => callTo (← operand i 0).destination
  | .ret =>
    let value ← pop
    if value = returnSentinel then halt (← getRegister .eax).toInt
    else setPc value.toNat
  | .leave =>
    setRegister .esp (← getRegister .ebp)
    let value ← pop
    setRegister .ebp value
  | .unknown name => throw (.unsupported name)

/-- The next instruction. -/
def fetch? (m : Machine) : Option Instr := if m.pc < 0 then none else m.text[m.pc.toNat]?

/-- Executes the next instruction; a halted machine does nothing. A program that aborts itself is
not at fault in the instruction. -/
def step (m : Machine) : Except Stop Unit × Machine :=
  if m.halted then (.ok (), m)
  else
    match m.fetch? with
    | none => (.error ⟨.leftProgram m.pc, none⟩, m)
    | some i =>
      match (execute i).run { m with pc := m.pc + 1, steps := m.steps + 1 } with
      | (.ok (), next) => (.ok (), next)
      | (.error .aborted, next) => (.error ⟨.aborted, none⟩, next)
      | (.error fault, next) => (.error ⟨fault, some i⟩, next)

end Onepass.Machine
