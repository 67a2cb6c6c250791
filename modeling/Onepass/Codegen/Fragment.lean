import Onepass.Machine.Instr
import Onepass.Operator
import Onepass.Platform
import Onepass.Ty

/-! Fragments of generated code. Scalars are computed in the accumulator `%eax`; strings and arrays
are held by a pointer in `%esi` to a header word with the element count. The left operand of an
operator waits on the stack while the right one is computed. -/
namespace Onepass.Codegen

open Assembly (Code Line Operand)

/-- The routine that a failed bounds check jumps to. -/
def boundsLabel : Bytes := "__bounds_error"

def formatInt : Bytes := "FormatInt"

def formatChar : Bytes := "FormatChar"

def formatString : Bytes := "FormatString"

def eax : Operand := .register "eax"

def al : Operand := .register "al"

def ecx : Operand := .register "ecx"

def esi : Operand := .register "esi"

def edi : Operand := .register "edi"

def esp : Operand := .register "esp"

def ebp : Operand := .register "ebp"

/-- Numbers in generated code are signed and have 64 bits; a larger one wraps. -/
def wrap (n : Int) : Int := n.bmod 0x10000000000000000

/-- `$n` -/
def constant (n : Int) : Operand := .immediate (.number (wrap n))

/-- `$name` -/
def address (name : Bytes) : Operand := .immediate (.symbol name)

/-- `(%esp)` -/
def stackTop : Operand := .based none "esp"

/-- `offset(%base)` -/
def based (offset : Int) (base : Bytes) : Operand := .based (some (.number (wrap offset))) base

/-- A jump or call destination. -/
def destination (label : Bytes) : Operand := .absolute (.symbol label)

/-- Where a frame slot lies, counted from the frame base. -/
def frameOffset (slot : Int) : Int := wrap (-(slot + 1) * wordSize)

def slotOperand (slot : Int) : Operand := based (frameOffset slot) "ebp"

def label (name : Bytes) : Code := [.label name]

def jump (label : Bytes) : Code := [.instruction "jmp" [destination label]]

/-- Branches when the accumulator is zero. -/
def jumpIfFalse (label : Bytes) : Code :=
  [.instruction "orl" [eax, eax], .instruction "je" [destination label]]

def loadInt (value : Int32) : Code := [.instruction "movl" [constant value.toInt, eax]]

def loadScalar (slot : Int) : Code := [.instruction "movl" [slotOperand slot, eax]]

def storeScalar (slot : Int) : Code := [.instruction "movl" [eax, slotOperand slot]]

def pushScalar : Code := [.instruction "pushl" [eax]]

def negate : Code := [.instruction "negl" [eax]]

/-- Drops words from the stack. -/
def dropWords (count : Nat) : Line :=
  .instruction "addl" [constant (count * wordSize : Nat), esp]

def popAdd : Code := [.instruction "addl" [eax, stackTop], .instruction "popl" [eax]]

def popSub : Code := [.instruction "subl" [eax, stackTop], .instruction "popl" [eax]]

def popMul : Code := [.instruction "imull" [stackTop], dropWords 1]

def popDiv : Code :=
  [.instruction "movl" [eax, ecx], .instruction "popl" [eax], .instruction "cdq" [],
    .instruction "idivl" [ecx]]

/-- Leaves one or zero in the accumulator; `suffix` names the condition. -/
def popCompare (suffix : Bytes) : Code :=
  [.instruction "cmpl" [eax, stackTop], .instruction ("set" ++ suffix) [al],
    .instruction "movzbl" [al, eax], dropWords 1]

def loadPointer (slot : Int) : Code := [.instruction "movl" [slotOperand slot, esi]]

def storePointer (slot : Int) : Code := [.instruction "movl" [esi, slotOperand slot]]

def pushPointer : Code := [.instruction "pushl" [esi]]

def popPointer : Code := [.instruction "popl" [esi]]

/-- Points at a label of the data. -/
def loadAddress (label : Bytes) : Code := [.instruction "movl" [address label, esi]]

/-- Copies the pushed pointer into a register. -/
def peekBase (register : Bytes) : Code := [.instruction "movl" [stackTop, .register register]]

/-- Pops the pushed pointer into a register. -/
def popBase (register : Bytes) : Code := [.instruction "popl" [.register register]]

def loadElementInt (offset : Int) : Code := [.instruction "movl" [based offset "esi", eax]]

def loadElementChar (offset : Int) : Code := [.instruction "movzbl" [based offset "esi", eax]]

def loadElementPointer (offset : Int) : Code := [.instruction "movl" [based offset "esi", esi]]

def storeElementInt (base : Bytes) (offset : Int) : Code :=
  [.instruction "movl" [eax, based offset base]]

def storeElementChar (base : Bytes) (offset : Int) : Code :=
  [.instruction "movb" [al, based offset base]]

def storeElementPointer (base : Bytes) (offset : Int) : Code :=
  [.instruction "movl" [esi, based offset base]]

/-- The bytes that bring `words` of arguments to a multiple of 16. -/
def argumentPadding (words : Nat) : Nat := (16 - words * wordSize % 16) % 16

/-- Where calls are aligned: saves the stack pointer in `%edi`, which routines preserve, and rounds
it so that it is a multiple of 16 once the arguments are pushed. -/
def alignCall (platform : Platform) (words : Nat) : Code :=
  if platform.alignsCalls then
    [.instruction "movl" [esp, edi], .instruction "andl" [constant (-16), esp]] ++
      if argumentPadding words = 0 then []
      else [.instruction "subl" [constant (argumentPadding words : Nat), esp]]
  else []

/-- Calls a library routine and drops its arguments. -/
def callRoutine (platform : Platform) (name : Bytes) (words : Nat) : Code :=
  [.instruction "call" [destination (platform.symbol name)],
    if platform.alignsCalls then .instruction "movl" [edi, esp] else dropWords words]

/-- Allocates bytes and points at them. -/
def allocate (platform : Platform) (bytes : Int) : Code :=
  alignCall platform 1 ++ [.instruction "pushl" [constant bytes]] ++
    callRoutine platform "malloc" 1 ++ [.instruction "movl" [eax, esi]]

/-- Writes the element count into the header. -/
def setLength (count : Int) : Code := [.instruction "movl" [constant count, .based none "esi"]]

/-- Fails at run time unless the accumulator is a valid index; one unsigned comparison also catches
negative indices. -/
def boundsCheck : Code :=
  [.instruction "cmpl" [.based none "esi", eax], .instruction "jae" [destination boundsLabel]]

/-- The exponent of a power of two. -/
def exponent? (n : Int) : Option Nat :=
  if 0 < n ∧ 1 <<< n.toNat.log2 = n.toNat then some n.toNat.log2 else none

/-- Multiplies the accumulator by an element size. -/
def scaleIndex (size : Int) : Code :=
  if size = 1 then []
  else
    match exponent? size with
    | some shift => [.instruction "shll" [constant shift, eax]]
    | none => [.instruction "imull" [constant size, eax]]

def addIndex : Code := [.instruction "addl" [eax, esi]]

/-- Prints the accumulator by a format. -/
def printFormat (platform : Platform) (format : Bytes) : Code :=
  alignCall platform 2 ++
    [.instruction "pushl" [eax], .instruction "pushl" [address format]] ++
    callRoutine platform "printf" 2

def printInt (platform : Platform) : Code := printFormat platform formatInt

def printChar (platform : Platform) : Code := printFormat platform formatChar

/-- Prints the bytes after the header. -/
def printString (platform : Platform) : Code :=
  .instruction "leal" [based wordSize "esi", eax] :: printFormat platform formatString

/-- Brings the value of a slot into its register. -/
def load (t : Ty) (slot : Int) : Code := if t.isHeap then loadPointer slot else loadScalar slot

/-- Writes a value to its slot. -/
def store (t : Ty) (slot : Int) : Code := if t.isHeap then storePointer slot else storeScalar slot

/-- Saves a value on the stack. -/
def push (t : Ty) : Code := if t.isHeap then pushPointer else pushScalar

/-- Loads the element `offset` bytes past the pointer. -/
def loadAt (t : Ty) (offset : Int) : Code :=
  match t.shape with
  | .string | .array _ => loadElementPointer offset
  | .char => loadElementChar offset
  | _ => loadElementInt offset

/-- Stores a value `offset` bytes past a base register. -/
def storeAt (t : Ty) (base : Bytes) (offset : Int) : Code :=
  match t.shape with
  | .string | .array _ => storeElementPointer base offset
  | .char => storeElementChar base offset
  | _ => storeElementInt base offset

/-- The code of an operator on numbers, where the accumulator holds the right operand. -/
def operator : Operator → Code
  | .add => popAdd
  | .sub => popSub
  | .mul => popMul
  | .div => popDiv
  | .compare comparison => popCompare comparison.suffix

/-- The code of an operation that a type supports: numbers have all, characters compare. -/
def operation? (t : Ty) (operation : Operation) : Option Code :=
  match t.shape, operation with
  | .int, .binary o => some (operator o)
  | .int, .negate => some negate
  | .char, .binary (.compare comparison) => some (operator (.compare comparison))
  | _, _ => none

/-- The code that prints a value of a type that can be printed. -/
def print? (platform : Platform) (t : Ty) : Option Code :=
  match t.shape with
  | .int => some (printInt platform)
  | .char => some (printChar platform)
  | .string => some (printString platform)
  | _ => none

end Onepass.Codegen
