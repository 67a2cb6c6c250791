import Onepass.Machine.Word
import Onepass.Text.Blank
import Onepass.Text.Numeral

/-! Decoded instructions: what the assembler produces and the machine executes. -/
namespace Onepass.Machine

/-- The general registers. -/
inductive Register
  | eax
  | ecx
  | edx
  | ebx
  | esp
  | ebp
  | esi
  | edi
deriving DecidableEq

namespace Register

def all : List Register := [.eax, .ecx, .edx, .ebx, .esp, .ebp, .esi, .edi]

def name : Register → Bytes
  | .eax => "eax"
  | .ecx => "ecx"
  | .edx => "edx"
  | .ebx => "ebx"
  | .esp => "esp"
  | .ebp => "ebp"
  | .esi => "esi"
  | .edi => "edi"

end Register

/-- A register as instructions name it. The assembler takes any name; an unknown one fails when it
is used. -/
inductive RegisterName
  | full (register : Register)
  /-- The low byte of the accumulator. -/
  | al
  | unknown (name : Bytes)
deriving DecidableEq

namespace RegisterName

def name : RegisterName → Bytes
  | .full register => register.name
  | .al => "al"
  | .unknown name => name

def ofName (name : Bytes) : RegisterName :=
  if name = "al" then .al
  else
    match Register.all.find? (·.name = name) with
    | some register => .full register
    | none => .unknown name

end RegisterName

/-- Where a branch goes: to an instruction index, or, when that is negative, to the routine outside
the program that the symbol names. -/
structure Destination where
  symbol : Bytes := []
  index : Int := 0
deriving DecidableEq

/-- How an operand is addressed. -/
inductive Operand.Mode
  | immediate (value : Int32)
  | register (name : RegisterName)
  /-- The word or byte at `offset`, counted from the base register if there is one. -/
  | memory (offset : Int32) (base : Option RegisterName)
  /-- A destination only. -/
  | target
deriving DecidableEq

/-- An operand with its symbols resolved. A branch goes by the destination whatever the mode; every
other instruction goes by the mode. -/
structure Operand where
  mode : Operand.Mode
  destination : Destination := {}
deriving DecidableEq

namespace Operand

def immediate (value : Int32) : Operand := { mode := .immediate value }

def register (name : RegisterName) : Operand := { mode := .register name }

def memory (offset : Int32) (base : Option RegisterName) : Operand :=
  { mode := .memory offset base }

def target (symbol : Bytes) (index : Int) : Operand :=
  { mode := .target, destination := ⟨symbol, index⟩ }

def print (o : Operand) : Bytes :=
  match o.mode with
  | .immediate value => "$" ++ Numeral.decimal value.toInt
  | .register name => "%" ++ name.name
  | .memory offset none => Numeral.decimal offset.toInt
  | .memory offset (some base) => Numeral.decimal offset.toInt ++ "(%" ++ base.name ++ ")"
  | .target => o.destination.symbol

end Operand

/-- The outcomes of a signed comparison that an instruction can ask for. -/
inductive Comparison
  | less
  | greater
  | lessEqual
  | greaterEqual
  | equal
  | notEqual
deriving DecidableEq

/-- The conditions of branches. -/
inductive Condition
  | signed (comparison : Comparison)
  | below
  | aboveEqual
deriving DecidableEq

namespace Comparison

def all : List Comparison := [.less, .greater, .lessEqual, .greaterEqual, .equal, .notEqual]

/-- The suffix of instructions that ask for it. -/
def suffix : Comparison → Bytes
  | .less => "l"
  | .greater => "g"
  | .lessEqual => "le"
  | .greaterEqual => "ge"
  | .equal => "e"
  | .notEqual => "ne"

end Comparison

namespace Condition

def all : List Condition := Comparison.all.map .signed ++ [.below, .aboveEqual]

def suffix : Condition → Bytes
  | .signed comparison => comparison.suffix
  | .below => "b"
  | .aboveEqual => "ae"

end Condition

/-- Two-operand operations on words that set the flags. -/
inductive Arithmetic
  | add
  | sub
  | or
  | and
  | xor
deriving DecidableEq

/-- What an instruction does. -/
inductive Mnemonic
  | movl
  | movb
  | movzbl
  | leal
  | pushl
  | popl
  | arithmetic (operation : Arithmetic)
  | cmpl
  | imull
  | idivl
  | cdq
  | negl
  | shll
  | set (comparison : Comparison)
  | jmp
  | jump (condition : Condition)
  | call
  | ret
  | leave
  | nop
  /-- An instruction that the machine does not have. -/
  | unknown (name : Bytes)
deriving DecidableEq

namespace Mnemonic

/-- The instructions of the machine. -/
def all : List Mnemonic :=
  [.movl, .movb, .movzbl, .leal, .pushl, .popl, .arithmetic .add, .arithmetic .sub, .imull, .idivl,
    .cdq, .negl, .arithmetic .or, .arithmetic .and, .arithmetic .xor, .cmpl, .shll] ++
  Comparison.all.map .set ++ [.jmp] ++ Condition.all.map .jump ++ [.call, .ret, .leave, .nop]

def name : Mnemonic → Bytes
  | .movl => "movl"
  | .movb => "movb"
  | .movzbl => "movzbl"
  | .leal => "leal"
  | .pushl => "pushl"
  | .popl => "popl"
  | .arithmetic .add => "addl"
  | .arithmetic .sub => "subl"
  | .arithmetic .or => "orl"
  | .arithmetic .and => "andl"
  | .arithmetic .xor => "xorl"
  | .cmpl => "cmpl"
  | .imull => "imull"
  | .idivl => "idivl"
  | .cdq => "cdq"
  | .negl => "negl"
  | .shll => "shll"
  | .set comparison => "set" ++ comparison.suffix
  | .jmp => "jmp"
  | .jump condition => "j" ++ condition.suffix
  | .call => "call"
  | .ret => "ret"
  | .leave => "leave"
  | .nop => "nop"
  | .unknown name => name

/-- The instruction of the machine with this name. -/
def ofName? (name : Bytes) : Option Mnemonic := all.find? (·.name = name)

def ofName (name : Bytes) : Mnemonic := (ofName? name).getD (.unknown name)

/-- The least and the greatest number of operands. -/
def arity : Mnemonic → Nat × Nat
  | .movl | .movb | .movzbl | .leal | .arithmetic _ | .cmpl | .shll => (2, 2)
  | .pushl | .popl | .idivl | .negl | .set _ | .jmp | .jump _ | .call => (1, 1)
  | .imull => (1, 2)
  | .cdq | .ret | .leave | .nop | .unknown _ => (0, 0)

end Mnemonic

/-- Whether an instruction of this name takes a destination in the program. -/
def isBranch (name : Bytes) : Bool := name == "call" || name.head? == some (Bytes.code 'j')

/-- A decoded instruction and the line it came from. -/
structure Instr where
  mnemonic : Mnemonic
  operands : List Operand
  line : Int
deriving DecidableEq

namespace Instr

/-- The instruction as listings show it. -/
def print (i : Instr) : Bytes :=
  Text.trim (i.mnemonic.name ++ " " ++ Bytes.join "," (i.operands.map Operand.print))

end Instr

end Onepass.Machine
