import Onepass.Text.Bytes

/-! Assembly programs as data: lines with labels and a directive or an instruction. The compiler
builds such lines, the printer writes them and the reader gets them back from text. -/
namespace Onepass.Assembly

/-- A number or the address of a symbol. -/
inductive Value
  | number (n : Int)
  | symbol (name : Bytes)
deriving DecidableEq

/-- An operand as written. -/
inductive Operand
  /-- `$value` -/
  | immediate (value : Value)
  /-- `%name` -/
  | register (name : Bytes)
  /-- An address, or the destination of a branch. -/
  | absolute (address : Value)
  /-- `offset(%base)` or `(%base)` -/
  | based (offset : Option Value) (base : Bytes)
deriving DecidableEq

structure Instruction where
  mnemonic : Bytes
  operands : List Operand
deriving DecidableEq

/-- An argument of a directive. -/
inductive Argument
  | text (contents : Bytes)
  | number (n : Int)
  | symbol (name : Bytes)
deriving DecidableEq

/-- A directive; its name starts with a dot. -/
structure Directive where
  name : Bytes
  arguments : List Argument
deriving DecidableEq

/-- The directive that names a section. -/
def sectionDirective : Bytes := ".section"

inductive Statement
  | directive (directive : Directive)
  | instruction (instruction : Instruction)
deriving DecidableEq

/-- One line of a program; a blank line has no labels and no statement. -/
structure Line where
  labels : List Bytes
  statement : Option Statement
deriving DecidableEq

/-- A run of lines. -/
abbrev Code := List Line

namespace Line

def blank : Line := ⟨[], none⟩

/-- A line that places a label. -/
def label (name : Bytes) : Line := ⟨[name], none⟩

/-- A line with an instruction. -/
def instruction (mnemonic : Bytes) (operands : List Operand) : Line :=
  ⟨[], some (.instruction ⟨mnemonic, operands⟩)⟩

/-- A line with a directive. -/
def directive (name : Bytes) (arguments : List Argument) : Line :=
  ⟨[], some (.directive ⟨name, arguments⟩)⟩

end Line

end Onepass.Assembly
