import Onepass.Assembly.Basic
import Onepass.Assembly.Literal

/-! Assembly lines as text. A statement is indented by a tab and a tab follows its first word; the
name of a section is set off by a blank. A label stands at the left margin, and so does any
statement whose text ends like a label. -/
namespace Onepass.Assembly

def Value.print : Value → Bytes
  | .number n => Numeral.decimal n
  | .symbol name => name

def Operand.print : Operand → Bytes
  | .immediate value => "$" ++ value.print
  | .register name => "%" ++ name
  | .absolute address => address.print
  | .based offset base => ((offset.map Value.print).getD []) ++ "(%" ++ base ++ ")"

/-- The instruction on one line, with single blanks. -/
def Instruction.text (i : Instruction) : Bytes :=
  match i.operands with
  | [] => i.mnemonic
  | operands => i.mnemonic ++ " " ++ Bytes.join "," (operands.map Operand.print)

/-- An instruction in the columns of a listing. -/
def Instruction.print (i : Instruction) : Bytes :=
  let text := i.text
  if text.getLast? = some (Bytes.code ':') then text
  else 9 :: Bytes.replaceFirst 32 9 text

def Argument.print : Argument → Bytes
  | .text contents => Literal.quote contents
  | .number n => Numeral.decimal n
  | .symbol name => name

/-- The directive on one line, without indentation. -/
def Directive.text (d : Directive) : Bytes :=
  match d.arguments with
  | [] => d.name
  | arguments =>
    d.name ++ (if d.name = sectionDirective then " " else "\t") ++
      Bytes.join "," (arguments.map Argument.print)

def Directive.print (d : Directive) : Bytes := 9 :: d.text

def Statement.print : Statement → Bytes
  | .directive d => d.print
  | .instruction i => i.print

/-- A line without its end. -/
def Line.print (l : Line) : Bytes :=
  (l.labels.flatMap fun name => name ++ [Bytes.code ':']) ++
    ((l.statement.map Statement.print).getD [])

/-- A program text: every line ends with a newline. -/
def print (code : Code) : Bytes := code.flatMap fun line => line.print ++ [10]

end Onepass.Assembly
