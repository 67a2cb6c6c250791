import Onepass.Assembly.Fault
import Onepass.Machine.Word

/-! The first pass over a program: every label gets its place. A label in the text section stands
for the index of the next instruction, a label in a data section for the address of the next
byte. -/
namespace Onepass.Assembly

open Onepass.Machine (Word)

/-- The address of the first byte of data. -/
def dataBase : Word := 0x1000

/-- The two kinds of sections. -/
inductive Section
  | text
  | data
deriving DecidableEq

/-- The directives of the assembler. -/
inductive Directive.Kind
  | long
  | byte
  | ascii
  | asciz
  | align
  | globl
  | text
  | data
  | named
  | unknown
deriving DecidableEq

/-- The kind a directive's name stands for. -/
def Directive.kind (d : Directive) : Directive.Kind :=
  let table : List (Bytes × Directive.Kind) :=
    [(".long", .long), (".byte", .byte), (".ascii", .ascii), (".asciz", .asciz), (".align", .align),
      (".globl", .globl), (".text", .text), (".data", .data), (".cstring", .data),
      (".rodata", .data), (sectionDirective, .named)]
  (table.lookup d.name).getD .unknown

/-- The symbol an argument names. -/
def Argument.symbol? : Argument → Option Bytes
  | .symbol name => some name
  | _ => none

/-- The section after a directive. -/
def Section.after (current : Section) (d : Directive) : Except Cause Section :=
  match d.kind with
  | .text => .ok .text
  | .data => .ok .data
  | .named =>
    match d.arguments.head?.bind Argument.symbol? with
    | none => .error .unnamedSection
    | some name => .ok (if name = ".text" then .text else .data)
  | _ => .ok current

/-- The bytes to the next multiple of an alignment. -/
def padding (alignment offset : Word) : Word := (alignment - offset % alignment) % alignment

/-- The alignment that an `.align` directive asks for, as a machine word. -/
def alignment : List Argument → Except Cause Word
  | [.number n] =>
    if n ≤ 0 then .error .badAlignment
    else if Word.ofInt n = 0 then .error .zeroAlignment
    else .ok (Word.ofInt n)
  | _ => .error .badAlignment

/-- The string contents of the arguments of a string directive. -/
def strings (directive : Bytes) : List Argument → Except Cause (List Bytes)
  | [] => .ok []
  | .text contents :: rest => do
    let others ← strings directive rest
    return contents :: others
  | _ => .error (.notStrings directive)

/-- The bytes that texts take when each is followed by `extra` bytes. -/
def textSize (extra : Nat) : List Bytes → Nat
  | [] => 0
  | text :: rest => text.length + extra + textSize extra rest

/-- The number of bytes a directive adds to the data at an offset. -/
def Directive.size (d : Directive) (offset : Word) : Except Cause Word :=
  match d.kind with
  | .long => .ok (4 * d.arguments.length).toUInt32
  | .byte => .ok d.arguments.length.toUInt32
  | .ascii => return (textSize 0 (← strings d.name d.arguments)).toUInt32
  | .asciz => return (textSize 1 (← strings d.name d.arguments)).toUInt32
  | .align => return padding (← alignment d.arguments) offset
  | .globl | .text | .data | .named => .ok 0
  | .unknown => .error (.unknownDirective d.name)

/-- What the first pass knows when it reaches a line. -/
structure Layout where
  current : Section := .text
  /-- Bytes of data so far. -/
  size : Word := 0
  /-- Instructions so far. -/
  count : Nat := 0
  /-- Labels of the text section with their instruction indices, latest first. -/
  labels : List (Bytes × Nat) := []
  /-- Labels of data sections with their addresses, latest first. -/
  symbols : List (Bytes × Word) := []
deriving DecidableEq

namespace Layout

def label? (l : Layout) (name : Bytes) : Option Nat := l.labels.lookup name

def symbol? (l : Layout) (name : Bytes) : Option Word := l.symbols.lookup name

/-- Gives a label the current place. -/
def define (l : Layout) (name : Bytes) : Except Cause Layout :=
  if (l.label? name).isSome || (l.symbol? name).isSome then .error (.duplicateLabel name)
  else
    match l.current with
    | .text => .ok { l with labels := (name, l.count) :: l.labels }
    | .data => .ok { l with symbols := (name, dataBase + l.size) :: l.symbols }

/-- Moves past a statement. -/
def statement (l : Layout) : Statement → Except Cause Layout
  | .directive d => do
    let current ← l.current.after d
    let size ← d.size l.size
    if 0 < size ∧ current ≠ .data then .error (.outsideData d.name)
    else return { l with current, size := l.size + size }
  | .instruction i =>
    if l.current ≠ .text then .error (.outsideText i.mnemonic)
    else return { l with count := l.count + 1 }

/-- Moves past a line: its labels come before its statement. -/
def line (l : Layout) (line : Line) : Except Cause Layout := do
  let l ← line.labels.foldlM define l
  match line.statement with
  | none => return l
  | some s => l.statement s

/-- Moves past lines, the first of which has a number. -/
def lines (l : Layout) : (number : Nat) → Code → Except Fault Layout
  | _, [] => .ok l
  | number, first :: rest =>
    match l.line first with
    | .error cause => .error (.onLine number cause)
    | .ok next => next.lines (number + 1) rest

/-- The layout of a whole program. -/
def ofCode (code : Code) : Except Fault Layout := lines {} 1 code

end Layout

end Onepass.Assembly
