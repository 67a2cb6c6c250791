import Onepass.Assembly.Layout
import Onepass.Machine.Instr

/-! The second pass: data bytes and decoded instructions, with every symbol resolved by the
layout. -/
namespace Onepass.Assembly

open Onepass.Machine (Word Instr Mnemonic RegisterName)

/-- An assembled program. -/
structure Image where
  text : Array Instr := #[]
  /-- The initial data, from `dataBase` on. -/
  data : Array UInt8 := #[]
  /-- Data labels with their addresses. -/
  symbols : List (Bytes × Word) := []
  /-- Text labels with their instruction indices. -/
  labels : List (Bytes × Nat) := []
  globals : List Bytes := []
deriving DecidableEq

namespace Layout

/-- The word that an argument of a data directive denotes. -/
def argumentValue (l : Layout) : Argument → Except Cause Word
  | .number n => .ok (Word.ofInt n)
  | .symbol name =>
    match l.symbol? name with
    | some address => .ok address
    | none => .error (.undefinedSymbol name)
  | .text _ => .error .notAValue

/-- The bytes a directive puts at an offset of the data. -/
def directiveData (l : Layout) (d : Directive) (offset : Word) : Except Cause Bytes :=
  match d.kind with
  | .long => return (← d.arguments.mapM l.argumentValue).flatMap Word.bytes
  | .byte => return (← d.arguments.mapM l.argumentValue).map (·.toUInt8)
  | .ascii => return (← strings d.name d.arguments).flatten
  | .asciz => return (← strings d.name d.arguments).flatMap (· ++ [0])
  | .align => return List.replicate (padding (← alignment d.arguments) offset).toNat 0
  | _ => .ok []

/-- The number a value denotes: only data has addresses. -/
def value (l : Layout) : Value → Except Cause Int32
  | .number n => .ok (Int32.ofInt n)
  | .symbol name =>
    match l.symbol? name with
    | some address => .ok address.toInt32
    | none =>
      if (l.label? name).isSome then .error (.codeAddress name)
      else .error (.undefinedSymbol name)

/-- An operand of an instruction that is no branch. -/
def operand (l : Layout) : Operand → Except Cause Machine.Operand
  | .immediate v => return .immediate (← l.value v)
  | .register name => .ok (.register (.ofName name))
  | .absolute v => return .memory (← l.value v) none
  | .based none base => .ok (.memory 0 (some (.ofName base)))
  | .based (some v) base => return .memory (← l.value v) (some (.ofName base))

/-- The destination of a branch. A call may name a routine outside the program. -/
def target (l : Layout) (mnemonic : Bytes) : Operand → Except Cause Machine.Operand
  | .absolute (.symbol name) =>
    match l.label? name with
    | some index => .ok (.target name index)
    | none =>
      if mnemonic = "call" then .ok (.target name (-1)) else .error (.undefinedLabel name)
  | _ => .error (.notALabel mnemonic)

/-- The decoded instruction of a line. -/
def instruction (l : Layout) (number : Nat) (i : Instruction) : Except Cause Instr := do
  let some mnemonic := Mnemonic.ofName? i.mnemonic | .error (.unknownInstruction i.mnemonic)
  let (least, most) := mnemonic.arity
  if i.operands.length < least ∨ most < i.operands.length then
    .error (.operandCount i.mnemonic least most)
  else
    let operands ←
      i.operands.mapM
        (if Machine.isBranch i.mnemonic then l.target i.mnemonic else l.operand)
    return ⟨mnemonic, operands, number⟩

end Layout

namespace Image

/-- Adds what a statement produces. -/
def statement (l : Layout) (number : Nat) (image : Image) : Statement → Except Cause Image
  | .directive d =>
    if d.kind = .globl then
      .ok { image with globals := image.globals ++ d.arguments.map fun a => a.symbol?.getD [] }
    else do
      let bytes ← l.directiveData d image.data.size.toUInt32
      return { image with data := image.data ++ bytes.toArray }
  | .instruction i => do
    let instr ← l.instruction number i
    return { image with text := image.text.push instr }

/-- Adds what lines produce, the first of which has a number. -/
def lines (l : Layout) (image : Image) : (number : Nat) → Code → Except Fault Image
  | _, [] => .ok image
  | number, line :: rest =>
    match line.statement with
    | none => lines l image (number + 1) rest
    | some s =>
      match image.statement l number s with
      | .error cause => .error (.onLine number cause)
      | .ok next => lines l next (number + 1) rest

/-- Assembles the lines of a program. -/
def ofCode (code : Code) : Except Fault Image := do
  let layout ← Layout.ofCode code
  lines layout { symbols := layout.symbols, labels := layout.labels } 1 code

end Image

/-- Assembles a text. -/
def assemble (text : Bytes) : Except Fault Image :=
  match read text with
  | .error reason => .error (.unreadable reason)
  | .ok code => Image.ofCode code

end Onepass.Assembly
