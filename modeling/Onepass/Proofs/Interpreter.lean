import Onepass.Proofs.Action
import Onepass.Proofs.Typing

/-! The meaning of programs: an interpreter on syntax trees. Numbers have 32 bits and wrap around,
strings are immutable, and arrays are cells of a heap that variables and elements refer to, so that
an assigned array is shared. All variables live in one scope. Operands and elements are evaluated
from left to right; an array literal takes its cell before its elements are evaluated, and a store
checks its indices before its value is evaluated. -/
namespace Onepass.Interpreter

open Machine (Comparison)
open Syntax (Context Expr Stmt)

/-- The values of a program. Strings and arrays may be null. -/
inductive Value
  | int (n : Int32)
  | char (c : UInt8)
  | text (contents : Option Bytes)
  /-- A reference to a cell of the heap. -/
  | array (cell : Option Nat)
deriving DecidableEq

/-- The value that variables and elements of a type start with. -/
def Value.initial : Shape → Value
  | .int | .other => .int 0
  | .char => .char 0
  | .string => .text none
  | .array _ => .array none

/-- An array on the heap. Its length never changes. -/
structure Cell where
  element : Shape
  values : List Value
deriving DecidableEq

/-- What a program works on. -/
structure State where
  binding : Bytes → Value
  heap : List Cell := []
  /-- The bytes that are left for arrays. -/
  room : Nat
  output : Bytes := []

/-- Why a program stops before its end. -/
inductive Stop
  | bounds
  | divisionByZero
  | quotientOverflow
  | null
  | outOfMemory
  /-- A value is not of the kind it should have; well typed programs do not get there. -/
  | stuck
  /-- A loop was repeated more often than the interpreter was asked to. -/
  | unfinished
deriving DecidableEq

/-- A step of interpretation. What was done before a program stops stays done. -/
abbrev Eval (α : Type) := ExceptT Stop (StateM State) α

/-- Whether a comparison of two numbers holds. -/
def holds : Comparison → Int → Int → Bool
  | .less, a, b => a < b
  | .greater, a, b => b < a
  | .lessEqual, a, b => a ≤ b
  | .greaterEqual, a, b => b ≤ a
  | .equal, a, b => a = b
  | .notEqual, a, b => a ≠ b

/-- The number that stands for a truth value. -/
def ofBool (b : Bool) : Int32 := if b then 1 else 0

/-- Division rounds toward zero, and the quotient must be a number of 32 bits. -/
def divide (a b : Int32) : Eval Int32 :=
  if b = 0 then throw .divisionByZero
  else
    let quotient := a.toInt.tdiv b.toInt
    if (Int32.ofInt quotient).toInt = quotient then return Int32.ofInt quotient
    else throw .quotientOverflow

/-- The result of an operator: numbers have all, characters compare. -/
def operate : Operator → Value → Value → Eval Value
  | .add, .int a, .int b => return .int (a + b)
  | .sub, .int a, .int b => return .int (a - b)
  | .mul, .int a, .int b => return .int (a * b)
  | .div, .int a, .int b => return .int (← divide a b)
  | .compare comparison, .int a, .int b => return .int (ofBool (holds comparison a.toInt b.toInt))
  | .compare comparison, .char a, .char b =>
    return .int (ofBool (holds comparison a.toNat b.toNat))
  | _, _, _ => throw .stuck

/-- An index into something of a length. -/
def position (length : Nat) (index : Int32) : Eval Nat :=
  if 0 ≤ index.toInt ∧ index.toInt < length then return index.toInt.toNat else throw .bounds

/-- The array that a cell holds. -/
def fetch (cell : Nat) : Eval Cell := do
  match (← get).heap[cell]? with
  | some found => return found
  | none => throw .stuck

/-- The element that an index selects. -/
def select : Value → Value → Eval Value
  | .text (some contents), .int index => do
    let place ← position contents.length index
    return .char (contents.getD place 0)
  | .array (some cell), .int index => do
    let found ← fetch cell
    let place ← position found.values.length index
    return found.values.getD place (.initial found.element)
  | .text none, .int _ | .array none, .int _ => throw .null
  | _, _ => throw .stuck

/-- The cell and the place in it that an index selects. -/
def locate : Value → Value → Eval (Nat × Nat)
  | .array (some cell), .int index => do
    let found ← fetch cell
    let place ← position found.values.length index
    return (cell, place)
  | .array none, .int _ => throw .null
  | _, _ => throw .stuck

/-- Changes an element. -/
def put (cell place : Nat) (value : Value) : Eval Unit :=
  modify fun s =>
    { s with heap := s.heap.modify cell fun found =>
        { found with values := found.values.set place value } }

/-- The bytes that an array takes: a word for its length, and its elements. -/
def arraySize (element : Shape) (count : Nat) : Nat := wordSize + count * element.size

/-- Takes a cell for an array; the room it takes is a multiple of eight bytes. -/
def allocate (element : Shape) (count : Nat) : Eval Nat := do
  let s ← get
  if s.room < arraySize element count then throw .outOfMemory
  else
    let cell : Cell := ⟨element, List.replicate count (.initial element)⟩
    set { s with
      heap := s.heap ++ [cell], room := s.room - (arraySize element count + 7) / 8 * 8 }
    return s.heap.length

section

variable (locals : Context)

mutual

/-- The value of an expression. The types of the variables tell how large elements are. -/
def eval : Expr → Eval Value
  | .int value => return .int value
  | .char value => return .char value.toUInt32.toUInt8
  | .string contents => return .text (some contents)
  | .variable name => return (← get).binding name
  | .binary operator left right => do
    let a ← eval left
    let b ← eval right
    operate operator a b
  | .negate operand => do
    match ← eval operand with
    | .int n => return .int (-n)
    | _ => throw .stuck
  | .index left selector => do
    let container ← eval left
    let index ← eval selector
    select container index
  | .array first rest => do
    let cell ← allocate ((first.shape? locals).getD .other) (rest.length + 1)
    let value ← eval first
    put cell 0 value
    fill cell 1 rest
    return .array (some cell)
  | .emptyArray element => return .array (some (← allocate element 0))

/-- Evaluates the elements of an array literal from a place on. -/
def fill (cell : Nat) : (place : Nat) → List Expr → Eval Unit
  | _, [] => return
  | place, first :: rest => do
    let value ← eval first
    put cell place value
    fill cell (place + 1) rest

end

/-- Whether a condition holds: numbers and characters do when they are not zero. -/
def test (condition : Expr) : Eval Bool := do
  match ← eval locals condition with
  | .int n => return n ≠ 0
  | .char c => return c ≠ 0
  | _ => throw .stuck

/-- The text that is printed for a value: a string ends at its first zero byte. -/
def shown : Value → Eval Bytes
  | .int n => return Numeral.decimal n.toInt
  | .char c => return [c]
  | .text (some contents) => return contents.takeWhile (· ≠ 0)
  | .text none => throw .null
  | .array _ => throw .stuck

/-- Repeats an action while a test succeeds, at most `fuel` times. -/
def repeatWhile (condition : Eval Bool) (body : Eval Unit) : (fuel : Nat) → Eval Unit
  | 0 => throw .unfinished
  | fuel + 1 => do
    if ← condition then
      body
      repeatWhile condition body fuel

mutual

/-- What a statement does; every loop is repeated at most `fuel` times. -/
def exec (fuel : Nat) : Stmt → Eval Unit
  | .declare name value | .assign name value => do
    let v ← eval locals value
    modify fun s => { s with binding := Function.update s.binding name v }
  | .store container selector value => do
    let array ← eval locals container
    let index ← eval locals selector
    let (cell, place) ← locate array index
    let v ← eval locals value
    put cell place v
  | .print value => do
    let v ← eval locals value
    let text ← shown v
    modify fun s => { s with output := s.output ++ text ++ "\n" }
  | .ifThen condition body => do
    if ← test locals condition then exec fuel body
  | .ifElse condition body other => do
    if ← test locals condition then exec fuel body else exec fuel other
  | .loop condition body => repeatWhile (test locals condition) (exec fuel body) fuel
  | .block body => execAll fuel body

/-- What statements do one after the other. -/
def execAll (fuel : Nat) : List Stmt → Eval Unit
  | [] => return
  | first :: rest => do
    exec fuel first
    execAll fuel rest

end

/-- The state in which a program starts: all variables are zero or null. -/
def State.initial (room : Nat) : State where
  binding name := ((locals.lookup name).map Value.initial).getD (.int 0)
  room := room

/-- Runs a program whose variables have these types, with room for arrays. -/
def run (room fuel : Nat) (program : List Stmt) : Except Stop Unit × State :=
  perform (execAll locals fuel program) (.initial locals room)

end

end Onepass.Interpreter
