import Onepass.Codegen.Builder
import Onepass.Scope
import Onepass.Syntax.Cursor

/-! Programs to assembly in one pass. Every rule of the grammar checks types and adds code while its
tokens are read; no tree is built. The rules that contain expressions or statements take the
compiler of those as a parameter; these count down the tokens that are left, so nesting always
ends. -/
namespace Onepass

open Codegen (Builder Build Misuse)
open Syntax (Cursor)

namespace Compiler

/-- The state of a compilation. -/
structure Session where
  cursor : Cursor
  scope : Scope Ty
  builder : Builder

/-- How a compilation fails. Only the first can happen to a program. -/
inductive Failure
  | diagnostic (diagnostic : Diagnostic)
  | misuse (misuse : Misuse)
deriving DecidableEq

def Failure.message : Failure → Bytes
  | .diagnostic d => d.message
  | .misuse m => m.message

end Compiler

/-- A step of a compilation. What was done before a failure stays done. -/
abbrev Compiler (α : Type) := ExceptT Compiler.Failure (StateM Compiler.Session) α

namespace Compiler

def current : Compiler Token := return (← get).cursor.current

def remaining : Compiler Nat := return (← get).cursor.remaining

/-- Moves the cursor as a reader of tokens does. -/
def readTokens {α : Type} (read : Cursor → Except Diagnostic (α × Cursor)) : Compiler α := do
  let s ← get
  match read s.cursor with
  | .ok (result, cursor) =>
    set { s with cursor }
    return result
  | .error d => throw (.diagnostic d)

/-- Moves to the next token. -/
def next : Compiler Unit := readTokens fun c => return ((), ← c.next)

/-- Passes over a symbol that must come here. -/
def expect (symbol : Bytes) : Compiler Unit := readTokens fun c => return ((), ← c.expect symbol)

/-- Passes over a symbol if it comes here. -/
def accept (symbol : Bytes) : Compiler Bool := do
  if (← current).is symbol then
    next
    return true
  else return false

/-- Fails at a token. -/
def fail {α : Type} (token : Token) (cause : Diagnostic.Cause) : Compiler α := do
  throw (.diagnostic ((← get).cursor.diagnostic token cause))

/-- A step of code generation. -/
def build {α : Type} (step : Build α) : Compiler α := do
  let s ← get
  let (result, builder) := step.run s.builder
  set { s with builder }
  match result with
  | .ok a => return a
  | .error m => throw (.misuse m)

/-- Adds code. -/
def emit (code : Assembly.Code) : Compiler Unit := build (Builder.emit code)

/-- The variable that a token names. -/
def lookup (token : Token) : Compiler (Variable Ty) := do
  match (← get).scope.find? token.text with
  | some v => return v
  | none => fail token (.unknownVariable token.text)

/-- An index in brackets, applied to the value of type `container` under the pointer, which moves
to the selected element, less the header. -/
def index (expression : Compiler Ty) (container : Ty) : Compiler Unit := do
  expect "["
  emit Codegen.pushPointer
  let token ← current
  let type ← expression
  unless type.compatible .int do fail token (.badIndex type)
  expect "]"
  emit Codegen.popPointer
  build (Builder.addOffset container)

/-- Selections after the value of the variable `name`. -/
def selections (expression : Compiler Ty) (name : Bytes) : (fuel : Nat) → Ty → Compiler Ty
  | 0, type => return type
  | fuel + 1, type => do
    let token ← current
    if token.is "[" then
      match type.element? with
      | none => fail token (.notIndexable name type)
      | some element =>
        index expression type
        emit (Codegen.loadAt element wordSize)
        selections expression name fuel element
    else return type

/-- A variable with the selections that follow it. -/
def selected (expression : Compiler Ty) : Compiler Ty := do
  let token ← current
  let v ← lookup token
  next
  emit v.load
  selections expression token.text (← remaining) v.type

/-- Stores the element that was just computed into the array under the stack top. -/
def storeElement (element : Ty) (position : Nat) : Compiler Unit := do
  emit (Codegen.peekBase "edx")
  emit (Codegen.storeAt element "edx" (wordSize + position * element.size : Nat))

/-- The elements of an array literal from `position` on, with the closing bracket; gives their
number. -/
def elements (expression : Compiler Ty) (element : Ty) : (fuel position : Nat) → Compiler Nat
  | 0, position => do
    expect ","
    return position
  | fuel + 1, position => do
    if ← accept "]" then return position
    else
      expect ","
      if ← accept "]" then return position
      else
        let token ← current
        let type ← expression
        unless element.compatible type do fail token (.mixedElements type element)
        storeElement element position
        elements expression element fuel (position + 1)

/-- An array literal after its opening bracket. The code of the elements is captured, because the
allocation, which needs their number, comes before it. -/
def array (expression : Compiler Ty) : Compiler Ty := do
  if ← accept "]" then
    let shape ← readTokens Cursor.shape
    let type := Ty.arrayOf (.ofShape shape)
    build (Builder.allocateElements type 0)
    emit (Codegen.setLength 0)
    return type
  else
    build Builder.beginCapture
    let first ← expression
    let element := first.general
    storeElement element 0
    let count ← elements expression element (← remaining) 1
    let stores ← build Builder.endCapture
    let type := Ty.arrayOf element
    build (Builder.allocateElements type count)
    emit (Codegen.setLength count)
    emit Codegen.pushPointer
    emit stores
    emit Codegen.popPointer
    return type

def unary (expression : Compiler Ty) : Compiler Ty := do
  let token ← current
  match token.kind with
  | .ident => selected expression
  | .int =>
    emit (Codegen.loadInt token.value)
    next
    return Ty.int.literal
  | .char =>
    emit (Codegen.loadInt token.value)
    next
    return Ty.char.literal
  | .string =>
    let label ← build (Builder.addString token.text)
    emit (Codegen.loadAddress label)
    next
    return Ty.string.literal
  | _ =>
    if token.is "(" then
      next
      let type ← expression
      expect ")"
      return type
    else if token.is "[" then
      next
      array expression
    else fail token (.unexpected token)

def factor (expression : Compiler Ty) : Compiler Ty := do
  let token ← current
  if token.is "-" then
    next
    let type ← unary expression
    match Codegen.operation? type .negate with
    | some code =>
      emit code
      return type
    | none => fail token (.unsupportedOperation Operation.negate.name type)
  else unary expression

/-- The type of an operator's result on operands of a type. -/
def resultType (operator : Operator) (operands : Ty) : Ty :=
  match operator with
  | .compare _ => .int
  | _ => operands

/-- Applies an operator, which stood at `token`, to the pushed and the current value. -/
def operate (token : Token) (operator : Operator) (left right : Ty) : Compiler Ty := do
  match left.union? right with
  | none => fail token (.incompatibleOperands left right token.text)
  | some type =>
    match Codegen.operation? type (.binary operator) with
    | none => fail token (.unsupportedOperation operator.name type)
    | some code =>
      emit code
      return resultType operator type

/-- Operators of a level with their right operands, after a first operand. -/
def chain (level : Operator.Level) (operand : Compiler Ty) : (fuel : Nat) → Ty → Compiler Ty
  | 0, left => return left
  | fuel + 1, left => do
    let token ← current
    match level.operator? token with
    | none => return left
    | some operator =>
      emit (Codegen.push left)
      next
      let right ← operand
      let type ← operate token operator left right
      chain level operand fuel type

/-- Operands joined by the operators of a level, from left to right. -/
def binary (level : Operator.Level) (operand : Compiler Ty) : Compiler Ty := do
  let first ← operand
  chain level operand (← remaining) first

/-- An expression nested at most `fuel` deep; gives its type. -/
def expressionWithin : (fuel : Nat) → Compiler Ty
  | 0 => do
    let token ← current
    fail token (.unexpected token)
  | fuel + 1 =>
    binary .relational (binary .additive (binary .multiplicative (factor (expressionWithin fuel))))

/-- An expression: it cannot nest deeper than there are tokens. -/
def expression : Compiler Ty := do expressionWithin (← remaining)

/-- The selections of an assignment to an element of an array; gives the shape of the element that
the pointer is left at, less the header. -/
def elementTarget : (fuel : Nat) → (element : Shape) → Compiler Shape
  | 0, element => do
    index expression (.ofShape (.array element))
    return element
  | fuel + 1, element => do
    index expression (.ofShape (.array element))
    let token ← current
    if token.is "[" then
      match element with
      | .array inner =>
        emit (Codegen.loadAt (.ofShape element) wordSize)
        elementTarget fuel inner
      | _ => fail token (.notANestedArray (.ofShape element))
    else return element

/-- An assignment to an element of the variable that `token` names. The address of the element is
kept on the stack while the value is computed. -/
def elementAssignment (token : Token) : Compiler Unit := do
  let v ← lookup token
  match v.type.shape with
  | .array element =>
    emit v.load
    let element ← elementTarget ((← remaining) - 1) element
    emit Codegen.pushPointer
    expect "="
    let valueToken ← current
    let type ← expression
    unless (Ty.ofShape element).compatible type do
      fail valueToken (.badElementAssignment type (.ofShape (.array element)) v.name)
    emit (Codegen.popBase "edx")
    emit (Codegen.storeAt (.ofShape element) "edx" wordSize)
  | _ => fail token (.notAnArray v.type v.name)

/-- The variable that an assignment of a value of this type stores to; a new name is declared. -/
def assigned (token valueToken : Token) (type : Ty) : Compiler (Variable Ty) := do
  let s ← get
  match s.scope.find? token.text with
  | some v =>
    unless v.type.compatible type do
      fail valueToken (.badAssignment type v.name v.type)
    return v
  | none =>
    let (v, scope) := s.scope.add token.text type.general
    set { s with scope }
    build (Builder.reserve (wordSize * scope.size : Nat))
    return v

def assignment : Compiler Unit := do
  let token ← current
  next
  if (← current).is "[" then elementAssignment token
  else
    expect "="
    let valueToken ← current
    let type ← expression
    let v ← assigned token valueToken type
    emit v.store

def print : Compiler Unit := do
  next
  let token ← current
  let type ← expression
  match Codegen.print? (← get).builder.platform type with
  | some code => emit code
  | none => fail token (.unprintable type)

/-- A condition must be a scalar. -/
def condition : Compiler Unit := do
  let token ← current
  let type ← expression
  if type.isHeap then fail token (.badCondition type)

def conditional (statement : Compiler Unit) : Compiler Unit := do
  next
  condition
  let otherLabel ← build Builder.newLabel
  emit (Codegen.jumpIfFalse otherLabel)
  statement
  if ← accept "else" then
    let endLabel ← build Builder.newLabel
    emit (Codegen.jump endLabel)
    emit (Codegen.label otherLabel)
    statement
    emit (Codegen.label endLabel)
  else emit (Codegen.label otherLabel)

def loop (statement : Compiler Unit) : Compiler Unit := do
  next
  let loopLabel ← build Builder.newLabel
  let exitLabel ← build Builder.newLabel
  emit (Codegen.label loopLabel)
  condition
  emit (Codegen.jumpIfFalse exitLabel)
  statement
  emit (Codegen.jump loopLabel)
  emit (Codegen.label exitLabel)

/-- Statements up to the closing brace. -/
def blockBody (statement : Compiler Unit) : (fuel : Nat) → Compiler Unit
  | 0 => expect "\x7d"
  | fuel + 1 => do
    let token ← current
    if token.is "\x7d" then next
    else if token.kind = .eof then fail token (.expectedSymbol "\x7d" token)
    else
      statement
      blockBody statement fuel

/-- A statement nested at most `fuel` deep. -/
def statementWithin : (fuel : Nat) → Compiler Unit
  | 0 => do
    let token ← current
    fail token (.expectedStatement token)
  | fuel + 1 => do
    let token ← current
    if token.kind = .ident then assignment
    else if token.is "print" then print
    else if token.is "if" then conditional (statementWithin fuel)
    else if token.is "while" then loop (statementWithin fuel)
    else if token.is "\x7b" then
      next
      blockBody (statementWithin fuel) (← remaining)
    else fail token (.expectedStatement token)

/-- A statement: it cannot nest deeper than there are tokens. -/
def statement : Compiler Unit := do statementWithin (← remaining)

/-- Statements up to the end of input. -/
def statements : (fuel : Nat) → Compiler Unit
  | 0 => return
  | fuel + 1 => do
    if (← current).kind = .eof then return
    else
      statement
      statements fuel

/-- The whole program as the body of `main`. -/
def program : Compiler Unit := do
  build (Builder.beginFunction "main")
  statements (← remaining)
  build Builder.endFunction

/-- What a compilation leaves behind, whether it succeeded or not. -/
structure Outcome where
  result : Except Failure Unit
  scope : Scope Ty
  builder : Builder

/-- Compiles a source for a platform. -/
def run (source : Source) (platform : Platform) : Outcome :=
  match Cursor.ofSource source with
  | .error d => ⟨.error (.diagnostic d), {}, { platform }⟩
  | .ok cursor =>
    let (result, session) := ExceptT.run program |>.run ⟨cursor, {}, { platform }⟩
    ⟨result, session.scope, session.builder⟩

end Compiler

/-- The assembly text of a source, or why there is none. -/
def compile (source : Source) (platform : Platform) : Except Compiler.Failure Bytes :=
  let outcome := Compiler.run source platform
  match outcome.result with
  | .ok () => .ok outcome.builder.text
  | .error failure => .error failure

end Onepass
