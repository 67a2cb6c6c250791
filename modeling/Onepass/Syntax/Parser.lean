import Onepass.Syntax.Cursor
import Onepass.Syntax.Tree

/-! Programs to syntax trees.

* program: statement*
* statement: assignment | print | if | while | block
* assignment: name ("[" expression "]")* "=" expression
* print: "print" expression
* if: "if" expression statement ("else" statement)?
* while: "while" expression statement
* block: "{" statement* "}"
* expression: relational over additive over multiplicative operators, each level to the left
* factor: "-" unary | unary
* unary: name ("[" expression "]")* | literal | "(" expression ")" | "[" array
* array: "]" type | expression ("," expression)* ","? "]"
* type: ("[" "]")* ("int" | "char" | "string")

A name may be read only after an assignment to it has ended. Types are not checked. The rules that
contain expressions or statements take the reader of those as a parameter; the readers themselves
count down the tokens that are left, so nesting always ends. -/
namespace Onepass.Syntax.Parser

/-- What a parser knows: where it is and which names have been assigned. -/
structure State where
  cursor : Cursor
  names : List Bytes

end Parser

/-- A parser ends with a result or with the first fault. -/
abbrev Parser (α : Type) := StateT Parser.State (Except Diagnostic) α

namespace Parser

def current : Parser Token := return (← get).cursor.current

def remaining : Parser Nat := return (← get).cursor.remaining

/-- Moves to the next token. -/
def next : Parser Unit := do
  let s ← get
  set { s with cursor := ← s.cursor.next }

/-- Passes over a symbol that must come here. -/
def expect (symbol : Bytes) : Parser Unit := do
  let s ← get
  set { s with cursor := ← s.cursor.expect symbol }

/-- Fails at a token. -/
def fail {α : Type} (token : Token) (cause : Diagnostic.Cause) : Parser α := do
  throw ((← get).cursor.diagnostic token cause)

/-- Fails unless the name has been assigned. -/
def known (token : Token) : Parser Unit := do
  unless (← get).names.contains token.text do
    fail token (.unknownVariable token.text)

/-- The element type of an empty array. -/
def elementType : Parser Shape := do
  let s ← get
  let (shape, cursor) ← s.cursor.shape
  set { s with cursor }
  return shape

/-- Selections after a value. -/
def selections (expression : Parser Expr) : (fuel : Nat) → Expr → Parser Expr
  | 0, left => return left
  | fuel + 1, left => do
    if (← current).is "[" then
      next
      let selector ← expression
      expect "]"
      selections expression fuel (.index left selector)
    else return left

/-- The elements of an array literal after the first one, with the closing bracket. -/
def elements (expression : Parser Expr) : (fuel : Nat) → Parser (List Expr)
  | 0 => do
    expect ","
    return []
  | fuel + 1 => do
    if (← current).is "]" then
      next
      return []
    else
      expect ","
      if (← current).is "]" then
        next
        return []
      else
        let element ← expression
        let rest ← elements expression fuel
        return element :: rest

/-- An array literal after its opening bracket. -/
def array (expression : Parser Expr) : Parser Expr := do
  if (← current).is "]" then
    next
    return .emptyArray (← elementType)
  else
    let first ← expression
    return .array first (← elements expression (← remaining))

def unary (expression : Parser Expr) : Parser Expr := do
  let token ← current
  match token.kind with
  | .ident =>
    known token
    next
    selections expression (← remaining) (.variable token.text)
  | .int =>
    next
    return .int token.value
  | .char =>
    next
    return .char token.value
  | .string =>
    next
    return .string token.text
  | _ =>
    if token.is "(" then
      next
      let inner ← expression
      expect ")"
      return inner
    else if token.is "[" then
      next
      array expression
    else fail token (.unexpected token)

def factor (expression : Parser Expr) : Parser Expr := do
  if (← current).is "-" then
    next
    return .negate (← unary expression)
  else unary expression

/-- Operators of a level with their right operands, after a first operand. -/
def chain (level : Operator.Level) (operand : Parser Expr) : (fuel : Nat) → Expr → Parser Expr
  | 0, left => return left
  | fuel + 1, left => do
    match level.operator? (← current) with
    | none => return left
    | some operator =>
      next
      let right ← operand
      chain level operand fuel (.binary operator left right)

/-- Operands joined by the operators of a level, from left to right. -/
def binary (level : Operator.Level) (operand : Parser Expr) : Parser Expr := do
  let first ← operand
  chain level operand (← remaining) first

/-- An expression nested at most `fuel` deep. -/
def expressionWithin : (fuel : Nat) → Parser Expr
  | 0 => do
    let token ← current
    fail token (.unexpected token)
  | fuel + 1 =>
    binary .relational (binary .additive (binary .multiplicative (factor (expressionWithin fuel))))

/-- An expression: it cannot nest deeper than there are tokens. -/
def expression : Parser Expr := do expressionWithin (← remaining)

def assignment : Parser Stmt := do
  let token ← current
  next
  if (← current).is "[" then
    known token
    let target ← selections expression (← remaining) (.variable token.text)
    expect "="
    let value ← expression
    match target with
    | .index container selector => return .store container selector value
    | _ => return .assign token.text value
  else
    expect "="
    let value ← expression
    let s ← get
    if s.names.contains token.text then return .assign token.text value
    else
      set { s with names := token.text :: s.names }
      return .declare token.text value

/-- Statements up to the closing brace. -/
def blockBody (statement : Parser Stmt) : (fuel : Nat) → Parser (List Stmt)
  | 0 => do
    expect "\x7d"
    return []
  | fuel + 1 => do
    let token ← current
    if token.is "\x7d" then
      next
      return []
    else if token.kind = .eof then fail token (.expectedSymbol "\x7d" token)
    else
      let first ← statement
      let rest ← blockBody statement fuel
      return first :: rest

def conditional (statement : Parser Stmt) : Parser Stmt := do
  next
  let condition ← expression
  let body ← statement
  if (← current).is "else" then
    next
    return .ifElse condition body (← statement)
  else return .ifThen condition body

/-- A statement nested at most `fuel` deep. -/
def statementWithin : (fuel : Nat) → Parser Stmt
  | 0 => do
    let token ← current
    fail token (.expectedStatement token)
  | fuel + 1 => do
    let token ← current
    if token.kind = .ident then assignment
    else if token.is "print" then
      next
      return .print (← expression)
    else if token.is "if" then conditional (statementWithin fuel)
    else if token.is "while" then
      next
      let condition ← expression
      return .loop condition (← statementWithin fuel)
    else if token.is "\x7b" then
      next
      return .block (← blockBody (statementWithin fuel) (← remaining))
    else fail token (.expectedStatement token)

/-- A statement: it cannot nest deeper than there are tokens. -/
def statement : Parser Stmt := do statementWithin (← remaining)

/-- Statements up to the end of input. -/
def program : (fuel : Nat) → Parser (List Stmt)
  | 0 => return []
  | fuel + 1 => do
    if (← current).kind = .eof then return []
    else
      let first ← statement
      let rest ← program fuel
      return first :: rest

end Parser

/-- The syntax tree of a source, or the first fault in it. -/
def parse (source : Source) : Except Diagnostic (List Stmt) := do
  let cursor ← Cursor.ofSource source
  (Parser.program cursor.remaining).run' ⟨cursor, []⟩

end Onepass.Syntax
