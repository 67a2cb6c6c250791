import Onepass.Token.Lexer

/-! A place in the token stream of a source: the current token and those still to come. -/
namespace Onepass.Syntax

structure Cursor where
  source : Source
  current : Token
  rest : List Token
  /-- What is wrong with the source after the remaining tokens. -/
  fault : Option Diagnostic
deriving DecidableEq

namespace Cursor

/-- Moves to the next token. The last token is the end of input, which is never left. -/
def next (c : Cursor) : Except Diagnostic Cursor :=
  match c.rest with
  | token :: rest => .ok { c with current := token, rest }
  | [] =>
    match c.fault with
    | some d => .error d
    | none => .ok c

/-- At the first token of a source. -/
def ofSource (source : Source) : Except Diagnostic Cursor :=
  let stream := TokenStream.ofSource source
  next ⟨source, ⟨.eof, [], 0, .start⟩, stream.tokens, stream.fault⟩

/-- A fault at a token of the source. -/
def diagnostic (c : Cursor) (token : Token) (cause : Diagnostic.Cause) : Diagnostic :=
  Diagnostic.ofSource c.source token.position cause

/-- Passes over a symbol that must come here. -/
def expect (c : Cursor) (symbol : Bytes) : Except Diagnostic Cursor :=
  if c.current.is symbol then c.next
  else .error (c.diagnostic c.current (.expectedSymbol symbol c.current))

/-- A bound on the tokens that are left, the current one included. -/
def remaining (c : Cursor) : Nat := c.rest.length + 1

/-- The shape that a name token denotes. -/
def namedShape? (token : Token) : Option Shape :=
  if token.kind = .ident then Shape.ofName? token.text else none

/-- Reads a type of at most `fuel` brackets. -/
def shapeWithin : (fuel : Nat) → Cursor → Except Diagnostic (Shape × Cursor)
  | 0, c => .error (c.diagnostic c.current (.expectedType c.current))
  | fuel + 1, c =>
    if c.current.is "[" then do
      let c ← c.next
      let c ← c.expect "]"
      let (element, c) ← shapeWithin fuel c
      return (.array element, c)
    else
      match namedShape? c.current with
      | some shape => do
        let c ← c.next
        return (shape, c)
      | none => .error (c.diagnostic c.current (.expectedType c.current))

/-- Reads a type, as in an empty array: brackets before a name. -/
def shape (c : Cursor) : Except Diagnostic (Shape × Cursor) := shapeWithin c.remaining c

end Cursor

end Onepass.Syntax
