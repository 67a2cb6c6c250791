import Onepass.Source
import Onepass.Text.Quoted

/-! Tokens of the language. -/
namespace Onepass

/-- The class of a token. -/
inductive Token.Kind
  | eof
  | ident
  | keyword
  | int
  | char
  | string
  | op
  /-- A class outside the language, known by its number only; no text has such a token. -/
  | other (code : Int)
deriving DecidableEq

/-- A token: `text` is the name, symbol, digits or decoded contents, `value` the number or the
code of the character. -/
structure Token where
  kind : Token.Kind
  text : Bytes := []
  value : Int32 := 0
  position : Position := .start
deriving DecidableEq

namespace Token

/-- The class with a number. -/
def Kind.ofCode : Int → Kind
  | 0 => .eof
  | 1 => .ident
  | 2 => .keyword
  | 3 => .int
  | 4 => .char
  | 5 => .string
  | 6 => .op
  | code => .other code

/-- The name of a class. -/
def Kind.name : Kind → Bytes
  | .eof => "EOF"
  | .ident => "IDENT"
  | .keyword => "KEYWORD"
  | .int => "INT"
  | .char => "CHAR"
  | .string => "STRING"
  | .op => "OP"
  | .other code => "TokenKind(" ++ Numeral.decimal code ++ ")"

/-- The reserved words. -/
def keywords : List Bytes := ["if", "else", "while", "print"]

/-- Whether the token is this operator or keyword; names and literals never are. -/
def is (t : Token) (symbol : Bytes) : Bool :=
  (t.kind == .op || t.kind == .keyword) && t.text == symbol

/-- Whether two tokens have one class and one payload, wherever they stand. -/
def sameAs (t u : Token) : Bool :=
  t.kind == u.kind &&
    match t.kind with
    | .int | .char => t.value == u.value
    | .eof => true
    | _ => t.text == u.text

/-- The token as messages show it. -/
def describe (t : Token) : Bytes :=
  match t.kind with
  | .eof => "end of input"
  | .int => Numeral.decimal t.value.toInt
  | .char => Quoted.char (Quoted.charOfCode t.value.toInt)
  | .string => Quoted.text t.text
  | .op => "'" ++ t.text ++ "'"
  | _ => t.text

end Token

end Onepass
