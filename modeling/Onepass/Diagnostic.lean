import Onepass.Token
import Onepass.Ty

/-! Compile-time diagnostics. A compilation reports at most one: the first fault ends it. -/
namespace Onepass

/-- The classes of diagnostics. -/
inductive Diagnostic.Kind
  | lexical
  | grammar
  | type
  | unknownName
  | unsupported
deriving DecidableEq

/-- What is wrong. -/
inductive Diagnostic.Cause
  | illegalCharacter (c : Char)
  | integerOutOfRange (digits : Bytes)
  | unterminatedString
  | unterminatedCharacter
  | emptyCharacter
  | unclosedCharacter (found : Char)
  | wideCharacter (text : Bytes)
  | expectedSymbol (symbol : Bytes) (found : Token)
  | expectedStatement (found : Token)
  | expectedType (found : Token)
  | unexpected (found : Token)
  | unprintable (type : Ty)
  | badCondition (type : Ty)
  | badAssignment (value : Ty) (name : Bytes) (declared : Ty)
  | notAnArray (type : Ty) (name : Bytes)
  | notANestedArray (type : Ty)
  | badElementAssignment (value container : Ty) (name : Bytes)
  | badIndex (type : Ty)
  | incompatibleOperands (left right : Ty) (operator : Bytes)
  | notIndexable (name : Bytes) (type : Ty)
  | mixedElements (value element : Ty)
  | unknownVariable (name : Bytes)
  | unsupportedOperation (operation : Bytes) (type : Ty)
deriving DecidableEq

/-- A fault, the place it is reported at and the raw line it stands on. -/
structure Diagnostic where
  cause : Diagnostic.Cause
  file : Bytes
  position : Position
  line : Bytes
deriving DecidableEq

namespace Diagnostic

/-- The class with a number. -/
def Kind.ofCode? : Int → Option Kind
  | 1 => some .lexical
  | 2 => some .grammar
  | 3 => some .type
  | 4 => some .unknownName
  | 5 => some .unsupported
  | _ => none

def Kind.title : Kind → Bytes
  | .lexical => "lexical error"
  | .grammar => "syntax error"
  | .type => "type error"
  | .unknownName => "unknown identifier"
  | .unsupported => "unsupported operation"

/-- The title of the class with a number; other numbers are shown as they are. -/
def titleOfCode (code : Int) : Bytes :=
  match Kind.ofCode? code with
  | some kind => kind.title
  | none => "ErrorKind(" ++ Numeral.decimal code ++ ")"

/-- The class of a fault. -/
def Cause.kind : Cause → Kind
  | .illegalCharacter _ | .integerOutOfRange _ | .unterminatedString | .unterminatedCharacter
  | .emptyCharacter | .unclosedCharacter _ | .wideCharacter _ => .lexical
  | .expectedSymbol .. | .expectedStatement _ | .expectedType _ | .unexpected _ => .grammar
  | .unknownVariable _ => .unknownName
  | .unsupportedOperation .. => .unsupported
  | _ => .type

/-- The wording of a fault. -/
def Cause.message : Cause → Bytes
  | .illegalCharacter c => "illegal character " ++ Quoted.char c
  | .integerOutOfRange digits => "integer literal " ++ digits ++ " out of range"
  | .unterminatedString => "unterminated string literal"
  | .unterminatedCharacter => "unterminated character literal"
  | .emptyCharacter => "empty character literal"
  | .unclosedCharacter found =>
    "expected \"'\" to close character literal, found " ++ Quoted.char found
  | .wideCharacter text =>
    "character literal " ++ Quoted.text text ++ " is not a single ASCII character"
  | .expectedSymbol symbol found => "expected '" ++ symbol ++ "', found " ++ found.describe
  | .expectedStatement found => "expected statement, found " ++ found.describe
  | .expectedType found => "expected type, found " ++ found.describe
  | .unexpected found => "unexpected " ++ found.describe
  | .unprintable type => "cannot print value of type " ++ type.name
  | .badCondition type => "condition must be int or char, found " ++ type.name
  | .badAssignment value name declared =>
    "illegal assignment of " ++ value.name ++ " to variable " ++ name ++ " of type " ++
      declared.name
  | .notAnArray type name => "cannot assign to element of " ++ type.name ++ " " ++ name
  | .notANestedArray type => "cannot assign to element of " ++ type.name
  | .badElementAssignment value container name =>
    "illegal assignment of " ++ value.name ++ " to element of " ++ container.name ++ " " ++ name
  | .badIndex type => "array index must be int, found " ++ type.name
  | .incompatibleOperands left right operator =>
    "incompatible operand types " ++ left.name ++ " and " ++ right.name ++ " for " ++ operator
  | .notIndexable name type => "cannot index " ++ name ++ " of type " ++ type.name
  | .mixedElements value element =>
    "array element of type " ++ value.name ++ " does not match element type " ++ element.name
  | .unknownVariable name => "unknown variable " ++ name
  | .unsupportedOperation operation type =>
    "operation " ++ Quoted.text operation ++ " not supported by type " ++ type.name

/-- The layout of a report: place, class and message, and below them the trimmed line unless it
is blank. -/
def report (file : Bytes) (line column : Int) (title message text : Bytes) : Bytes :=
  let head := Source.place file line column ++ ": " ++ title ++ ": " ++ message
  let shown := Text.trim text
  if shown = [] then head else head ++ "\n  |> " ++ shown

def kind (d : Diagnostic) : Kind := d.cause.kind

/-- The full text of a diagnostic. -/
def message (d : Diagnostic) : Bytes :=
  report d.file d.position.line d.position.column d.kind.title d.cause.message d.line

/-- A fault at a place of a source. -/
def ofSource (source : Source) (position : Position) (cause : Cause) : Diagnostic :=
  ⟨cause, source.name, position, source.lineText position.line⟩

end Diagnostic

end Onepass
