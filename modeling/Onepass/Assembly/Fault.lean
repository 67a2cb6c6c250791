import Onepass.Assembly.Reader
import Onepass.Text.Numeral

/-! Why a text cannot be assembled. -/
namespace Onepass.Assembly

/-- What is wrong with a line. -/
inductive Cause
  | duplicateLabel (name : Bytes)
  | unnamedSection
  | notStrings (directive : Bytes)
  | badAlignment
  /-- An alignment that is zero as a machine word. -/
  | zeroAlignment
  | unknownDirective (name : Bytes)
  | outsideData (directive : Bytes)
  | outsideText (mnemonic : Bytes)
  | undefinedSymbol (name : Bytes)
  | notAValue
  | unknownInstruction (name : Bytes)
  | operandCount (mnemonic : Bytes) (least most : Nat)
  | notALabel (mnemonic : Bytes)
  | undefinedLabel (name : Bytes)
  | codeAddress (label : Bytes)
deriving DecidableEq

/-- A fault of a text: it cannot be read, or a line of it cannot be assembled. -/
inductive Fault
  | unreadable (reason : Unreadable)
  | onLine (line : Nat) (cause : Cause)
deriving DecidableEq

def Cause.message : Cause → Bytes
  | .duplicateLabel name => "duplicate label '" ++ name ++ "'"
  | .unnamedSection => ".section expects a name"
  | .notStrings directive => directive ++ " expects string operands"
  | .badAlignment => ".align expects a positive number"
  | .zeroAlignment => ".align expects a number that is not zero as a word"
  | .unknownDirective name => "unknown directive " ++ name
  | .outsideData directive => directive ++ " outside data section"
  | .outsideText _ => "instruction outside .text"
  | .undefinedSymbol name => "undefined symbol '" ++ name ++ "'"
  | .notAValue => "expected number or symbol"
  | .unknownInstruction name => "unknown instruction " ++ name
  | .operandCount mnemonic least most =>
    let count : Bytes :=
      if least = most then Numeral.decimal least
      else Numeral.decimal least ++ " to " ++ Numeral.decimal most
    mnemonic ++ " expects " ++ count ++ " operands"
  | .notALabel mnemonic => mnemonic ++ " expects a label"
  | .undefinedLabel name => "undefined label '" ++ name ++ "'"
  | .codeAddress label => "cannot take the address of code label '" ++ label ++ "'"

def Unreadable.message : Unreadable → Bytes
  | .strayCharacter line column =>
    Numeral.decimal line ++ ":" ++ Numeral.decimal column ++ ": invalid input text"
  | .malformed line => Numeral.decimal line ++ ": unexpected token"
  | .badLiteral line => Numeral.decimal line ++ ": invalid literal"

/-- The full text of a fault. -/
def Fault.message : Fault → Bytes
  | .unreadable reason => "assemble: " ++ reason.message
  | .onLine line cause =>
    let head := cause.message ++ " on line " ++ Numeral.decimal line
    match cause with
    | .outsideText mnemonic => head ++ ": " ++ mnemonic
    | _ => head

end Onepass.Assembly
