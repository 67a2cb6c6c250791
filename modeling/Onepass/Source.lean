import Onepass.Text.Blank
import Onepass.Text.Numeral

/-! A source text with its name, and places in it. Lines and columns start at one; columns count
characters. -/
namespace Onepass

/-- A place in a source text. -/
structure Position where
  line : Nat
  column : Nat
deriving DecidableEq

namespace Position

/-- Where a text starts. -/
def start : Position := ⟨1, 1⟩

/-- The place after a character. -/
def after (p : Position) (c : Char) : Position :=
  if c = '\n' then ⟨p.line + 1, 1⟩ else ⟨p.line, p.column + 1⟩

/-- The place after a run of characters. -/
def afterAll (p : Position) (text : List Char) : Position := text.foldl after p

end Position

/-- A named source text. -/
structure Source where
  name : Bytes
  text : Bytes
deriving DecidableEq

namespace Source

/-- How a source is called in messages: a text without a name came from standard input. -/
def displayName (name : Bytes) : Bytes := if name = [] then "<stdin>" else name

/-- `name:line:column`. -/
def place (name : Bytes) (line column : Int) : Bytes :=
  displayName name ++ ":" ++ Numeral.decimal line ++ ":" ++ Numeral.decimal column

/-- A place of this source as text. -/
def describe (s : Source) (p : Position) : Bytes := place s.name p.line p.column

/-- The characters of the text. -/
def chars (s : Source) : List Char := Utf8.decode s.text

/-- The lines of the text as raw bytes. -/
def lines (s : Source) : List Bytes := Bytes.splitOn 10 s.text

/-- The raw bytes of a line without carriage returns at its end; empty when there is no such
line. -/
def lineText (s : Source) (line : Int) : Bytes :=
  if line < 1 then [] else Bytes.dropTrailing 13 (s.lines.getD (line.toNat - 1) [])

/-- What is reported when the text of a source cannot be read. -/
def readFailure (name reason : Bytes) : Bytes := "read " ++ name ++ ": " ++ reason

/-- What a compilation reports when the text of its source cannot be read. -/
def compileFailure (name reason : Bytes) : Bytes :=
  "reading " ++ displayName name ++ ": " ++ readFailure name reason

end Source

end Onepass
