import Onepass.Diagnostic

/-! Reading tokens. White space and comments separate tokens; a comment starts with `#` and runs to
the end of its line. Each lexeme is described by the number of characters it takes and by the token
it stands for, or by what is wrong with it; a reader moves over it in both cases. -/
namespace Onepass

/-- The part of a text that is still to be read. -/
structure Reader where
  rest : List Char
  position : Position
deriving DecidableEq

/-- The characters at the head of a text that form one lexical unit. -/
structure Lexeme where
  length : Nat
  token : Except Diagnostic.Cause Token

namespace Lexeme

def isLetter (c : Char) : Bool := c.isAlpha || c == '_'

/-- The white space and comments at the head of a text; `comment` tells that a comment is open. -/
def blank : (comment : Bool) → List Char → List Char
  | _, [] => []
  | true, c :: rest => c :: blank (c != '\n') rest
  | false, c :: rest =>
    if Text.isBlank c then c :: blank false rest
    else if c = '#' then c :: blank true rest
    else []

/-- The number that decimal digits denote. -/
def decimalValue (digits : List Char) : Nat :=
  digits.foldl (fun n c => n * 10 + (c.toNat - 48)) 0

/-- Decimal digits; the value must fit a signed word. -/
def number (text : List Char) : Lexeme :=
  let digits := text.takeWhile Char.isDigit
  let value := decimalValue digits
  let shown := Utf8.encode digits
  ⟨digits.length,
    if value < 0x80000000 then .ok ⟨.int, shown, Int32.ofNat value, .start⟩
    else .error (.integerOutOfRange shown)⟩

/-- A name or a keyword. -/
def word (text : List Char) : Lexeme :=
  let letters := text.takeWhile fun c => isLetter c || c.isDigit
  let name := Utf8.encode letters
  ⟨letters.length, .ok ⟨if Token.keywords.contains name then .keyword else .ident, name, 0, .start⟩⟩

/-- The character that a letter after a backslash stands for. -/
def escaped? : Char → Option Char
  | '\\' => some '\\'
  | 'n' => some '\n'
  | 't' => some '\t'
  | '"' => some '"'
  | _ => none

/-- Whether a backslash before this character stands for itself and leaves the character
unread. -/
def endsEscape (c : Char) : Bool := c == '\n' || c == '\x00'

/-- The decoded text of a string after its opening quote, absent when no quote closes it on the
line, with the number of characters read. Unknown escapes keep their backslash. -/
def stringBody : List Char → Option (List Char) × Nat
  | [] => (none, 0)
  | '"' :: _ => (some [], 1)
  | '\\' :: c :: rest =>
    match escaped? c with
    | some decoded =>
      let (text, read) := stringBody rest
      (text.map (decoded :: ·), read + 2)
    | none =>
      if endsEscape c then
        let (text, read) := stringBody (c :: rest)
        (text.map ('\\' :: ·), read + 1)
      else
        let (text, read) := stringBody rest
        (text.map ('\\' :: c :: ·), read + 2)
  | c :: rest =>
    if c = '\n' then (none, 0)
    else
      let (text, read) := stringBody rest
      (text.map (c :: ·), read + 1)

/-- A string literal; `text` starts after its opening quote. -/
def string (text : List Char) : Lexeme :=
  let (contents, read) := stringBody text
  ⟨read + 1,
    match contents with
    | some contents => .ok ⟨.string, Utf8.encode contents, 0, .start⟩
    | none => .error .unterminatedString⟩

/-- The decoded text of an escape after its backslash, with the number of characters read. -/
def escape : List Char → List Char × Nat
  | [] => (['\\'], 0)
  | c :: _ =>
    match escaped? c with
    | some decoded => ([decoded], 1)
    | none => if endsEscape c then (['\\'], 0) else (['\\', c], 1)

/-- The contents and the close of a character literal whose contents took `read` characters after
the opening quote; `rest` is what follows the contents. -/
def closeCharacter (contents : List Char) (read : Nat) (rest : List Char) : Lexeme :=
  match rest with
  | '\'' :: _ =>
    ⟨read + 2,
      match contents with
      | [c] =>
        if c.toNat < 0x80 then .ok ⟨.char, Utf8.encode [c], Int32.ofNat c.toNat, .start⟩
        else .error (.wideCharacter (Utf8.encode [c]))
      | _ => .error (.wideCharacter (Utf8.encode contents))⟩
  | _ => ⟨read + 1, .error (.unclosedCharacter (rest.headD '\x00'))⟩

/-- A character literal; `text` starts after its opening quote. -/
def character (text : List Char) : Lexeme :=
  match text with
  | [] | '\n' :: _ => ⟨1, .error .unterminatedCharacter⟩
  | '\'' :: _ => ⟨1, .error .emptyCharacter⟩
  | '\\' :: rest =>
    let (contents, read) := escape rest
    closeCharacter contents (read + 1) (rest.drop read)
  | c :: rest => closeCharacter [c] 1 rest

/-- The length of the operator or punctuation mark at the head of a text. -/
def operatorLength? : List Char → Option Nat
  | '!' :: '=' :: _ => some 2
  | c :: rest =>
    if c ∈ ['+', '-', '*', '/', '(', ')', '\x7b', '\x7d', '[', ']', ','] then some 1
    else if c ∈ ['<', '>', '='] then some (if rest.head? = some '=' then 2 else 1)
    else none
  | [] => none

/-- The lexeme at the head of a text that starts with `first`, which is not blank. -/
def ofChars (first : Char) (rest : List Char) : Lexeme :=
  let text := first :: rest
  if first.isDigit then number text
  else if isLetter first then word text
  else if first = '"' then string rest
  else if first = '\'' then character rest
  else
    match operatorLength? text with
    | some length => ⟨length, .ok ⟨.op, Utf8.encode (text.take length), 0, .start⟩⟩
    | none => ⟨1, .error (.illegalCharacter first)⟩

end Lexeme

namespace Reader

/-- A reader at the start of a source. -/
def ofSource (source : Source) : Reader := ⟨source.chars, .start⟩

/-- Moves over a number of characters. -/
def advance (r : Reader) (count : Nat) : Reader :=
  ⟨r.rest.drop count, r.position.afterAll (r.rest.take count)⟩

/-- Moves over white space and comments. -/
def skipBlank (r : Reader) : Reader := r.advance (Lexeme.blank false r.rest).length

/-- Reads one token. At the end of the text this is the end-of-input token, however often it is
read; a faulty lexeme is passed over like a good one. -/
def scan (source : Source) (r : Reader) : Except Diagnostic Token × Reader :=
  let r := r.skipBlank
  match r.rest with
  | [] => (.ok ⟨.eof, [], 0, r.position⟩, r)
  | first :: rest =>
    let lexeme := Lexeme.ofChars first rest
    (match lexeme.token with
      | .ok token => .ok { token with position := r.position }
      | .error cause => .error (Diagnostic.ofSource source r.position cause),
      r.advance lexeme.length)

end Reader

/-- The tokens of a text up to the end-of-input token, or up to the first fault. -/
structure TokenStream where
  tokens : List Token
  fault : Option Diagnostic
deriving DecidableEq

namespace TokenStream

/-- At most `fuel` tokens from a reader on. -/
def scanFrom (source : Source) : (fuel : Nat) → Reader → TokenStream
  | 0, _ => ⟨[], none⟩
  | fuel + 1, r =>
    match r.scan source with
    | (.error fault, _) => ⟨[], some fault⟩
    | (.ok token, next) =>
      if token.kind = .eof then ⟨[token], none⟩
      else
        let rest := scanFrom source fuel next
        ⟨token :: rest.tokens, rest.fault⟩

/-- All tokens of a source. Each token takes a character, so the characters and the end bound
their number. -/
def ofSource (source : Source) : TokenStream :=
  let reader := Reader.ofSource source
  scanFrom source (reader.rest.length + 1) reader

end TokenStream

end Onepass
