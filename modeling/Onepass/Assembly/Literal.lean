import Onepass.Text.Numeral
import Onepass.Text.Utf8

/-! Literals of assembly text: strings between double quotes, and integers. -/
namespace Onepass.Assembly.Literal

/-- The text of one byte inside a string: bytes outside printable ASCII are three octal digits. -/
def escapeByte (b : UInt8) : Bytes :=
  if b = Bytes.code '"' then "\\\""
  else if b = Bytes.code '\\' then "\\\\"
  else if b = 10 then "\\n"
  else if b = 9 then "\\t"
  else if b < 0x20 ∨ 0x7F ≤ b then 92 :: Numeral.padded 8 3 b.toNat
  else [b]

/-- A byte string as a literal. -/
def quote (bytes : Bytes) : Bytes := 34 :: bytes.flatMap escapeByte ++ [34]

/-- The contents of the literal whose opening quote was just read: everything before the first
quote that no backslash precedes. A literal does not go past its line. -/
def contents? : Bytes → Option Bytes
  | [] => none
  | 34 :: _ => some []
  | 92 :: c :: rest => if c = 10 then none else (contents? rest).map (92 :: c :: ·)
  | b :: rest => if b = 10 ∨ b = 92 then none else (contents? rest).map (b :: ·)

/-- The byte that a one-letter escape stands for. -/
def shortEscape? : Char → Option UInt8
  | 'a' => some 7
  | 'b' => some 8
  | 'f' => some 12
  | 'n' => some 10
  | 'r' => some 13
  | 't' => some 9
  | 'v' => some 11
  | '\\' => some 92
  | '"' => some 34
  | _ => none

/-- The number that exactly `count` digits at the head of a text denote. -/
def digits? (base count : Nat) (text : List Char) : Option Nat :=
  let digits := text.take count
  if digits.length = count then Numeral.value? base (Utf8.encode digits) else none

/-- The bytes of an escape after its backslash, with the number of characters it takes. Octal and
two-digit hexadecimal escapes are single bytes, longer ones are characters. -/
def escape? : List Char → Option (Bytes × Nat)
  | [] => none
  | 'x' :: rest => do
    let n ← digits? 16 2 rest
    return ([n.toUInt8], 3)
  | 'u' :: rest => do
    let n ← digits? 16 4 rest
    if n.isValidChar then return (Utf8.encodeChar (Char.ofNat n), 5) else none
  | 'U' :: rest => do
    let n ← digits? 16 8 rest
    if n.isValidChar then return (Utf8.encodeChar (Char.ofNat n), 9) else none
  | c :: rest =>
    match shortEscape? c with
    | some b => some ([b], 1)
    | none => do
      let n ← digits? 8 3 (c :: rest)
      if n < 256 then return ([n.toUInt8], 3) else none

/-- The bytes of the characters after the next `skip`, with escapes decoded. -/
def unescapeFrom : (skip : Nat) → List Char → Option Bytes
  | _, [] => some []
  | skip + 1, _ :: rest => unescapeFrom skip rest
  | 0, c :: rest =>
    if c = '\\' then do
      let (bytes, read) ← escape? rest
      return bytes ++ (← unescapeFrom read rest)
    else do
      return Utf8.encodeChar c ++ (← unescapeFrom 0 rest)

/-- The byte string that the contents of a literal denote. -/
def unquote? (contents : Bytes) : Option Bytes := unescapeFrom 0 (Utf8.decode contents)

/-- The number that digits denote: a leading zero makes them octal. -/
def magnitude? (digits : Bytes) : Option Nat :=
  match digits with
  | 48 :: octal => Numeral.value? 8 octal
  | _ => Numeral.value? 10 digits

/-- The integer that an optionally signed run of digits denotes; it must fit 64 bits. -/
def integer? (text : Bytes) : Option Int := do
  let n : Int ←
    match text with
    | 45 :: digits => (magnitude? digits).map fun n => -(n : Int)
    | 43 :: digits => (magnitude? digits).map Int.ofNat
    | digits => (magnitude? digits).map Int.ofNat
  if -0x8000000000000000 ≤ n ∧ n < 0x8000000000000000 then some n else none

end Onepass.Assembly.Literal
