import Onepass.Text.Numeral
import Onepass.Text.Printable
import Onepass.Text.Utf8

/-! Quoted text for messages and listings. A printable character stands for itself; the quote in
use, the backslash and all other characters are escaped, and a byte that is no character is
written as its two hexadecimal digits. -/
namespace Onepass.Quoted

/-- The letter of a character that has a one-letter escape. -/
def shortEscape? (c : Char) : Option UInt8 :=
  [(7, 97), (8, 98), (12, 102), (10, 110), (13, 114), (9, 116), (11, 118)].lookup c.toNat

/-- The text of one character between `quote` marks. -/
def escapeChar (quote c : Char) : Bytes :=
  if c = quote ∨ c = '\\' then 92 :: Utf8.encodeChar c
  else if Text.isPrintable c then Utf8.encodeChar c
  else
    match shortEscape? c with
    | some letter => [92, letter]
    | none =>
      let n := c.toNat
      if n < 0x80 then "\\x" ++ Numeral.padded 16 2 n
      else if n < 0x10000 then "\\u" ++ Numeral.padded 16 4 n
      else "\\U" ++ Numeral.padded 16 8 n

/-- The text of one character read from `source`. -/
def escapeSegment (quote : Char) : Char × Bytes → Bytes
  | (c, source) =>
    if source = Utf8.encodeChar c then escapeChar quote c
    else source.flatMap fun b => "\\x" ++ Numeral.padded 16 2 b.toNat

/-- A byte string between double quotes. -/
def text (bytes : Bytes) : Bytes :=
  Bytes.code '"' :: (Utf8.segments bytes).flatMap (escapeSegment '"') ++ [Bytes.code '"']

/-- The character of a code point, or the replacement character when there is none. -/
def charOfCode (code : Int) : Char :=
  if code < 0 then Utf8.replacement
  else if h : code.toNat.isValidChar then Char.ofNatAux code.toNat h
  else Utf8.replacement

/-- A character between single quotes. -/
def char (c : Char) : Bytes :=
  Bytes.code '\'' :: escapeChar '\'' c ++ [Bytes.code '\'']

end Onepass.Quoted
