import Onepass.Text.Utf8

/-! White space: the characters that separate tokens and that trimming removes. -/
namespace Onepass.Text

/-- Tab to carriage return, the space, the next-line and no-break characters and the Unicode
space separators. -/
def isBlank (c : Char) : Bool :=
  let n := c.toNat
  (9 ≤ n ∧ n ≤ 13) || n == 0x20 || n == 0x85 || n == 0xA0 || n == 0x1680 ||
    (0x2000 ≤ n ∧ n ≤ 0x200A) || n == 0x2028 || n == 0x2029 || n == 0x202F || n == 0x205F ||
    n == 0x3000

theorem isBlank_of_isWhitespace {c : Char} (white : c.isWhitespace = true) : isBlank c = true := by
  simp only [Char.isWhitespace, Bool.or_eq_true, decide_eq_true_eq] at white
  rcases white with ((rfl | rfl) | rfl) | rfl <;> decide

/-- Removes white space at both ends; bytes that are no character are never white space. -/
def trim (text : Bytes) : Bytes :=
  let blank (segment : Char × Bytes) := isBlank segment.1
  let kept := (((Utf8.segments text).dropWhile blank).reverse.dropWhile blank).reverse
  kept.flatMap (·.2)

/-- Fills a text with spaces on the right up to a number of characters. -/
def padRight (width : Nat) (text : Bytes) : Bytes :=
  text ++ List.replicate (width - Utf8.length text) 32

/-- Fills a text with spaces on the left up to a number of characters. -/
def padLeft (width : Nat) (text : Bytes) : Bytes :=
  List.replicate (width - Utf8.length text) 32 ++ text

end Onepass.Text
