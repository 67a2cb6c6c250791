/-! Byte strings. All text the compiler, the assembler and the machine handle is a list of bytes,
because source files, names and printed output need not be valid UTF-8. -/
namespace Onepass

/-- A byte string. -/
abbrev Bytes := List UInt8

namespace Bytes

/-- The UTF-8 bytes of a literal text. -/
def ofString (s : String) : Bytes := s.toByteArray.data.toList

instance : Coe String Bytes := ⟨ofString⟩

/-- The code of an ASCII character as a byte. -/
def code (c : Char) : UInt8 := c.toNat.toUInt8

/-- Joins the parts with a separator between neighbours. -/
def join (separator : Bytes) : List Bytes → Bytes
  | [] => []
  | [part] => part
  | part :: next :: rest => part ++ separator ++ join separator (next :: rest)

/-- Splits at every occurrence of a byte; there is always at least one part. -/
def splitOn (mark : UInt8) : Bytes → List Bytes
  | [] => [[]]
  | b :: rest =>
    if b = mark then [] :: splitOn mark rest
    else
      match splitOn mark rest with
      | [] => [[b]]
      | part :: parts => (b :: part) :: parts

/-- Removes a leading `start`, when there is one. -/
def dropStart (start text : Bytes) : Bytes :=
  if start.isPrefixOf text then text.drop start.length else text

/-- Drops the trailing run of one byte. -/
def dropTrailing (mark : UInt8) (text : Bytes) : Bytes :=
  (text.reverse.dropWhile (· = mark)).reverse

/-- Replaces the first occurrence of a byte. -/
def replaceFirst (old new : UInt8) : Bytes → Bytes
  | [] => []
  | b :: rest => if b = old then new :: rest else b :: replaceFirst old new rest

theorem splitOn_ne_nil (mark : UInt8) (text : Bytes) : splitOn mark text ≠ [] := by
  cases text with
  | nil => simp [splitOn]
  | cons b rest =>
    unfold splitOn
    split
    · simp
    · split <;> simp

/-- Splitting loses nothing but the separators. -/
theorem join_splitOn (mark : UInt8) (text : Bytes) : join [mark] (splitOn mark text) = text := by
  induction text with
  | nil => rfl
  | cons b rest ih =>
    have some_part := splitOn_ne_nil mark rest
    match split : splitOn mark rest with
    | [] => exact absurd split some_part
    | part :: parts =>
      rw [split] at ih
      by_cases same : b = mark
      · simp [splitOn, same, split, join, ih]
      · cases parts with
        | nil => simp_all [splitOn, join]
        | cons next others => simp_all [splitOn, join]

end Bytes

end Onepass
