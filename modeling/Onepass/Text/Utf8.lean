import Onepass.Text.Bytes

/-! UTF-8. Reading never fails: a byte that starts no well-formed character is read as one
replacement character U+FFFD, so every byte belongs to exactly one character of the text. -/
namespace Onepass.Utf8

/-- What stands for a byte that starts no character. -/
def replacement : Char := '\uFFFD'

/-- The bytes of a character. -/
def encodeChar (c : Char) : Bytes := String.utf8EncodeChar c

/-- The bytes of a text. -/
def encode (text : List Char) : Bytes := text.flatMap encodeChar

/-- The six value bits of a continuation byte. -/
def continuation? (b : UInt8) : Option Nat :=
  if 0x80 ≤ b ∧ b ≤ 0xBF then some (b.toNat - 0x80) else none

/-- The character at the head of the bytes with the number of bytes it takes. Overlong forms,
surrogates and values above U+10FFFF are not characters. -/
def head? : Bytes → Option (Char × Nat)
  | [] => none
  | b₀ :: rest =>
    let n := b₀.toNat
    if n < 0x80 then some (Char.ofNat n, 1)
    else if 0xC2 ≤ n ∧ n ≤ 0xDF then do
      let b₁ ← rest[0]?
      let x ← continuation? b₁
      return (Char.ofNat ((n - 0xC0) * 64 + x), 2)
    else if 0xE0 ≤ n ∧ n ≤ 0xEF then do
      let b₁ ← rest[0]?
      let b₂ ← rest[1]?
      let x ← continuation? b₁
      let y ← continuation? b₂
      let value := ((n - 0xE0) * 64 + x) * 64 + y
      if 0x800 ≤ value ∧ ¬ (0xD800 ≤ value ∧ value ≤ 0xDFFF) then
        return (Char.ofNat value, 3)
      else none
    else if 0xF0 ≤ n ∧ n ≤ 0xF4 then do
      let b₁ ← rest[0]?
      let b₂ ← rest[1]?
      let b₃ ← rest[2]?
      let x ← continuation? b₁
      let y ← continuation? b₂
      let z ← continuation? b₃
      let value := (((n - 0xF0) * 64 + x) * 64 + y) * 64 + z
      if 0x10000 ≤ value ∧ value ≤ 0x10FFFF then return (Char.ofNat value, 4)
      else none
    else none

/-- The characters of the bytes after the next `skip` bytes, each with the bytes it was read
from. -/
def segmentsFrom : (skip : Nat) → Bytes → List (Char × Bytes)
  | _, [] => []
  | skip + 1, _ :: rest => segmentsFrom skip rest
  | 0, b :: rest =>
    match head? (b :: rest) with
    | some (c, width) => (c, (b :: rest).take width) :: segmentsFrom (width - 1) rest
    | none => (replacement, [b]) :: segmentsFrom 0 rest

/-- The characters of the bytes, each with the bytes it was read from. -/
def segments (bytes : Bytes) : List (Char × Bytes) := segmentsFrom 0 bytes

/-- The characters of the bytes. -/
def decode (bytes : Bytes) : List Char := (segments bytes).map (·.1)

/-- The number of characters in the bytes. -/
def length (bytes : Bytes) : Nat := (segments bytes).length

theorem width_pos_of_head? {bytes : Bytes} {c : Char} {width : Nat}
    (found : head? bytes = some (c, width)) : 0 < width := by
  cases bytes with
  | nil => simp [head?] at found
  | cons b rest =>
    simp only [head?] at found
    split at found
    · grind
    split at found
    · simp only [Option.bind_eq_bind, Option.bind_eq_some_iff] at found
      obtain ⟨_, _, _, _, same⟩ := found
      grind
    split at found
    · simp only [Option.bind_eq_bind, Option.bind_eq_some_iff] at found
      obtain ⟨_, _, _, _, _, _, _, _, same⟩ := found
      split at same <;> grind
    split at found
    · simp only [Option.bind_eq_bind, Option.bind_eq_some_iff] at found
      obtain ⟨_, _, _, _, _, _, _, _, _, _, _, _, same⟩ := found
      split at same <;> grind
    · simp at found

theorem flatMap_segmentsFrom (skip : Nat) (bytes : Bytes) :
    (segmentsFrom skip bytes).flatMap (·.2) = bytes.drop skip := by
  fun_induction segmentsFrom skip bytes with
  | case1 => simp
  | case2 skip b rest ih => simpa using ih
  | case3 b rest c width found ih =>
    obtain ⟨n, rfl⟩ := Nat.exists_eq_succ_of_ne_zero (Nat.ne_of_gt (width_pos_of_head? found))
    simp_all
  | case4 b rest absent ih => simp [ih]

/-- Every byte belongs to exactly one character. -/
theorem flatMap_segments (bytes : Bytes) : (segments bytes).flatMap (·.2) = bytes :=
  flatMap_segmentsFrom 0 bytes

end Onepass.Utf8
