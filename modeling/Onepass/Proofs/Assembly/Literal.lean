import Mathlib
import Onepass.Assembly.Literal
import Onepass.Proofs.Utf8

/-! Literals of assembly text denote what they were printed from: decimal numbers of 64 bits, and
byte strings between quotes. -/
namespace Onepass

namespace Numeral

theorem digitValue?_digit {base n : Nat} (small : base ≤ 16) (below : n < base) :
    digitValue? base (digit n) = some n := by
  have all : ∀ n < 16, digitValue? 16 (digit n) = some n := by decide
  have found := all n (by omega)
  simp only [digitValue?, Option.filter_eq_some_iff] at found ⊢
  exact ⟨found.1, by simpa using below⟩

theorem value?_append (base : Nat) (digits : Bytes) (b : UInt8) :
    value? base (digits ++ [b]) =
      (value? base digits).bind fun n => (digitValue? base b).map fun d => n * base + d := by
  simp only [value?, List.foldl_append, List.foldl_cons, List.foldl_nil]
  cases List.foldl _ (some 0) digits with
  | none => rfl
  | some n => cases digitValue? base b <;> rfl

private theorem value?_digitsUpTo {base : Nat} (two : 2 ≤ base) (small : base ≤ 16) (fuel n : Nat)
    (enough : n < fuel) : value? base (digitsUpTo base fuel n).reverse = some n := by
  induction fuel generalizing n with
  | zero => omega
  | succ fuel ih =>
    unfold digitsUpTo
    by_cases single : n < base
    · simp [single, value?, digitValue?_digit small single]
    · have shorter : n / base < fuel := by
        have := Nat.div_lt_self (by omega : 0 < n) (by omega : 1 < base)
        omega
      have last : n % base < base := Nat.mod_lt _ (by omega)
      simp only [single, if_false, List.reverse_cons, value?_append, ih _ shorter,
        digitValue?_digit small last, Option.map_some, Option.bind_some, Option.some.injEq]
      exact Nat.div_add_mod' n base

/-- Digits denote the number they were made from. -/
theorem value?_natural {base : Nat} (two : 2 ≤ base) (small : base ≤ 16) (n : Nat) :
    value? base (natural base n) = some n :=
  value?_digitsUpTo two small (n + 1) n (by omega)

private theorem getLast?_digitsUpTo {base : Nat} (two : 2 ≤ base) (fuel n : Nat)
    (enough : n < fuel) (positive : 0 < n) :
    ∃ d, 0 < d ∧ d < base ∧ (digitsUpTo base fuel n).getLast? = some (digit d) := by
  induction fuel generalizing n with
  | zero => omega
  | succ fuel ih =>
    unfold digitsUpTo
    by_cases single : n < base
    · exact ⟨n, positive, single, by simp [single]⟩
    · have shorter : n / base < fuel := by
        have := Nat.div_lt_self positive (by omega : 1 < base)
        omega
      obtain ⟨d, above, below, last⟩ := ih _ shorter (Nat.div_pos (by omega) (by omega))
      refine ⟨d, above, below, ?_⟩
      simp [single, List.getLast?_cons, last]

/-- Numbers are written without leading zeros. -/
theorem head?_natural {base n : Nat} (two : 2 ≤ base) (positive : 0 < n) :
    ∃ d, 0 < d ∧ d < base ∧ (natural base n).head? = some (digit d) := by
  simpa [natural, List.head?_reverse] using
    getLast?_digitsUpTo two (n + 1) n (by omega) positive

theorem natural_ne_nil (base n : Nat) : natural base n ≠ [] := by
  unfold natural digitsUpTo
  split <;> simp

/-- The bytes of digits. -/
theorem mem_natural {base n : Nat} (two : 2 ≤ base) {b : UInt8} (member : b ∈ natural base n) :
    ∃ d < base, b = digit d := by
  have all : ∀ fuel n, b ∈ digitsUpTo base fuel n → ∃ d < base, b = digit d := by
    intro fuel
    induction fuel with
    | zero => simp [digitsUpTo]
    | succ fuel ih =>
      intro n member
      unfold digitsUpTo at member
      split at member
      · exact ⟨n, ‹_›, by simpa using member⟩
      · rcases List.mem_cons.mp member with rfl | later
        · exact ⟨n % base, Nat.mod_lt _ (by omega), rfl⟩
        · exact ih _ later
  exact all (n + 1) n (by simpa [natural] using member)

end Numeral

namespace Assembly.Literal

open Numeral (natural decimal digit)

private theorem digit_ne_zero {d : Nat} (positive : 0 < d) (below : d < 10) : digit d ≠ 48 := by
  have all : ∀ d < 10, 0 < d → digit d ≠ 48 := by decide
  exact all d below positive

theorem magnitude?_natural (n : Nat) : magnitude? (natural 10 n) = some n := by
  rcases Nat.eq_zero_or_pos n with rfl | positive
  · rfl
  · obtain ⟨d, above, below, head⟩ := Numeral.head?_natural (by omega : 2 ≤ 10) positive
    have value := Numeral.value?_natural (by omega : 2 ≤ 10) (by omega) n
    unfold magnitude?
    split
    · rename_i octal same
      rw [same] at head
      exact absurd (by simpa using head.symm) (digit_ne_zero above below)
    · exact value

/-- The first byte of digits is a digit. -/
theorem natural_head (n : Nat) :
    ∃ d rest, d < 10 ∧ natural 10 n = digit d :: rest := by
  match same : natural 10 n with
  | [] => exact absurd same (Numeral.natural_ne_nil 10 n)
  | b :: rest =>
    have member : b ∈ natural 10 n := by simp [same]
    obtain ⟨d, below, rfl⟩ := Numeral.mem_natural (by omega) member
    exact ⟨d, rest, below, rfl⟩

/-- Numbers of 64 bits are read back from their decimal form. -/
theorem integer?_decimal {n : Int} (least : -0x8000000000000000 ≤ n)
    (most : n < 0x8000000000000000) : integer? (decimal n) = some n := by
  unfold decimal
  split
  · obtain ⟨k, rfl⟩ : ∃ k : Nat, n = -k := ⟨n.natAbs, by omega⟩
    have bounded : -0x8000000000000000 ≤ -(k : Int) ∧ -(k : Int) < 0x8000000000000000 :=
      ⟨least, most⟩
    simp only [Int.natAbs_neg, Int.natAbs_natCast, integer?, magnitude?_natural]
    exact if_pos bounded
  · rename_i positive
    obtain ⟨d, rest, below, same⟩ := natural_head n.natAbs
    have signs : ∀ d < 10, digit d ≠ 45 ∧ digit d ≠ 43 := by decide
    have value : (n.natAbs : Int) = n := by omega
    have magnitude := magnitude?_natural n.natAbs
    unfold integer?
    rw [same] at magnitude ⊢
    split
    · rename_i same
      exact absurd (List.cons.inj same).1 (signs d below).1
    · rename_i same
      exact absurd (List.cons.inj same).1 (signs d below).2
    · simp [magnitude, value, least, most]

/-! Strings. Every byte is read back from its escape, whatever follows. -/

/-- Three octal digits hold a byte. -/
private theorem padded_octal {n : Nat} (byte : n < 256) :
    Numeral.padded 8 3 n = [digit (n / 64), digit (n / 8 % 8), digit (n % 8)] := by
  have all : ∀ n < 256,
      Numeral.padded 8 3 n = [digit (n / 64), digit (n / 8 % 8), digit (n % 8)] := by
    decide +kernel
  exact all n byte

/-- Printable ASCII. -/
def IsPrintable (b : UInt8) : Prop := 0x20 ≤ b ∧ b ≤ 0x7E

instance : DecidablePred IsPrintable := fun b =>
  inferInstanceAs (Decidable (0x20 ≤ b ∧ b ≤ 0x7E))

theorem IsPrintable.ascii {b : UInt8} (printable : IsPrintable b) : b < 0x80 :=
  UInt8.lt_of_le_of_lt printable.2 (by decide)

theorem IsPrintable.ne_newline {b : UInt8} (printable : IsPrintable b) : b ≠ 10 := by
  rintro rfl
  exact absurd printable (by decide)

/-- A byte is escaped by a letter, by octal digits, or not at all. -/
private theorem escapeByte_cases (b : UInt8) :
    (∃ letter, escapeByte b = [92, letter] ∧ IsPrintable letter ∧
        shortEscape? (Char.ofNat letter.toNat) = some b) ∨
      (∃ x y z, x < 8 ∧ y < 8 ∧ z < 8 ∧ escapeByte b = [92, digit x, digit y, digit z] ∧
        (x * 8 + y) * 8 + z = b.toNat) ∨
      (escapeByte b = [b] ∧ b ≠ 34 ∧ b ≠ 92 ∧ IsPrintable b) := by
  by_cases quote : b = 34
  · exact .inl ⟨34, by subst quote; decide⟩
  by_cases backslash : b = 92
  · exact .inl ⟨92, by subst backslash; decide⟩
  by_cases newline : b = 10
  · exact .inl ⟨110, by subst newline; decide⟩
  by_cases tab : b = 9
  · exact .inl ⟨116, by subst tab; decide⟩
  have plain : escapeByte b =
      if b < 0x20 ∨ 0x7F ≤ b then 92 :: Numeral.padded 8 3 b.toNat else [b] := by
    have codes : Bytes.code '"' = 34 ∧ Bytes.code '\\' = 92 := by decide
    simp [escapeByte, codes, quote, backslash, newline, tab]
  by_cases outside : b < 0x20 ∨ 0x7F ≤ b
  · have byte := b.toNat_lt
    rw [if_pos outside, padded_octal byte] at plain
    exact .inr (.inl ⟨_, _, _, by omega, by omega, by omega, plain, by omega⟩)
  · rw [if_neg outside] at plain
    obtain ⟨low, high⟩ := not_or.mp outside
    exact .inr (.inr ⟨plain, quote, backslash, UInt8.not_lt.mp low,
      Nat.le_of_lt_succ (UInt8.lt_iff_toNat_lt.mp (UInt8.not_le.mp high))⟩)

theorem contents?_plain {b : UInt8} (rest : Bytes) (quote : b ≠ 34) (backslash : b ≠ 92)
    (newline : b ≠ 10) : contents? (b :: rest) = (contents? rest).map (b :: ·) := by
  conv_lhs => unfold contents?
  split <;> simp_all

private theorem digit_plain {d : Nat} (below : d < 10) :
    digit d ≠ 34 ∧ digit d ≠ 92 ∧ IsPrintable (digit d) := by
  have all : ∀ d < 10, digit d ≠ 34 ∧ digit d ≠ 92 ∧ IsPrintable (digit d) := by decide
  exact all d below

private theorem contents?_escapeByte (b : UInt8) (rest : Bytes) :
    contents? (escapeByte b ++ rest) = (contents? rest).map (escapeByte b ++ ·) := by
  rcases escapeByte_cases b with ⟨letter, same, printable, _⟩ | ⟨x, y, z, hx, hy, hz, same, _⟩ |
    ⟨same, quote, backslash, printable⟩
  · rw [same]
    simp [contents?, printable.ne_newline]
  · have first := digit_plain (by omega : x < 10)
    have second := digit_plain (by omega : y < 10)
    have third := digit_plain (by omega : z < 10)
    rw [same]
    simp only [List.cons_append, List.nil_append, contents?, first.2.2.ne_newline, if_false]
    rw [contents?_plain _ second.1 second.2.1 second.2.2.ne_newline,
      contents?_plain _ third.1 third.2.1 third.2.2.ne_newline, Option.map_map, Option.map_map]
    rfl
  · rw [same]
    exact contents?_plain rest quote backslash printable.ne_newline

/-- A quoted string ends at its closing quote. -/
theorem contents?_quote (bytes rest : Bytes) :
    contents? (bytes.flatMap escapeByte ++ 34 :: rest) = some (bytes.flatMap escapeByte) := by
  induction bytes with
  | nil => rfl
  | cons b others ih =>
    rw [List.flatMap_cons, List.append_assoc, contents?_escapeByte, ih]
    rfl

/-- Every byte is written in printable ASCII. -/
theorem escapeByte_printable {b c : UInt8} (member : c ∈ escapeByte b) : IsPrintable c := by
  rcases escapeByte_cases b with ⟨letter, same, printable, _⟩ | ⟨x, y, z, hx, hy, hz, same, _⟩ |
    ⟨same, _, _, printable⟩
  · simp only [same, List.mem_cons, List.not_mem_nil, or_false] at member
    rcases member with rfl | rfl
    · decide
    · exact printable
  · simp only [same, List.mem_cons, List.not_mem_nil, or_false] at member
    rcases member with rfl | rfl | rfl | rfl
    · decide
    · exact (digit_plain (by omega : x < 10)).2.2
    · exact (digit_plain (by omega : y < 10)).2.2
    · exact (digit_plain (by omega : z < 10)).2.2
  · simp only [same, List.mem_cons, List.not_mem_nil, or_false] at member
    exact member ▸ printable

/-- A newline is escaped. -/
theorem escapeByte_no_newline (b : UInt8) : 10 ∉ escapeByte b :=
  fun member => (escapeByte_printable member).ne_newline rfl

private theorem decode_ascii {bytes : Bytes} (ascii : ∀ b ∈ bytes, b < 0x80) :
    Utf8.decode bytes = bytes.map fun b => Char.ofNat b.toNat := by
  rw [Utf8.decode, Utf8.segments_ascii ascii, List.map_map]
  rfl

private theorem escape?_letter {c : Char} {b : UInt8} (rest : List Char)
    (short : shortEscape? c = some b) : escape? (c :: rest) = some ([b], 1) := by
  unfold escape?
  split
  · rename_i empty
    cases empty
  · rename_i same
    obtain ⟨rfl, _⟩ := List.cons.inj same
    cases short
  · rename_i same
    obtain ⟨rfl, _⟩ := List.cons.inj same
    cases short
  · rename_i same
    obtain ⟨rfl, _⟩ := List.cons.inj same
    cases short
  · rename_i same
    obtain ⟨rfl, rfl⟩ := List.cons.inj same
    simp only [short]

private theorem escape?_octal {x y z : Nat} (rest : List Char) (hx : x < 8) (hy : y < 8)
    (hz : z < 8) (byte : (x * 8 + y) * 8 + z < 256) :
    escape? (Char.ofNat (digit x).toNat :: Char.ofNat (digit y).toNat ::
      Char.ofNat (digit z).toNat :: rest) = some ([((x * 8 + y) * 8 + z).toUInt8], 3) := by
  have encoded : ∀ d < 8, Utf8.encodeChar (Char.ofNat (digit d).toNat) = [digit d] := by
    decide +kernel
  have first : ∀ d < 8, shortEscape? (Char.ofNat (digit d).toNat) = none ∧
      Char.ofNat (digit d).toNat ≠ 'x' ∧ Char.ofNat (digit d).toNat ≠ 'u' ∧
      Char.ofNat (digit d).toNat ≠ 'U' := by
    decide +kernel
  obtain ⟨none, notX, notU, notLong⟩ := first x hx
  have value : Numeral.value? 8 [digit x, digit y, digit z] = some ((x * 8 + y) * 8 + z) := by
    simp [Numeral.value?, Numeral.digitValue?_digit, hx, hy, hz]
  have digits : digits? 8 3 (Char.ofNat (digit x).toNat :: Char.ofNat (digit y).toNat ::
      Char.ofNat (digit z).toNat :: rest) = some ((x * 8 + y) * 8 + z) := by
    simp [digits?, Utf8.encode, encoded x hx, encoded y hy, encoded z hz, value]
  unfold escape?
  split
  · rename_i empty
    cases empty
  · rename_i same
    exact absurd (List.cons.inj same).1 notX
  · rename_i same
    exact absurd (List.cons.inj same).1 notU
  · rename_i same
    exact absurd (List.cons.inj same).1 notLong
  · rename_i same
    obtain ⟨rfl, rfl⟩ := List.cons.inj same
    simp [none, digits, byte]

private theorem unescapeFrom_escape {rest : List Char} {bytes : Bytes} {read : Nat}
    (found : escape? rest = some (bytes, read)) :
    unescapeFrom 0 ('\\' :: rest) = (unescapeFrom read rest).map (bytes ++ ·) := by
  conv_lhs => unfold unescapeFrom
  simp only [if_true, found, Option.bind_eq_bind, Option.bind_some]
  cases unescapeFrom read rest <;> rfl

private theorem unescape_escapeByte (b : UInt8) (rest : List Char) :
    unescapeFrom 0 ((escapeByte b).map (fun b => Char.ofNat b.toNat) ++ rest) =
      (unescapeFrom 0 rest).map (b :: ·) := by
  have backslash : Char.ofNat (92 : UInt8).toNat = '\\' := rfl
  rcases escapeByte_cases b with ⟨letter, same, _, short⟩ | ⟨x, y, z, hx, hy, hz, same, value⟩ |
    ⟨same, _, other, printable⟩
  · rw [same]
    simp only [List.map_cons, List.map_nil, List.cons_append, List.nil_append, backslash,
      unescapeFrom_escape (escape?_letter rest short)]
    rfl
  · have byte := b.toNat_lt
    have back : ((x * 8 + y) * 8 + z).toUInt8 = b := by rw [value]; exact UInt8.ofNat_toNat
    rw [same]
    simp only [List.map_cons, List.map_nil, List.cons_append, List.nil_append, backslash,
      unescapeFrom_escape (escape?_octal rest hx hy hz (by omega)), back]
    rfl
  · have plain : ∀ n < 128, n ≠ 92 → Char.ofNat n ≠ '\\' ∧
        Utf8.encodeChar (Char.ofNat n) = [n.toUInt8] := by
      decide +kernel
    obtain ⟨char, encoded⟩ := plain b.toNat printable.ascii fun same =>
      other (UInt8.toNat_inj.mp same)
    rw [same]
    simp only [List.map_cons, List.map_nil, List.cons_append, List.nil_append, unescapeFrom, char,
      if_false, encoded]
    cases unescapeFrom 0 rest <;> simp

/-- A quoted string denotes its bytes. -/
theorem unquote?_quote (bytes : Bytes) : unquote? (bytes.flatMap escapeByte) = some bytes := by
  have ascii : ∀ c ∈ bytes.flatMap escapeByte, c < 0x80 := by
    intro c member
    obtain ⟨b, _, escaped⟩ := List.mem_flatMap.mp member
    exact (escapeByte_printable escaped).ascii
  rw [unquote?, decode_ascii ascii]
  clear ascii
  induction bytes with
  | nil => rfl
  | cons b rest ih => rw [List.flatMap_cons, List.map_append, unescape_escapeByte, ih]; rfl

end Assembly.Literal

end Onepass
