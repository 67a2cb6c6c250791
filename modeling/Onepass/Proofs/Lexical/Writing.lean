import Onepass.Proofs.Acceptance

/-! Texts that are put together from lexemes. A piece of text yields tokens if it does so wherever it
stands, as long as what follows does not run on from it. Pieces that do not run on into each other
can be joined, and blanks may be put before them. -/
namespace Onepass.Lexeme

/-- Whether a text is read as tokens of a sort before any text that follows on a condition. -/
def Yields (follows : List Char → Prop) (tokens : List Token → Prop) (text : List Char) : Prop :=
  ∀ before rest others, follows rest → Partition (before ++ text) rest others →
    ∃ first, tokens first ∧ Partition before (text ++ rest) (first ++ others)

/-- Tokens of one sort before tokens of another. -/
def Joined (first second : List Token → Prop) (tokens : List Token) : Prop :=
  ∃ front back, tokens = front ++ back ∧ first front ∧ second back

/-- Whether names and numbers end before a text. -/
def Apart (rest : List Char) : Prop :=
  ∀ c, rest.head? = some c → (isLetter c || c.isDigit) = false

theorem apart_cons {c : Char} (rest : List Char) (other : (isLetter c || c.isDigit) = false) :
    Apart (c :: rest) := by
  rintro _ ⟨⟩
  exact other

/-- White space before a text belongs to its first separator. -/
theorem Partition.space {before text : List Char} {tokens : List Token}
    (partition : Partition (before ++ [' ']) text tokens) :
    Partition before (' ' :: text) tokens := by
  generalize start : before ++ [' '] = longer at partition
  cases partition with
  | done blank =>
    rw [← start, List.append_assoc, List.singleton_append]
    exact .done (.blank rfl blank)
  | @token _ separator lexeme rest t tokens blank spells range longest position later =>
    rw [← start, List.append_assoc, List.singleton_append] at position later
    exact .token (.blank rfl blank) spells range longest position later

namespace Yields

variable {follows after : List Char → Prop} {tokens others : List Token → Prop}
  {text more : List Char}

theorem append (first : Yields follows tokens text) (second : Yields after others more)
    (meets : ∀ rest, after rest → follows (more ++ rest)) :
    Yields after (Joined tokens others) (text ++ more) := by
  intro before rest later fits partition
  rw [← List.append_assoc] at partition
  obtain ⟨back, sorted, partition⟩ := second _ rest later fits partition
  obtain ⟨front, kind, partition⟩ := first before (more ++ rest) _ (meets rest fits) partition
  rw [← List.append_assoc, ← List.append_assoc] at partition
  exact ⟨front ++ back, ⟨front, back, rfl, kind, sorted⟩, partition⟩

theorem space (yields : Yields follows tokens text) : Yields follows tokens (' ' :: text) := by
  intro before rest later fits partition
  rw [List.append_cons] at partition
  obtain ⟨first, kind, partition⟩ := yields _ rest later fits partition
  exact ⟨first, kind, partition.space⟩

theorem imp (yields : Yields follows tokens text) (sort : ∀ list, tokens list → others list) :
    Yields follows others text := by
  intro before rest later fits partition
  obtain ⟨first, kind, partition⟩ := yields before rest later fits partition
  exact ⟨first, sort first kind, partition⟩

theorem weaken (yields : Yields follows tokens text) (fits : ∀ rest, after rest → follows rest) :
    Yields after tokens text :=
  fun before rest later holds => yields before rest later (fits rest holds)

/-- A lexeme yields its token. -/
theorem lexeme (token : Token) (spells : Spells text token) (range : InRange text token)
    (longest : ∀ rest, follows rest → IsLongest text (text ++ rest)) :
    Yields follows (fun list => ∃ p, list = [{ token with position := p }]) text := by
  intro before rest later fits partition
  refine ⟨[{ token with position := place before }], ⟨_, rfl⟩, ?_⟩
  have position : place before = place (before ++ []) := by rw [List.append_nil]
  exact @Partition.token before [] _ _ _ _ .nil (spells.moved _).1 range (longest rest fits)
    position partition

/-- A bracket, a comma or an arithmetic operator is read by itself. -/
theorem mark {c : Char} (known : c ∈ ['+', '-', '*', '/', '(', ')', '[', ']', ',']) :
    Yields (fun _ => True) (fun list => ∃ p, list = [⟨.op, Utf8.encode [c], 0, p⟩]) [c] := by
  have listed : [c] ∈ operators ∧ c.isDigit = false ∧ isLetter c = false ∧ c ≠ '"' ∧ c ≠ '\'' ∧
      ∀ rest, operatorLength? (c :: rest) = some 1 := by
    simp only [List.mem_cons, List.not_mem_nil, or_false] at known
    rcases known with rfl | rfl | rfl | rfl | rfl | rfl | rfl | rfl | rfl <;>
      exact ⟨by decide, by decide, by decide, by decide, by decide, fun _ => rfl⟩
  obtain ⟨listed, digit, letter, quote, apostrophe, length⟩ := listed
  refine lexeme ⟨.op, Utf8.encode [c], 0, .start⟩ (.op listed)
    (fun number => by cases number) fun rest _ => ?_
  refine isLongest_of_length rfl ?_
  rw [ofChars_of_operator digit letter quote apostrophe (length _)]
  exact Nat.le_refl 1

/-- An operator is read by itself before a space. -/
theorem operator {symbol : List Char} (known : symbol ∈ operators) :
    Yields (fun rest => rest.head? = some ' ')
      (fun list => ∃ p, list = [⟨.op, Utf8.encode symbol, 0, p⟩]) symbol := by
  refine lexeme ⟨.op, Utf8.encode symbol, 0, .start⟩ (.op known)
    (fun number => by cases number) fun rest blank => ?_
  cases rest with
  | nil => cases blank
  | cons _ rest =>
    cases blank
    simp only [operators, List.mem_cons, List.not_mem_nil, or_false] at known
    rcases known with rfl | rfl | rfl | rfl | rfl | rfl | rfl | rfl | rfl | rfl | rfl | rfl | rfl |
      rfl | rfl | rfl | rfl | rfl <;> exact isLongest_of_length rfl (Nat.le_refl _)

theorem word {first : Char} {rest : List Char} (letter : isLetter first = true)
    (all : ∀ c ∈ rest, (isLetter c || c.isDigit) = true)
    (other : Token.keywords.contains (Utf8.encode (first :: rest)) = false) :
    Yields Apart (fun list => ∃ p, list = [⟨.ident, Utf8.encode (first :: rest), 0, p⟩])
      (first :: rest) :=
  lexeme ⟨.ident, _, 0, .start⟩ (.ident letter all other)
    (fun number => by cases number) fun _ apart => isLongest_word letter all apart

theorem number {first : Char} {rest : List Char} (digit : first.isDigit = true)
    (all : ∀ c ∈ rest, c.isDigit = true) (small : decimalValue (first :: rest) < 0x80000000) :
    Yields Apart (fun list => ∃ digits p,
      list = [⟨.int, digits, Int32.ofNat (decimalValue (first :: rest)), p⟩]) (first :: rest) := by
  have whole : ∀ c ∈ first :: rest, c.isDigit = true := by simpa [digit] using all
  have longest (more : List Char) (apart : Apart more) :
      IsLongest (first :: rest) (first :: rest ++ more) := by
    refine isLongest_number digit all fun c head => ?_
    have other := apart c head
    rw [Bool.or_eq_false_iff] at other
    exact other.2
  have yields := lexeme ⟨.int, _, _, .start⟩ (.int (List.cons_ne_nil first rest) whole)
    (fun _ => small) longest
  exact yields.imp fun list ⟨p, same⟩ => ⟨_, p, same⟩

theorem string {raw contents : List Char} (known : Contents raw contents) :
    Yields (fun _ => True) (fun list => ∃ p, list = [⟨.string, Utf8.encode contents, 0, p⟩])
      ('"' :: (raw ++ ['"'])) :=
  lexeme ⟨.string, _, 0, .start⟩ (.string known) (fun number => by cases number)
    fun _ _ => isLongest_string known

theorem character {raw : List Char} {c : Char} (known : Character raw c) :
    Yields (fun _ => True)
      (fun list => ∃ p, list = [⟨.char, Utf8.encode [c], Int32.ofNat c.toNat, p⟩])
      ('\'' :: (raw ++ ['\''])) := by
  refine lexeme ⟨.char, _, _, .start⟩ (.char known) (fun number => by cases number)
    fun rest _ => isLongest_of_length rfl ?_
  have read := character_of_contents known rest
  rw [ofChars_apostrophe]
  simp only [List.append_eq, List.append_assoc, List.singleton_append, read]
  simp

end Yields

/-! Literals as they are shown. -/

theorem decimalValue_append (digits : List Char) (c : Char) :
    decimalValue (digits ++ [c]) = decimalValue digits * 10 + (c.toNat - 48) := by
  simp [decimalValue, List.foldl_append]

/-- The digits of a number denote it. -/
theorem exists_digits (n : Nat) :
    ∃ digits, Numeral.natural 10 n = Utf8.encode digits ∧ digits ≠ [] ∧
      (∀ c ∈ digits, c.isDigit = true) ∧ decimalValue digits = n := by
  have digit : ∀ d < 10, Utf8.encode [Char.ofNat (48 + d)] = [Numeral.digit d] ∧
      (Char.ofNat (48 + d)).isDigit = true ∧ (Char.ofNat (48 + d)).toNat - 48 = d := by decide
  have each (fuel n : Nat) (enough : n < fuel) :
      ∃ digits, (Numeral.digitsUpTo 10 fuel n).reverse = Utf8.encode digits ∧ digits ≠ [] ∧
        (∀ c ∈ digits, c.isDigit = true) ∧ decimalValue digits = n := by
    induction fuel generalizing n with
    | zero => cases enough
    | succ fuel ih =>
      unfold Numeral.digitsUpTo
      split
      · rename_i small
        obtain ⟨shown, kind, value⟩ := digit n small
        refine ⟨[Char.ofNat (48 + n)], by simpa using shown.symm, List.cons_ne_nil _ _, ?_, ?_⟩
        · simpa using kind
        · simpa [decimalValue] using value
      · obtain ⟨digits, shown, _, kinds, value⟩ := ih (n / 10) (by omega)
        obtain ⟨last, kind, least⟩ := digit (n % 10) (Nat.mod_lt _ (by decide))
        refine ⟨digits ++ [Char.ofNat (48 + n % 10)], ?_, by simp, ?_, ?_⟩
        · rw [List.reverse_cons, shown, Utf8.encode_append, last]
        · intro c member
          rcases List.mem_append.mp member with inside | final
          · exact kinds c inside
          · rw [List.mem_singleton.mp final]
            exact kind
        · rw [decimalValue_append, value, least]
          omega
  exact each (n + 1) n (Nat.lt_succ_self n)

/-- Whether a character of a literal is shown by a lexeme: printable characters, newlines and
tabs. -/
def isShown (c : Char) : Bool := Text.isPrintable c || c == '\n' || c == '\t'

/-- How a character is shown between quotes. -/
theorem escapeChar_cases (quote : Char) {c : Char} (shown : isShown c = true) :
    ((c = quote ∨ c = '\\') ∧ Quoted.escapeChar quote c = Utf8.encode ['\\', c]) ∨
      (c ≠ quote ∧ c ≠ '\\' ∧ c ≠ '\n' ∧ Quoted.escapeChar quote c = Utf8.encode [c]) ∨
      ∃ letter, Escape letter c ∧ Quoted.escapeChar quote c = Utf8.encode ['\\', letter] := by
  by_cases special : c = quote ∨ c = '\\'
  · refine .inl ⟨special, ?_⟩
    rw [Quoted.escapeChar, if_pos special]
    simp [Utf8.encode]
    rfl
  · have apart := not_or.mp special
    by_cases printable : Text.isPrintable c = true
    · refine .inr (.inl ⟨apart.1, apart.2, ?_, ?_⟩)
      · rintro rfl
        exact absurd printable (by decide)
      · rw [Quoted.escapeChar, if_neg special, if_pos printable]
        simp [Utf8.encode]
    · simp only [isShown, printable, Bool.false_or, Bool.or_eq_true, beq_iff_eq] at shown
      rcases shown with rfl | rfl
      · refine .inr (.inr ⟨'n', .newline, ?_⟩)
        rw [Quoted.escapeChar, if_neg special, if_neg printable]
        rfl
      · refine .inr (.inr ⟨'t', .tab, ?_⟩)
        rw [Quoted.escapeChar, if_neg special, if_neg printable]
        rfl

private theorem encode_between (quote : Char) (raw : List Char) :
    Utf8.encode (quote :: (raw ++ [quote])) =
      Utf8.encode [quote] ++ (Utf8.encode raw ++ Utf8.encode [quote]) := by
  rw [← Utf8.encode_append, ← Utf8.encode_append, List.singleton_append]

/-- Strings are shown by lexemes. -/
theorem exists_contents {text : List Char} (shown : ∀ c ∈ text, isShown c = true) :
    ∃ raw, Quoted.text (Utf8.encode text) = Utf8.encode ('"' :: (raw ++ ['"'])) ∧
      Contents raw text := by
  have each : ∃ raw, text.flatMap (Quoted.escapeChar '"') = Utf8.encode raw ∧
      Contents raw text := by
    induction text with
    | nil => exact ⟨[], rfl, .nil⟩
    | cons c text ih =>
      obtain ⟨raw, same, contents⟩ := ih fun c member => shown c (List.mem_cons_of_mem _ member)
      rcases escapeChar_cases '"' (shown c (List.mem_cons_self ..)) with ⟨special, escaped⟩ |
        ⟨quote, backslash, newline, plain⟩ | ⟨letter, known, escaped⟩
      · refine ⟨['\\', c] ++ raw, by rw [List.flatMap_cons, escaped, same, Utf8.encode_append], ?_⟩
        rcases special with rfl | rfl
        · exact .escape .quote contents
        · exact .escape .backslash contents
      · exact ⟨[c] ++ raw, by rw [List.flatMap_cons, plain, same, Utf8.encode_append],
          .plain quote backslash newline contents⟩
      · exact ⟨['\\', letter] ++ raw,
          by rw [List.flatMap_cons, escaped, same, Utf8.encode_append], .escape known contents⟩
  obtain ⟨raw, same, contents⟩ := each
  refine ⟨raw, ?_, contents⟩
  have segments : (Utf8.segments (Utf8.encode text)).flatMap (Quoted.escapeSegment '"') =
      text.flatMap (Quoted.escapeChar '"') := by
    simp [Utf8.segments_encode, List.flatMap_map, Quoted.escapeSegment]
  rw [Quoted.text, segments, same, encode_between]
  rfl

theorem Character.narrow {raw : List Char} {c : Char} (known : Character raw c) :
    c.toNat < 0x80 := by
  cases known with
  | plain _ _ _ narrow => exact narrow
  | escape known => exact escape_narrow known

theorem Character.ne_quote {raw : List Char} {c : Char} (known : Character raw c) : c ≠ '\'' := by
  cases known with
  | plain quote _ _ _ => exact quote
  | escape known => rcases known with _ | _ | _ | _ <;> decide

/-- The code of a character literal is that of its character. -/
theorem Character.charOfCode {raw : List Char} {c : Char} (known : Character raw c) :
    Quoted.charOfCode (Int32.ofNat c.toNat).toInt = c := by
  have narrow := known.narrow
  have valid : c.toNat.isValidChar := c.valid
  rw [Int32.toInt_ofNat_of_lt (by omega), Quoted.charOfCode, if_neg (by omega), Int.toNat_natCast,
    dif_pos valid]
  exact Char.ext rfl

/-- The characters of literals are shown by lexemes. -/
theorem exists_character {raw : List Char} {c : Char} (known : Character raw c)
    (shown : isShown c = true) :
    ∃ raw, Quoted.char c = Utf8.encode ('\'' :: (raw ++ ['\''])) ∧ Character raw c := by
  have each : ∃ raw, Quoted.escapeChar '\'' c = Utf8.encode raw ∧ Character raw c := by
    rcases escapeChar_cases '\'' shown with ⟨special, escaped⟩ |
      ⟨quote, backslash, newline, plain⟩ | ⟨letter, written, escaped⟩
    · obtain rfl := special.resolve_left known.ne_quote
      exact ⟨_, escaped, .escape .backslash⟩
    · exact ⟨_, plain, .plain quote backslash newline known.narrow⟩
    · exact ⟨_, escaped, .escape written⟩
  obtain ⟨raw, same, character⟩ := each
  refine ⟨raw, ?_, character⟩
  rw [Quoted.char, same, encode_between]
  rfl

end Onepass.Lexeme
