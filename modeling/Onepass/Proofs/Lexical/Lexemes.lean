import Onepass.Proofs.Grammar.Program

/-! The lexical grammar, and the reading of one lexeme. What is read as a token is the longest
lexeme of the grammar at the head of the text, and the token holds what the lexeme stands for. -/
namespace Onepass

namespace Lexeme

/-- What a character after a backslash stands for. -/
inductive Escape : Char → Char → Prop where
  | backslash : Escape '\\' '\\'
  | newline : Escape 'n' '\n'
  | tab : Escape 't' '\t'
  | quote : Escape '"' '"'

/-- What stands between the quotes of a string literal, with the text it stands for. Other escapes
than the known ones keep their backslash. -/
inductive Contents : List Char → List Char → Prop where
  | nil : Contents [] []
  | plain {c : Char} {raw text : List Char} (quote : c ≠ '"') (backslash : c ≠ '\\')
      (newline : c ≠ '\n') (later : Contents raw text) : Contents (c :: raw) (c :: text)
  | escape {c decoded : Char} {raw text : List Char} (known : Escape c decoded)
      (later : Contents raw text) : Contents ('\\' :: c :: raw) (decoded :: text)
  | kept {c : Char} {raw text : List Char} (unknown : ∀ decoded, ¬ Escape c decoded)
      (newline : c ≠ '\n') (later : Contents raw text) :
      Contents ('\\' :: c :: raw) ('\\' :: c :: text)

/-- What stands between the quotes of a character literal, with the character it stands for. -/
inductive Character : List Char → Char → Prop where
  | plain {c : Char} (quote : c ≠ '\'') (backslash : c ≠ '\\') (newline : c ≠ '\n')
      (narrow : c.toNat < 0x80) : Character [c] c
  | escape {c decoded : Char} (known : Escape c decoded) : Character ['\\', c] decoded

/-- The operators and punctuation marks. -/
def operators : List (List Char) :=
  [['+'], ['-'], ['*'], ['/'], ['('], [')'], ['\x7b'], ['\x7d'], ['['], [']'], [','], ['<'], ['>'],
    ['='], ['<', '='], ['>', '='], ['=', '='], ['!', '=']]

/-- The lexical grammar: the lexemes with the tokens they stand for, wherever these stand. -/
inductive Spells : List Char → Token → Prop where
  | int {digits : List Char} {p : Position} (some : digits ≠ [])
      (all : ∀ c ∈ digits, c.isDigit = true) :
      Spells digits ⟨.int, Utf8.encode digits, Int32.ofNat (decimalValue digits), p⟩
  | ident {first : Char} {rest : List Char} {p : Position} (letter : isLetter first = true)
      (all : ∀ c ∈ rest, (isLetter c || c.isDigit) = true)
      (other : Token.keywords.contains (Utf8.encode (first :: rest)) = false) :
      Spells (first :: rest) ⟨.ident, Utf8.encode (first :: rest), 0, p⟩
  | keyword {first : Char} {rest : List Char} {p : Position} (letter : isLetter first = true)
      (all : ∀ c ∈ rest, (isLetter c || c.isDigit) = true)
      (reserved : Token.keywords.contains (Utf8.encode (first :: rest)) = true) :
      Spells (first :: rest) ⟨.keyword, Utf8.encode (first :: rest), 0, p⟩
  | op {symbol : List Char} {p : Position} (known : symbol ∈ operators) :
      Spells symbol ⟨.op, Utf8.encode symbol, 0, p⟩
  | char {raw : List Char} {c : Char} {p : Position} (contents : Character raw c) :
      Spells ('\'' :: (raw ++ ['\''])) ⟨.char, Utf8.encode [c], Int32.ofNat c.toNat, p⟩
  | string {raw text : List Char} {p : Position} (contents : Contents raw text) :
      Spells ('"' :: (raw ++ ['"'])) ⟨.string, Utf8.encode text, 0, p⟩

/-- Whether the number that a lexeme writes, if it is one, fits a signed word. -/
def InRange (lexeme : List Char) (token : Token) : Prop :=
  token.kind = .int → decimalValue lexeme < 0x80000000

/-- Whether no lexeme at the head of a text is longer than this one. -/
def IsLongest (lexeme text : List Char) : Prop :=
  ∀ other token, Spells other token → other <+: text → other.length ≤ lexeme.length

/-! Escapes and contents. -/

theorem escaped?_eq_some {c decoded : Char} : escaped? c = some decoded ↔ Escape c decoded := by
  constructor
  · intro found
    unfold escaped? at found
    split at found <;> cases found
    · exact .backslash
    · exact .newline
    · exact .tab
    · exact .quote
  · rintro (_ | _ | _ | _) <;> rfl

theorem escaped?_eq_none {c : Char} : escaped? c = none ↔ ∀ decoded, ¬ Escape c decoded := by
  rw [Option.eq_none_iff_forall_ne_some]
  exact forall_congr' fun decoded => not_congr escaped?_eq_some

/-- A string is read up to its closing quote. -/
theorem stringBody_of_contents {raw text : List Char} (contents : Contents raw text)
    (rest : List Char) : stringBody (raw ++ '"' :: rest) = (some text, raw.length + 1) := by
  induction contents with
  | nil => rfl
  | plain quote backslash newline _ ih =>
    rw [List.cons_append, stringBody.eq_4 _ _ quote fun _ _ same => absurd same backslash,
      if_neg newline, ih]
    rfl
  | escape known _ ih =>
    rw [List.cons_append, List.cons_append, stringBody.eq_3, escaped?_eq_some.mpr known]
    simp only [ih]
    rfl
  | @kept c raw text unknown newline _ ih =>
    rw [List.cons_append, List.cons_append, stringBody.eq_3, escaped?_eq_none.mpr unknown]
    by_cases ends : endsEscape c = true
    · obtain rfl : c = '\x00' := by simpa [endsEscape, newline] using ends
      have next : stringBody ('\x00' :: (raw ++ '"' :: rest)) =
          (some ('\x00' :: text), raw.length + 1 + 1) := by
        rw [stringBody.eq_4 _ _ (by decide) fun _ _ same => absurd same (by decide),
          if_neg newline, ih]
        rfl
      simp only [if_pos ends, next]
      rfl
    · simp only [if_neg ends, ih]
      rfl

/-- What is read as a string has contents of the grammar. -/
theorem contents_of_stringBody {source text : List Char} {read : Nat}
    (success : stringBody source = (some text, read)) :
    ∃ raw rest, source = raw ++ '"' :: rest ∧ read = raw.length + 1 ∧ Contents raw text := by
  induction source using stringBody.induct generalizing text read with
  | case1 => cases success
  | case2 rest =>
    cases success
    exact ⟨[], rest, rfl, rfl, .nil⟩
  | case3 c rest decoded known inner count here ih =>
    simp only [stringBody.eq_3, known, here, Prod.mk.injEq, Option.map_eq_some_iff] at success
    obtain ⟨⟨inner, rfl, rfl⟩, rfl⟩ := success
    obtain ⟨raw, others, rfl, rfl, contents⟩ := ih here
    exact ⟨'\\' :: c :: raw, others, rfl, rfl, .escape (escaped?_eq_some.mp known) contents⟩
  | case4 c rest unknown ends inner count here ih =>
    simp only [stringBody.eq_3, unknown, if_pos ends, here, Prod.mk.injEq,
      Option.map_eq_some_iff] at success
    obtain ⟨⟨inner, rfl, rfl⟩, rfl⟩ := success
    obtain ⟨raw, others, same, rfl, contents⟩ := ih here
    -- The character after the backslash is read again, as a plain one.
    have newline : c ≠ '\n' := by
      rintro rfl
      rw [stringBody.eq_4 _ _ (by decide) fun _ _ same => absurd same (by decide)] at here
      cases here
    obtain rfl : c = '\x00' := by simpa [endsEscape, newline] using ends
    cases contents with
    | nil => cases same
    | plain _ _ _ later =>
      obtain ⟨rfl, rfl⟩ := List.cons.inj same
      exact ⟨_, others, rfl, rfl, .kept (escaped?_eq_none.mp unknown) newline later⟩
    | escape | kept => cases same
  | case5 c rest unknown ends inner count here ih =>
    simp only [stringBody.eq_3, unknown, if_neg ends, here, Prod.mk.injEq,
      Option.map_eq_some_iff] at success
    obtain ⟨⟨inner, rfl, rfl⟩, rfl⟩ := success
    obtain ⟨raw, others, rfl, rfl, contents⟩ := ih here
    have newline : c ≠ '\n' := by
      rintro rfl
      exact ends rfl
    exact ⟨'\\' :: c :: raw, others, rfl, rfl, .kept (escaped?_eq_none.mp unknown) newline contents⟩
  | case6 rest quote backslash =>
    rw [stringBody.eq_4 _ _ quote backslash] at success
    cases success
  | case7 c rest quote backslash newline inner count here ih =>
    simp only [stringBody.eq_4 _ _ quote backslash, if_neg newline, here, Prod.mk.injEq,
      Option.map_eq_some_iff] at success
    obtain ⟨⟨inner, rfl, rfl⟩, rfl⟩ := success
    obtain ⟨raw, others, rfl, rfl, contents⟩ := ih here
    have plain : c ≠ '\\' := by
      rintro rfl
      cases raw with
      | nil => exact backslash _ _ rfl rfl
      | cons first raw => exact backslash _ _ rfl rfl
    exact ⟨c :: raw, others, rfl, rfl, .plain quote plain newline contents⟩

theorem escape_narrow {c decoded : Char} (known : Escape c decoded) : decoded.toNat < 0x80 := by
  rcases known with _ | _ | _ | _ <;> decide

/-- A character literal is read up to its closing quote. -/
theorem character_of_contents {raw : List Char} {c : Char} (contents : Character raw c)
    (rest : List Char) :
    character (raw ++ '\'' :: rest) =
      ⟨raw.length + 2, .ok ⟨.char, Utf8.encode [c], Int32.ofNat c.toNat, .start⟩⟩ := by
  cases contents with
  | plain quote backslash newline narrow =>
    simp only [List.cons_append, List.nil_append, character, closeCharacter, if_pos narrow]
    rfl
  | escape known =>
    have found := escaped?_eq_some.mpr known
    have narrow := escape_narrow known
    simp only [List.cons_append, List.nil_append, character, Lexeme.escape, found, List.drop_one,
      List.tail_cons, closeCharacter, if_pos narrow]
    rfl

theorem contents_of_character {source : List Char} {token : Token}
    (success : (character source).token = .ok token) :
    ∃ raw c rest, source = raw ++ '\'' :: rest ∧ Character raw c ∧
      token = ⟨.char, Utf8.encode [c], Int32.ofNat c.toNat, .start⟩ := by
  have closes {contents others : List Char} {read : Nat}
      (success : (closeCharacter contents read others).token = .ok token) :
      ∃ c rest, others = '\'' :: rest ∧ contents = [c] ∧ c.toNat < 0x80 ∧
        token = ⟨.char, Utf8.encode [c], Int32.ofNat c.toNat, .start⟩ := by
    unfold closeCharacter at success
    split at success
    · rename_i rest
      split at success
      · rename_i c
        split at success
        · rename_i narrow
          cases success
          exact ⟨c, rest, rfl, rfl, narrow, rfl⟩
        · cases success
      · cases success
    · cases success
  unfold character at success
  split at success
  · cases success
  · cases success
  · cases success
  · rename_i rest
    cases rest with
    | nil =>
      obtain ⟨_, _, impossible, _⟩ := closes success
      cases impossible
    | cons c rest =>
      simp only [Lexeme.escape] at success
      split at success
      · rename_i decoded found
        obtain ⟨_, others, same, single, _, rfl⟩ := closes success
        cases single
        rw [List.drop_one, List.tail_cons] at same
        subst same
        exact ⟨['\\', c], decoded, others, rfl, .escape (escaped?_eq_some.mp found), rfl⟩
      · split at success
        · rename_i ends
          obtain ⟨_, others, same, single, _⟩ := closes success
          cases same
          simp [endsEscape] at ends
        · obtain ⟨_, _, _, single, _⟩ := closes success
          cases single
  · rename_i c rest newline quote backslash
    obtain ⟨_, others, rfl, single, narrow, rfl⟩ := closes success
    cases single
    exact ⟨[c], c, others, rfl, .plain quote backslash newline narrow, rfl⟩

/-! Runs of characters, and operators. -/

theorem prefix_takeWhile {kind : Char → Bool} {lexeme text : List Char}
    (all : ∀ c ∈ lexeme, kind c = true) (here : lexeme <+: text) :
    lexeme <+: text.takeWhile kind := by
  obtain ⟨rest, rfl⟩ := here
  rw [List.takeWhile_append_of_pos all]
  exact List.prefix_append ..

/-- A comparison sign is read together with an equals sign after it. -/
private theorem take_comparison {c : Char} (sign : c ∈ ['<', '>', '=']) (rest : List Char) :
    (c :: rest).take (if rest.head? = some '=' then 2 else 1) ∈ operators ∧
      (if rest.head? = some '=' then 2 else 1) ≤ (c :: rest).length := by
  simp only [List.mem_cons, List.not_mem_nil, or_false] at sign
  split
  · rename_i equals
    obtain ⟨others, rfl⟩ : ∃ others, rest = '=' :: others := by
      cases rest with
      | nil => cases equals
      | cons d others =>
        cases equals
        exact ⟨others, rfl⟩
    rcases sign with rfl | rfl | rfl <;> simp [operators]
  · rcases sign with rfl | rfl | rfl <;> simp [operators]

theorem mem_of_operatorLength? {text : List Char} {n : Nat} (found : operatorLength? text = some n) :
    text.take n ∈ operators ∧ n ≤ text.length := by
  unfold operatorLength? at found
  split at found
  · cases found
    simp [operators]
  · rename_i c rest _
    split at found
    · rename_i mark
      cases found
      simp only [List.mem_cons, List.not_mem_nil, or_false] at mark
      rcases mark with rfl | rfl | rfl | rfl | rfl | rfl | rfl | rfl | rfl | rfl | rfl <;>
        simp [operators]
    · split at found
      · rename_i sign
        cases found
        exact take_comparison sign rest
      · cases found
  · cases found

/-- An operator is read at least as far as it goes. -/
theorem operatorLength?_of_mem {symbol : List Char} (known : symbol ∈ operators) (rest : List Char) :
    ∃ n, operatorLength? (symbol ++ rest) = some n ∧ symbol.length ≤ n := by
  have sign {c : Char} (comparison : c ∈ ['<', '>', '=']) :
      ∃ n, operatorLength? ([c] ++ rest) = some n ∧ [c].length ≤ n := by
    refine ⟨if rest.head? = some '=' then 2 else 1, ?_, ?_⟩
    · simp only [List.mem_cons, List.not_mem_nil, or_false] at comparison
      rcases comparison with rfl | rfl | rfl <;> rfl
    · split <;> simp
  simp only [operators, List.mem_cons, List.not_mem_nil, or_false] at known
  rcases known with rfl | rfl | rfl | rfl | rfl | rfl | rfl | rfl | rfl | rfl | rfl | rfl | rfl |
    rfl | rfl | rfl | rfl | rfl
  iterate 11 exact ⟨1, rfl, le_refl _⟩
  iterate 3 exact sign (by decide)
  iterate 4 exact ⟨2, rfl, le_refl _⟩

/-! One lexeme. -/

/-- The first character of an operator is none of those that start something else. -/
private theorem operator_head {symbol : List Char} (known : symbol ∈ operators) :
    ∃ first rest, symbol = first :: rest ∧ first.isDigit = false ∧ isLetter first = false ∧
      first ≠ '"' ∧ first ≠ '\'' ∧ Text.isBlank first = false ∧ first ≠ '#' := by
  simp only [operators, List.mem_cons, List.not_mem_nil, or_false] at known
  rcases known with rfl | rfl | rfl | rfl | rfl | rfl | rfl | rfl | rfl | rfl | rfl | rfl | rfl |
    rfl | rfl | rfl | rfl | rfl <;> exact ⟨_, _, rfl, by decide⟩

theorem not_isDigit_of_isLetter {c : Char} (letter : isLetter c = true) : c.isDigit = false := by
  simp only [isLetter, Char.isAlpha, Char.isUpper, Char.isLower, Bool.or_eq_true, Bool.and_eq_true,
    decide_eq_true_eq, beq_iff_eq, ge_iff_le, UInt32.le_iff_toNat_le] at letter
  simp only [Char.isDigit, Bool.and_eq_false_iff, decide_eq_false_iff_not, ge_iff_le,
    UInt32.le_iff_toNat_le]
  rcases letter with (upper | lower) | rfl
  · exact .inr (Nat.not_le.mpr (Nat.lt_of_lt_of_le (by decide) upper.1))
  · exact .inr (Nat.not_le.mpr (Nat.lt_of_lt_of_le (by decide) lower.1))
  · decide

section

variable {first : Char} {rest lexeme : List Char} {token : Token}

theorem ofChars_of_digit (digit : first.isDigit = true) :
    ofChars first rest = number (first :: rest) := by
  simp [ofChars, digit]

theorem ofChars_of_letter (letter : isLetter first = true) :
    ofChars first rest = word (first :: rest) := by
  simp [ofChars, not_isDigit_of_isLetter letter, letter]

theorem ofChars_quote : ofChars '"' rest = string rest := rfl

theorem ofChars_apostrophe : ofChars '\'' rest = character rest := rfl

theorem ofChars_of_operator {n : Nat} (digit : first.isDigit = false)
    (letter : isLetter first = false) (quote : first ≠ '"') (apostrophe : first ≠ '\'')
    (found : operatorLength? (first :: rest) = some n) :
    ofChars first rest =
      ⟨n, .ok ⟨.op, Utf8.encode ((first :: rest).take n), 0, .start⟩⟩ := by
  simp [ofChars, digit, letter, quote, apostrophe, found]

private theorem take_takeWhile (kind : Char → Bool) (text : List Char) :
    text.take (text.takeWhile kind).length = text.takeWhile kind :=
  (List.prefix_iff_eq_take.mp (List.takeWhile_prefix kind)).symm

private theorem spells_number (digit : first.isDigit = true) :
    Spells ((first :: rest).takeWhile Char.isDigit)
      ⟨.int, Utf8.encode ((first :: rest).takeWhile Char.isDigit),
        Int32.ofNat (decimalValue ((first :: rest).takeWhile Char.isDigit)), .start⟩ :=
  .int (by simp [digit]) fun _ member => List.mem_takeWhile_imp member

private theorem spells_word (letter : isLetter first = true) (rest : List Char) :
    ∃ name token, (first :: rest).takeWhile (fun c => isLetter c || c.isDigit) = name ∧
      (word (first :: rest)).token = .ok token ∧ Spells name token ∧ token.kind ≠ .int ∧
      token.position = .start := by
  have run : (first :: rest).takeWhile (fun c => isLetter c || c.isDigit) =
      first :: rest.takeWhile fun c => isLetter c || c.isDigit := by simp [letter]
  have all : ∀ c ∈ rest.takeWhile (fun c => isLetter c || c.isDigit),
      (isLetter c || c.isDigit) = true := fun c member => by
    simpa using List.mem_takeWhile_imp member
  refine ⟨_, _, run, rfl, ?_, ?_, rfl⟩
  · rw [run]
    split
    · rename_i reserved
      exact .keyword letter all reserved
    · rename_i other
      exact .ident letter all (Bool.not_eq_true _ ▸ other)
  · split <;> simp

/-- What is read as a token is a lexeme of the grammar. -/
theorem spells_of_ofChars (success : (ofChars first rest).token = .ok token) :
    Spells ((first :: rest).take (ofChars first rest).length) token ∧
      InRange ((first :: rest).take (ofChars first rest).length) token ∧
      token.position = .start ∧ (ofChars first rest).length ≤ (first :: rest).length := by
  by_cases digit : first.isDigit = true
  · rw [ofChars_of_digit digit] at success ⊢
    simp only [number, take_takeWhile] at success ⊢
    split at success
    · rename_i small
      cases success
      exact ⟨spells_number digit, fun _ => small, rfl, (List.takeWhile_prefix _).length_le⟩
    · cases success
  by_cases letter : isLetter first = true
  · rw [ofChars_of_letter letter] at success ⊢
    obtain ⟨name, other, run, found, spells, kind, position⟩ := spells_word letter rest
    obtain rfl := Except.ok.inj (found.symm.trans success)
    simp only [word, take_takeWhile]
    rw [run]
    exact ⟨spells, fun int => absurd int kind, position, run ▸ (List.takeWhile_prefix _).length_le⟩
  by_cases quote : first = '"'
  · subst quote
    rw [ofChars_quote] at success ⊢
    rcases body : stringBody rest with ⟨_ | text, read⟩
    · simp only [string, body] at success
      cases success
    · obtain ⟨raw, others, rfl, rfl, contents⟩ := contents_of_stringBody body
      simp only [string, body, Except.ok.injEq] at success ⊢
      subst success
      have cut : ('"' :: (raw ++ '"' :: others)).take (raw.length + 1 + 1) =
          '"' :: (raw ++ ['"']) := by simp [List.take_append]
      rw [cut]
      exact ⟨.string contents, fun int => (by cases int), rfl, by simp⟩
  by_cases apostrophe : first = '\''
  · subst apostrophe
    rw [ofChars_apostrophe] at success ⊢
    obtain ⟨raw, c, others, rfl, contents, rfl⟩ := contents_of_character success
    rw [character_of_contents contents]
    have cut : ('\'' :: (raw ++ '\'' :: others)).take (raw.length + 2) =
        '\'' :: (raw ++ ['\'']) := by simp [List.take_append]
    rw [cut]
    exact ⟨.char contents, fun int => (by cases int), rfl, by simp⟩
  cases found : operatorLength? (first :: rest) with
  | none => simp [ofChars, digit, letter, quote, apostrophe, found] at success
  | some n =>
    rw [Bool.not_eq_true] at digit letter
    rw [ofChars_of_operator digit letter quote apostrophe found] at success ⊢
    cases success
    obtain ⟨known, inside⟩ := mem_of_operatorLength? found
    exact ⟨.op known, fun int => (by cases int), rfl, inside⟩

/-- What is known of the reading of a text that starts with a lexeme: it goes at least as far, to the
end of a lexeme; and if it goes no further it gives the token of the lexeme. -/
structure Reads (lexeme : List Char) (token : Token) (text : List Char) (found : Lexeme) : Prop where
  covers : lexeme.length ≤ found.length
  inside : found.length ≤ text.length
  ends : ∃ other, Spells (text.take found.length) other
  same : lexeme.length = found.length → InRange lexeme token →
    found.token = .ok { token with position := .start }

private theorem Reads.word (letter : isLetter first = true)
    (all : ∀ c ∈ rest, (isLetter c || c.isDigit) = true) (others : List Char)
    (kind : token.kind = if Token.keywords.contains (Utf8.encode (first :: rest)) then .keyword
      else .ident) (text : token.text = Utf8.encode (first :: rest)) (value : token.value = 0) :
    Reads (first :: rest) token (first :: rest ++ others) (word (first :: rest ++ others)) := by
  have whole : ∀ c ∈ first :: rest, (isLetter c || c.isDigit) = true := by simpa [letter] using all
  have inside := prefix_takeWhile whole (List.prefix_append _ others)
  refine ⟨inside.length_le, (List.takeWhile_prefix _).length_le, ?_, fun same _ => ?_⟩
  · obtain ⟨name, found, run, _, spells, _⟩ := spells_word letter (rest ++ others)
    refine ⟨found, ?_⟩
    simp only [Lexeme.word, take_takeWhile]
    exact run ▸ spells
  · have run := inside.eq_of_length same
    simp only [Lexeme.word, ← run]
    rw [kind, text, value]

/-- Lexemes at the head of a text. -/
theorem reads_ofChars (spells : Spells lexeme token) (here : lexeme <+: first :: rest) :
    Reads lexeme token (first :: rest) (ofChars first rest) := by
  obtain ⟨others, whole⟩ := here
  cases spells with
  | @int _ p nonempty all =>
    obtain ⟨c, lexeme, rfl⟩ := List.exists_cons_of_ne_nil nonempty
    obtain ⟨rfl, rfl⟩ := List.cons.inj whole
    have digit : c.isDigit = true := all c (List.mem_cons_self ..)
    have inside := prefix_takeWhile all (List.prefix_append _ others)
    rw [ofChars_of_digit digit]
    refine ⟨inside.length_le, (List.takeWhile_prefix _).length_le, ?_, fun same range => ?_⟩
    · simp only [number, take_takeWhile]
      exact ⟨_, spells_number digit⟩
    · have run := inside.eq_of_length same
      have small := range rfl
      simp only [number, List.append_eq]
      rw [← List.cons_append, ← run, if_pos small]
  | ident letter all other =>
    obtain ⟨rfl, rfl⟩ := List.cons.inj whole
    rw [ofChars_of_letter letter]
    exact .word letter all others (by rw [other]; rfl) rfl rfl
  | keyword letter all reserved =>
    obtain ⟨rfl, rfl⟩ := List.cons.inj whole
    rw [ofChars_of_letter letter]
    exact .word letter all others (by rw [reserved]; rfl) rfl rfl
  | op known =>
    obtain ⟨c, symbol, rfl, digit, letter, quote, apostrophe, _⟩ := operator_head known
    obtain ⟨rfl, rfl⟩ := List.cons.inj whole
    obtain ⟨n, found, covers⟩ := operatorLength?_of_mem known others
    rw [ofChars_of_operator digit letter quote apostrophe found]
    obtain ⟨longer, inside⟩ := mem_of_operatorLength? found
    refine ⟨covers, inside, ⟨⟨.op, _, 0, .start⟩, .op longer⟩, fun same _ => ?_⟩
    obtain rfl : (c :: symbol).length = n := same
    have cut : (c :: symbol.append others).take (c :: symbol).length = c :: symbol := by
      rw [List.append_eq, ← List.cons_append, List.take_left]
    dsimp only
    rw [cut]
  | @char raw c p contents =>
    obtain ⟨rfl, rfl⟩ := List.cons.inj whole
    have closed : (raw ++ ['\'']).append others = raw ++ '\'' :: others := by simp
    rw [closed, ofChars_apostrophe, character_of_contents contents]
    refine ⟨by simp, by simp, ⟨⟨.char, Utf8.encode [c], Int32.ofNat c.toNat, .start⟩, ?_⟩, fun _ _ => rfl⟩
    have cut : ('\'' :: (raw ++ '\'' :: others)).take (raw.length + 2) =
        '\'' :: (raw ++ ['\'']) := by simp [List.take_append]
    rw [cut]
    exact .char contents
  | @string raw text p contents =>
    obtain ⟨rfl, rfl⟩ := List.cons.inj whole
    have closed : (raw ++ ['"']).append others = raw ++ '"' :: others := by simp
    have body := stringBody_of_contents contents others
    rw [closed, ofChars_quote]
    simp only [string, body]
    refine ⟨by simp, by simp, ⟨⟨.string, Utf8.encode text, 0, .start⟩, ?_⟩, fun _ _ => rfl⟩
    have cut : ('"' :: (raw ++ '"' :: others)).take (raw.length + 1 + 1) =
        '"' :: (raw ++ ['"']) := by simp [List.take_append]
    rw [cut]
    exact .string contents

/-- The lexeme that is read is the longest one. -/
theorem isLongest_of_ofChars (success : (ofChars first rest).token = .ok token) :
    IsLongest ((first :: rest).take (ofChars first rest).length) (first :: rest) := by
  intro other found spells here
  obtain ⟨_, _, _, inside⟩ := spells_of_ofChars success
  rw [List.length_take, Nat.min_eq_left inside]
  exact (reads_ofChars spells here).covers

/-- The longest lexeme is the one that is read. -/
theorem ofChars_of_isLongest (spells : Spells lexeme token) (range : InRange lexeme token)
    {others : List Char} (here : lexeme ++ others = first :: rest)
    (longest : IsLongest lexeme (lexeme ++ others)) :
    ofChars first rest = ⟨lexeme.length, .ok { token with position := .start }⟩ := by
  have reads := reads_ofChars spells ⟨others, here⟩
  obtain ⟨other, ends⟩ := reads.ends
  have shorter := longest _ other ends (here ▸ List.take_prefix ..)
  rw [List.length_take, Nat.min_eq_left reads.inside] at shorter
  have same := Nat.le_antisymm reads.covers shorter
  have found := reads.same same range
  rw [same]
  exact congrArg (Lexeme.mk _) found

end

/-! How lexemes start. -/

theorem not_isBlank {c : Char} (low : 33 ≤ c.toNat) (high : c.toNat < 0x80) :
    Text.isBlank c = false := by
  simp [Text.isBlank]
  omega

/-- A lexeme starts with a character that is neither blank nor opens a comment. -/
theorem Spells.head {lexeme : List Char} {token : Token} (spells : Spells lexeme token) :
    ∃ first rest, lexeme = first :: rest ∧ Text.isBlank first = false ∧ first ≠ '#' := by
  have visible {c : Char} (kind : c.isDigit = true ∨ isLetter c = true) :
      Text.isBlank c = false ∧ c ≠ '#' := by
    have bounds : 48 ≤ c.toNat ∧ c.toNat < 0x80 := by
      simp only [isLetter, Char.isAlpha, Char.isUpper, Char.isLower, Char.isDigit, Bool.or_eq_true,
        Bool.and_eq_true, decide_eq_true_eq, beq_iff_eq, ge_iff_le,
        UInt32.le_iff_toNat_le] at kind
      rcases kind with digit | (upper | lower) | rfl
      · exact ⟨digit.1, Nat.lt_of_le_of_lt digit.2 (by decide)⟩
      · exact ⟨Nat.le_trans (by decide) upper.1, Nat.lt_of_le_of_lt upper.2 (by decide)⟩
      · exact ⟨Nat.le_trans (by decide) lower.1, Nat.lt_of_le_of_lt lower.2 (by decide)⟩
      · decide
    refine ⟨not_isBlank (by omega) bounds.2, ?_⟩
    rintro rfl
    exact absurd bounds.1 (by decide)
  cases spells with
  | int nonempty all =>
    obtain ⟨c, rest, rfl⟩ := List.exists_cons_of_ne_nil nonempty
    exact ⟨c, rest, rfl, visible (.inl (all c (List.mem_cons_self ..)))⟩
  | ident letter | keyword letter => exact ⟨_, _, rfl, visible (.inr letter)⟩
  | op known =>
    obtain ⟨first, rest, rfl, _, _, _, _, white, comment⟩ := operator_head known
    exact ⟨first, rest, rfl, white, comment⟩
  | char | string => exact ⟨_, _, rfl, by decide⟩

/-- A lexeme stands for a token that is not the end, at any position. -/
theorem Spells.moved {lexeme : List Char} {token : Token} (spells : Spells lexeme token)
    (p : Position) : Spells lexeme { token with position := p } ∧ token.kind ≠ .eof := by
  cases spells with
  | int nonempty all => exact ⟨.int nonempty all, nofun⟩
  | ident letter all other => exact ⟨.ident letter all other, nofun⟩
  | keyword letter all reserved => exact ⟨.keyword letter all reserved, nofun⟩
  | op known => exact ⟨.op known, nofun⟩
  | char contents => exact ⟨.char contents, nofun⟩
  | string contents => exact ⟨.string contents, nofun⟩

end Lexeme

end Onepass
