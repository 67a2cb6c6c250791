import Onepass.Proofs.Lexical.Lexemes

/-! Texts without lexical faults fall into lexemes with white space and comments between them. The
position of a token counts the lines and the characters before its lexeme. -/
namespace Onepass

namespace Lexeme

/-- White space and comments before the rest of a text. A comment runs to just before the end of
its line or to the end of the text. -/
inductive Separator (rest : List Char) : List Char → Prop where
  | nil : Separator rest []
  | blank {c : Char} {others : List Char} (white : Text.isBlank c = true)
      (later : Separator rest others) : Separator rest (c :: others)
  | comment {body others : List Char} (open_ : ∀ c ∈ body, c ≠ '\n')
      (ends : ∀ c, (others ++ rest).head? = some c → c = '\n') (later : Separator rest others) :
      Separator rest ('#' :: (body ++ others))

/-- Where a text after the given one stands: one line further for each line that ends before it, one
column further for each character since then. -/
def place (before : List Char) : Position :=
  ⟨1 + before.count '\n', 1 + (before.reverse.takeWhile (· != '\n')).length⟩

/-- How a text falls into lexemes and separators after some text, with the tokens. -/
inductive Partition : (before text : List Char) → List Token → Prop where
  | done {before separator : List Char} (blank : Separator [] separator) :
      Partition before separator [⟨.eof, [], 0, place (before ++ separator)⟩]
  | token {before separator lexeme rest : List Char} {t : Token} {tokens : List Token}
      (blank : Separator (lexeme ++ rest) separator) (spells : Spells lexeme t)
      (range : InRange lexeme t) (longest : IsLongest lexeme (lexeme ++ rest))
      (position : t.position = place (before ++ separator))
      (later : Partition (before ++ (separator ++ lexeme)) rest tokens) :
      Partition before (separator ++ (lexeme ++ rest)) (t :: tokens)

/-! White space and comments. -/

/-- What separators stop at: the end of the text, or a character that starts no further one. -/
def startsLexeme (rest : List Char) : Prop :=
  ∀ c, rest.head? = some c → Text.isBlank c = false ∧ c ≠ '#'

/-- What is skipped is a separator. Inside a comment the rest of its line comes first. -/
theorem separator_blank (text : List Char) :
    (∃ rest, text = blank false text ++ rest ∧ Separator rest (blank false text) ∧
      startsLexeme rest) ∧
    ∃ body others rest, blank true text = body ++ others ∧ text = body ++ others ++ rest ∧
      (∀ c ∈ body, c ≠ '\n') ∧ (∀ c, (others ++ rest).head? = some c → c = '\n') ∧
      Separator rest others ∧ startsLexeme rest := by
  induction text with
  | nil => exact ⟨⟨[], rfl, .nil, nofun⟩, [], [], [], rfl, rfl, nofun, nofun, .nil, nofun⟩
  | cons c text ih =>
    obtain ⟨⟨rest, whole, separator, stops⟩, body, others, tail, skipped, line, open_, ends, later,
      halts⟩ := ih
    refine ⟨?_, ?_⟩
    · unfold blank
      split
      · rename_i white
        exact ⟨rest, by rw [List.cons_append, ← whole], .blank white separator, stops⟩
      · rename_i white
        split
        · rename_i comment
          subst comment
          refine ⟨tail, ?_, ?_, halts⟩
          · rw [skipped, List.cons_append, ← line]
          · rw [skipped]
            exact .comment open_ ends later
        · rename_i comment
          refine ⟨c :: text, rfl, .nil, ?_⟩
          rintro _ ⟨⟩
          exact ⟨Bool.not_eq_true _ ▸ white, comment⟩
    · by_cases newline : c = '\n'
      · subst newline
        refine ⟨[], '\n' :: blank false text, rest, rfl, ?_, nofun, ?_, .blank rfl separator, stops⟩
        · rw [List.nil_append, List.cons_append, ← whole]
        · rintro _ ⟨⟩
          rfl
      · refine ⟨c :: body, others, tail, ?_, ?_, ?_, ends, later, halts⟩
        · have differ : (c != '\n') = true := by simpa using newline
          rw [blank, differ, skipped, List.cons_append]
        · rw [List.cons_append, List.cons_append, ← line]
        · simpa [newline] using open_

/-- Separators up to something else are what is skipped. -/
theorem blank_of_separator {separator rest : List Char} (separates : Separator rest separator)
    (stops : startsLexeme rest) : blank false (separator ++ rest) = separator := by
  have comment {body others : List Char} (open_ : ∀ c ∈ body, c ≠ '\n')
      (ends : ∀ c, (others ++ rest).head? = some c → c = '\n')
      (ih : blank false (others ++ rest) = others) :
      blank true (body ++ (others ++ rest)) = body ++ others := by
    induction body with
    | nil =>
      cases others with
      | nil =>
        cases rest with
        | nil => rfl
        | cons c rest =>
          obtain rfl := ends c rfl
          cases (stops '\n' rfl).1
      | cons c others =>
        obtain rfl := ends c rfl
        have white : Text.isBlank '\n' = true := rfl
        simpa [blank, white] using ih
    | cons c body inner =>
      obtain ⟨first, open_⟩ := List.forall_mem_cons.mp open_
      have differ : (c != '\n') = true := by simpa using first
      rw [List.cons_append, blank, differ, inner open_, List.cons_append]
  induction separates with
  | nil =>
    cases rest with
    | nil => rfl
    | cons c rest =>
      obtain ⟨white, comment⟩ := stops c rfl
      simp [blank, white, comment]
  | blank white _ ih => simp [blank, white, ih]
  | comment open_ ends _ ih =>
    have other : Text.isBlank '#' = false := rfl
    simp [blank, other, comment open_ ends ih]

/-! Positions. -/

theorem afterAll_append (p : Position) (first second : List Char) :
    p.afterAll (first ++ second) = (p.afterAll first).afterAll second :=
  List.foldl_append

/-- Positions count lines and characters. -/
theorem afterAll_start (text : List Char) : Position.start.afterAll text = place text := by
  induction text using List.reverseRecOn with
  | nil => rfl
  | append_singleton text c ih =>
    rw [afterAll_append, ih]
    by_cases newline : c = '\n'
    · subst newline
      simp [Position.afterAll, Position.after, place, Nat.add_assoc]
    · simp [Position.afterAll, Position.after, place, newline, Nat.add_comm]

end Lexeme

/-! Reading tokens. -/

namespace Reader

open Lexeme

variable {source : Source} {r next : Reader} {result : Except Diagnostic Token}

theorem skipBlank_of_separator {separator rest : List Char} (whole : r.rest = separator ++ rest)
    (separates : Separator rest separator) (stops : startsLexeme rest) :
    r.skipBlank = ⟨rest, r.position.afterAll separator⟩ := by
  rw [skipBlank, whole, blank_of_separator separates stops, advance, whole, List.drop_left,
    List.take_left]

/-- What is skipped before a token. -/
theorem exists_separator (r : Reader) :
    ∃ separator, r.rest = separator ++ r.skipBlank.rest ∧ Separator r.skipBlank.rest separator ∧
      startsLexeme r.skipBlank.rest ∧ r.skipBlank.position = r.position.afterAll separator := by
  obtain ⟨⟨rest, whole, separates, stops⟩, _⟩ := separator_blank r.rest
  rw [skipBlank_of_separator whole separates stops]
  exact ⟨_, whole, separates, stops, rfl⟩

/-- Reading at the end of the text, but for separators. -/
theorem scan_of_done (source : Source) {separator : List Char} (whole : r.rest = separator)
    (separates : Separator [] separator) :
    r.scan source = (.ok ⟨.eof, [], 0, r.position.afterAll separator⟩,
      ⟨[], r.position.afterAll separator⟩) := by
  rw [← List.append_nil separator] at whole
  simp only [scan, skipBlank_of_separator whole separates nofun]

/-- Reading a lexeme. -/
theorem scan_of_lexeme (source : Source) {separator lexeme rest : List Char} {token : Token}
    (whole : r.rest = separator ++ (lexeme ++ rest))
    (separates : Separator (lexeme ++ rest) separator) (spells : Spells lexeme token)
    (range : InRange lexeme token) (longest : IsLongest lexeme (lexeme ++ rest)) :
    r.scan source = (.ok { token with position := r.position.afterAll separator },
      ⟨rest, r.position.afterAll (separator ++ lexeme)⟩) := by
  obtain ⟨first, others, rfl, white, comment⟩ := spells.head
  have stops : startsLexeme (first :: others ++ rest) := by
    rintro _ ⟨⟩
    exact ⟨white, comment⟩
  have read := ofChars_of_isLongest spells range rfl longest
  simp only [scan, skipBlank_of_separator whole separates stops, List.cons_append]
  rw [List.append_eq] at read
  rw [read]
  refine Prod.ext rfl ?_
  simp only [advance]
  rw [← List.cons_append, List.drop_left, List.take_left, afterAll_append]

/-- Every reading that is not at the end of the text takes a character, also one that fails. -/
theorem exists_taken (read : r.scan source = (result, next))
    (other : ∀ token, result = .ok token → token.kind ≠ .eof) :
    ∃ taken, taken ≠ [] ∧ r.rest = taken ++ next.rest := by
  obtain ⟨separator, whole, _, _, _⟩ := exists_separator r
  unfold scan at read
  dsimp only at read
  split at read
  · cases read
    exact absurd rfl (other _ rfl)
  · rename_i first rest here
    obtain ⟨_, rfl⟩ := Prod.mk.inj read
    have positive := length_ofChars_pos first rest
    refine ⟨separator ++ (first :: rest).take (ofChars first rest).length, ?_, ?_⟩
    · obtain ⟨n, same⟩ := Nat.exists_eq_succ_of_ne_zero (Nat.ne_of_gt positive)
      simp [same]
    · rw [advance, here, List.append_assoc, List.take_append_drop, ← here]
      exact whole

/-- What a reading that succeeds has read. -/
theorem scan_eq_ok {token : Token} (read : r.scan source = (.ok token, next)) :
    (∃ separator, r.rest = separator ∧ Separator [] separator ∧
      token = ⟨.eof, [], 0, r.position.afterAll separator⟩) ∨
    token.kind ≠ .eof ∧ ∃ separator lexeme, r.rest = separator ++ (lexeme ++ next.rest) ∧
      Separator (lexeme ++ next.rest) separator ∧ Spells lexeme token ∧ InRange lexeme token ∧
      IsLongest lexeme (lexeme ++ next.rest) ∧ token.position = r.position.afterAll separator ∧
      next.position = r.position.afterAll (separator ++ lexeme) := by
  obtain ⟨separator, whole, separates, stops, position⟩ := exists_separator r
  unfold scan at read
  dsimp only at read
  split at read
  · rename_i here
    cases read
    rw [here] at whole separates
    rw [List.append_nil] at whole
    exact .inl ⟨separator, whole, separates, by rw [position]⟩
  · rename_i first rest here
    cases found : (ofChars first rest).token with
    | error cause =>
      rw [found] at read
      cases read
    | ok t =>
      rw [found] at read
      cases read
      obtain ⟨spells, range, start, inside⟩ := spells_of_ofChars found
      have longest := isLongest_of_ofChars found
      obtain ⟨spells, other⟩ := spells.moved r.skipBlank.position
      have cut : (first :: rest).take (ofChars first rest).length ++
          (r.skipBlank.advance (ofChars first rest).length).rest = r.skipBlank.rest := by
        rw [advance, here, List.take_append_drop]
      refine .inr ⟨other, separator, (first :: rest).take (ofChars first rest).length, ?_, ?_,
        spells, range, ?_, position, ?_⟩
      · rwa [cut]
      · rwa [cut]
      · rwa [cut, here]
      · rw [advance, here, position, afterAll_append]

end Reader

namespace TokenStream

open Lexeme

variable {source : Source}

/-- The tokens from a reader on belong to the partition of the text that is left. -/
theorem scanFrom_eq_iff {fuel : Nat} {r : Reader} {before : List Char} (enough : r.rest.length < fuel)
    (position : r.position = place before) (tokens : List Token) :
    scanFrom source fuel r = ⟨tokens, none⟩ ↔ Partition before r.rest tokens := by
  induction fuel generalizing r before tokens with
  | zero => cases enough
  | succ fuel ih =>
    constructor
    · intro success
      unfold scanFrom at success
      split at success
      · cases success
      · rename_i token next read
        rcases Reader.scan_eq_ok read with ⟨separator, whole, separates, rfl⟩ |
          ⟨other, separator, lexeme, whole, separates, spells, range, longest, here, after⟩
        · rw [if_pos rfl] at success
          cases success
          rw [whole, position, ← afterAll_start, ← afterAll_append, afterAll_start]
          exact .done separates
        · rw [if_neg other] at success
          obtain ⟨rfl, fine⟩ := TokenStream.mk.inj success
          have shorter := length_scan read other
          rw [whole]
          refine .token separates spells range longest ?_ ((ih (by omega) ?_ _).mp ?_)
          · rw [here, position, ← afterAll_start, ← afterAll_append, afterAll_start]
          · rw [after, position, ← afterAll_start, ← afterAll_append, afterAll_start]
          · exact congrArg (TokenStream.mk _) fine
    · intro partition
      generalize whole : r.rest = text at partition
      cases partition with
      | done separates =>
        have read := Reader.scan_of_done source whole separates
        simp only [scanFrom, read, if_true]
        rw [position, ← afterAll_start, ← afterAll_append, afterAll_start]
      | @token _ separator lexeme rest t tokens separates spells range longest here later =>
        have read := Reader.scan_of_lexeme source whole separates spells range longest
        have other : ¬ t.kind = .eof := (spells.moved .start).2
        have shorter := length_scan read other
        have after : r.position.afterAll (separator ++ lexeme) =
            place (before ++ (separator ++ lexeme)) := by
          rw [position, ← afterAll_start, ← afterAll_append, afterAll_start]
        have others := (@ih ⟨rest, _⟩ _ (Nat.lt_of_lt_of_le shorter (Nat.le_of_lt_succ enough)) after
          tokens).mpr later
        have same : { t with position := r.position.afterAll separator } = t := by
          rw [position, ← afterAll_start, ← afterAll_append, afterAll_start, ← here]
        simp only [scanFrom, read, if_neg other, others, same]

/-- More fuel than there are characters changes nothing. -/
theorem scanFrom_of_enough {fuel more : Nat} {r : Reader} (enough : r.rest.length < fuel)
    (also : r.rest.length < more) : scanFrom source fuel r = scanFrom source more r := by
  induction fuel generalizing r more with
  | zero => cases enough
  | succ fuel ih =>
    cases more with
    | zero => cases also
    | succ more =>
      unfold scanFrom
      split
      · rfl
      · rename_i token next read
        split
        · rfl
        · rename_i other
          have shorter := length_scan read other
          rw [@ih more next (by omega) (by omega)]

/-- Reading tokens partitions the text. A source has tokens and no fault exactly if its characters
fall into separators and longest lexemes of the grammar with these tokens, each at its place and the
end of input last. The tokens are all read after as many readings as there are characters, and the
end. Every reading that does not give the end of input takes a character, also one that fails. -/
theorem ofSource_partitions (source : Source) :
    (∀ tokens, ofSource source = ⟨tokens, none⟩ ↔ Partition [] source.chars tokens) ∧
    (∀ fuel, source.chars.length < fuel →
      scanFrom source fuel (.ofSource source) = ofSource source) ∧
    ∀ r result next, Reader.scan source r = (result, next) →
      (∀ token, result = .ok token → token.kind ≠ .eof) →
      ∃ taken, taken ≠ [] ∧ r.rest = taken ++ next.rest :=
  ⟨fun tokens => scanFrom_eq_iff (Nat.lt_succ_self _) rfl tokens,
    fun _ enough => scanFrom_of_enough enough (Nat.lt_succ_self _),
    fun _ _ _ read other => Reader.exists_taken read other⟩

/-- A text with a comment, an escape, a name that starts like a keyword, a sign of two characters and
a byte that is no character. -/
private def mixed : Source :=
  ⟨[], [0x69, 0x66, 0x31, 0x3C, 0x3D] ++ Bytes.ofString "\"\\n#\\q\"# no token\n\t'\\t'#" ++ [0xFF]⟩

theorem ofSource_partitions_mixed :
    Partition [] mixed.chars
      [⟨.ident, "if1", 0, ⟨1, 1⟩⟩, ⟨.op, "<=", 0, ⟨1, 4⟩⟩, ⟨.string, "\n#\\q", 0, ⟨1, 6⟩⟩,
        ⟨.char, "\t", 9, ⟨2, 2⟩⟩, ⟨.eof, [], 0, ⟨2, 8⟩⟩] ∧
    ∃ taken, taken ≠ [] ∧ (Reader.ofSource mixed).rest =
      taken ++ ((Reader.ofSource mixed).scan mixed).2.rest := by
  obtain ⟨partitions, _, taken⟩ := ofSource_partitions mixed
  have first : ((Reader.ofSource mixed).scan mixed).1.map Token.kind = .ok .ident := by
    decide +kernel
  cases read : (Reader.ofSource mixed).scan mixed with
  | mk result next =>
    refine ⟨(partitions _).mp (by decide +kernel), taken _ result next read ?_⟩
    rintro token rfl
    rw [read] at first
    rw [Except.ok.inj first]
    exact nofun

end TokenStream

end Onepass
