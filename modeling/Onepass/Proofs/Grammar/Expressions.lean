import Onepass.Proofs.Grammar.Rules
import Onepass.Proofs.Lockstep.Session

/-! The parser reads the expressions of the grammar. What it reads has a derivation; and it reads
the whole of a phrase if no token after the phrase could continue it. -/
namespace Onepass.Syntax

open Grammar (Category More Phrase Selected TypeName startsExpression)

/-- The place before tokens of a source that has no lexical fault. -/
def Cursor.before (source : Source) (tokens : List Token) : Cursor :=
  ⟨source, tokens.headD ⟨.eof, [], 0, .start⟩, tokens.tail, none⟩

namespace Parser

/-- A parser before tokens, when some names may be read. -/
def State.before (source : Source) (names : List Bytes) (tokens : List Token) : State :=
  ⟨.before source tokens, names⟩

/-- Whether tokens end with the end of input. -/
def Ends (tokens : List Token) : Prop := ∃ body last, tokens = body ++ [last] ∧ last.kind = .eof

theorem Ends.cons {token : Token} {rest : List Token} (ends : Ends rest) : Ends (token :: rest) := by
  obtain ⟨body, last, rfl, eof⟩ := ends
  exact ⟨token :: body, last, rfl, eof⟩

theorem Ends.append {first second : List Token} (ends : Ends second) : Ends (first ++ second) := by
  obtain ⟨body, last, rfl, eof⟩ := ends
  exact ⟨first ++ body, last, (List.append_assoc ..).symm, eof⟩

theorem Ends.exists_cons {tokens : List Token} (ends : Ends tokens) :
    ∃ token rest, tokens = token :: rest := by
  obtain ⟨_ | ⟨first, body⟩, last, rfl, _⟩ := ends
  · exact ⟨last, [], rfl⟩
  · exact ⟨first, body ++ [last], rfl⟩

/-- Only the end of input is last. -/
theorem Ends.tail {token : Token} {rest : List Token} (ends : Ends (token :: rest))
    (other : token.kind ≠ .eof) : Ends rest := by
  obtain ⟨_ | ⟨first, body⟩, last, same, eof⟩ := ends
  · obtain ⟨rfl, rfl⟩ := List.cons.inj same
    exact absurd eof other
  · obtain ⟨_, rfl⟩ := List.cons.inj same
    exact ⟨body, last, rfl, eof⟩

theorem ne_eof_of_is {token : Token} {symbol : Bytes} (found : token.is symbol = true) :
    token.kind ≠ .eof := by
  intro eof
  simp [Token.is, eof] at found

section

variable {source : Source} {names : List Bytes} {token : Token} {rest : List Token}

theorem next_before (ends : Ends rest) :
    Cursor.next (.before source (token :: rest)) = .ok (.before source rest) := by
  obtain ⟨following, later, rfl⟩ := ends.exists_cons
  rfl

theorem reads_next_before (ends : Ends rest) :
    reads next (.before source names (token :: rest)) = .ok ((), .before source names rest) := by
  have moved : (State.before source names (token :: rest)).cursor.next = .ok (.before source rest) :=
    next_before ends
  rw [reads_next, moved]
  rfl

theorem expect_before {symbol : Bytes} (found : token.is symbol = true) (ends : Ends rest) :
    Cursor.expect (.before source (token :: rest)) symbol = .ok (.before source rest) :=
  (if_pos found).trans (next_before ends)

theorem reads_expect_before {symbol : Bytes} (found : token.is symbol = true) (ends : Ends rest) :
    reads (expect symbol) (.before source names (token :: rest)) =
      .ok ((), .before source names rest) := by
  have moved : (State.before source names (token :: rest)).cursor.expect symbol =
      .ok (.before source rest) := expect_before found ends
  rw [reads_expect, moved]
  rfl

/-- What is passed over as a symbol. -/
theorem cursor_expect_eq_ok {symbol : Bytes} {tokens : List Token} {after : Cursor}
    (ends : Ends tokens) (success : Cursor.expect (.before source tokens) symbol = .ok after) :
    ∃ token rest, tokens = token :: rest ∧ token.is symbol = true ∧ Ends rest ∧
      after = .before source rest := by
  obtain ⟨token, rest, rfl⟩ := ends.exists_cons
  by_cases found : token.is symbol = true
  · have later := ends.tail (ne_eof_of_is found)
    rw [expect_before found later] at success
    cases success
    exact ⟨token, rest, rfl, found, later, rfl⟩
  · cases (if_neg found).symm.trans success

theorem expect_before_eq_ok {symbol : Bytes} {tokens : List Token} {after : State}
    (ends : Ends tokens)
    (success : reads (expect symbol) (.before source names tokens) = .ok ((), after)) :
    ∃ token rest, tokens = token :: rest ∧ token.is symbol = true ∧ Ends rest ∧
      after = .before source names rest := by
  rw [reads_expect] at success
  split at success
  · rename_i passed
    obtain ⟨token, rest, rfl, found, later, rfl⟩ := cursor_expect_eq_ok ends passed
    cases success
    exact ⟨token, rest, rfl, found, later, rfl⟩
  · cases success

end

/-! What a parser of expressions does. -/

/-- Whether a token cannot continue a phrase. -/
def stops : Category → Token → Bool
  | .level .relational, token =>
    (Operator.Level.operator? .relational token).isNone &&
      (Operator.Level.operator? .additive token).isNone &&
      (Operator.Level.operator? .multiplicative token).isNone && !token.is "["
  | .level .additive, token =>
    (Operator.Level.operator? .additive token).isNone &&
      (Operator.Level.operator? .multiplicative token).isNone && !token.is "["
  | .level .multiplicative, token =>
    (Operator.Level.operator? .multiplicative token).isNone && !token.is "["
  | .factor, token | .unary, token => !token.is "["

/-- Whether all that a parser reads has a derivation. -/
def Sound (parser : Parser Expr) (category : Category) : Prop :=
  ∀ {source : Source} {names : List Bytes} {tokens : List Token} {e : Expr} {after : State},
    Ends tokens → reads parser (.before source names tokens) = .ok (e, after) →
    ∃ first rest, tokens = first ++ rest ∧ Ends rest ∧ after = .before source names rest ∧
      Phrase names category first e

/-- Whether tokens start with one that cannot continue a phrase. -/
def Stopped (category : Category) (tokens : List Token) : Prop :=
  ∀ token ∈ tokens.head?, stops category token = true

/-- Whether a parser reads every phrase of a bounded length up to a token that cannot continue
it. -/
def Complete (parser : Parser Expr) (category : Category) (bound : Nat) : Prop :=
  ∀ (source : Source) {names : List Bytes} {tokens rest : List Token} {e : Expr},
    Phrase names category tokens e → tokens.length ≤ bound → Ends rest → Stopped category rest →
    reads parser (.before source names (tokens ++ rest)) = .ok (e, .before source names rest)

/-! What is read has a derivation. -/

section

variable {source : Source} {names : List Bytes} {tokens : List Token} {after : State}

theorem reads_current_before {α : Type} {token : Token} {rest : List Token}
    {next : Token → Parser α} :
    reads (current >>= next) (.before source names (token :: rest)) =
      reads (next token) (.before source names (token :: rest)) := by
  rw [reads_bind, reads_current]
  rfl

theorem reads_remaining_before {α : Type} {token : Token} {rest : List Token}
    {next : Nat → Parser α} :
    reads (remaining >>= next) (.before source names (token :: rest)) =
      reads (next (rest.length + 1)) (.before source names (token :: rest)) := by
  rw [reads_bind, reads_remaining]
  rfl

/-- Passing over a token that is not the end of input. -/
theorem next_before_eq_ok {token : Token} {rest : List Token} {result : Unit}
    (ends : Ends (token :: rest)) (other : token.kind ≠ .eof)
    (success : reads next (.before source names (token :: rest)) = .ok (result, after)) :
    Ends rest ∧ after = .before source names rest := by
  have later := ends.tail other
  rw [reads_next_before later] at success
  cases success
  exact ⟨later, rfl⟩

theorem shapeWithin_sound {fuel : Nat} {shape : Shape} {cursor : Cursor} (ends : Ends tokens)
    (success : Cursor.shapeWithin fuel (.before source tokens) = .ok (shape, cursor)) :
    ∃ first rest, tokens = first ++ rest ∧ Ends rest ∧ cursor = .before source rest ∧
      TypeName first shape := by
  induction fuel generalizing tokens shape cursor with
  | zero => cases success
  | succ fuel ih =>
    obtain ⟨token, rest, rfl⟩ := ends.exists_cons
    by_cases opens : token.is "[" = true
    · replace success := (if_pos opens).symm.trans success
      obtain ⟨_, moved, success⟩ := bind_eq_ok.mp success
      have later := ends.tail (ne_eof_of_is opens)
      cases (next_before later).symm.trans moved
      obtain ⟨_, closed, success⟩ := bind_eq_ok.mp success
      obtain ⟨closing, tail, rfl, closes, later, rfl⟩ := cursor_expect_eq_ok later closed
      obtain ⟨⟨element, _⟩, inner, success⟩ := bind_eq_ok.mp success
      cases success
      obtain ⟨first, rest, rfl, later, rfl, type⟩ := ih later inner
      exact ⟨token :: closing :: first, rest, rfl, later, rfl, .array opens closes type⟩
    · replace success := (if_neg opens).symm.trans success
      cases named : Cursor.namedShape? token with
      | none =>
        rw [show (Cursor.before source (token :: rest)).current = token from rfl, named] at success
        cases success
      | some found =>
        rw [show (Cursor.before source (token :: rest)).current = token from rfl, named] at success
        obtain ⟨_, moved, success⟩ := bind_eq_ok.mp success
        cases success
        unfold Cursor.namedShape? at named
        split at named
        · rename_i ident
          have later := ends.tail (by simp [ident])
          cases (next_before later).symm.trans moved
          exact ⟨[token], rest, rfl, later, rfl, .name ident named⟩
        · cases named

/-- What is read as a known name is one. -/
theorem known_eq_ok {token : Token} {s : State} {result : Unit}
    (success : reads (known token) s = .ok (result, after)) :
    token.text ∈ s.names ∧ after = s := by
  rw [known, reads_bind, reads_get] at success
  by_cases member : s.names.contains token.text = true
  · simp only [member] at success
    cases success
    exact ⟨by simpa using member, rfl⟩
  · simp only [Bool.not_eq_true] at member
    simp only [member] at success
    cases success

theorem selections_sound {inner : Parser Expr} (sound : Sound inner .expression) {fuel : Nat}
    {done : List Token} {left e : Expr} (ends : Ends tokens) (started : Selected names done left)
    (success : reads (selections inner fuel left) (.before source names tokens) = .ok (e, after)) :
    ∃ first rest, tokens = first ++ rest ∧ Ends rest ∧ after = .before source names rest ∧
      Selected names (done ++ first) e := by
  induction fuel generalizing tokens done left with
  | zero =>
    cases success
    exact ⟨[], tokens, rfl, ends, rfl, by simpa using started⟩
  | succ fuel ih =>
    obtain ⟨opening, rest, rfl⟩ := ends.exists_cons
    simp only [selections, reads_current_before] at success
    by_cases opens : opening.is "[" = true
    · rw [if_pos opens] at success
      obtain ⟨_, _, moved, success⟩ := reads_bind_ok.mp success
      obtain ⟨later, rfl⟩ := next_before_eq_ok ends (ne_eof_of_is opens) moved
      obtain ⟨selector, _, read, success⟩ := reads_bind_ok.mp success
      obtain ⟨second, others, rfl, later, rfl, phrase⟩ := sound later read
      obtain ⟨_, _, closed, success⟩ := reads_bind_ok.mp success
      obtain ⟨closing, tail, rfl, closes, later, rfl⟩ := expect_before_eq_ok later closed
      obtain ⟨first, rest, rfl, later, rfl, selected⟩ :=
        ih later (.index started opens phrase closes) success
      exact ⟨opening :: (second ++ [closing]) ++ first, rest, by simp, later, rfl,
        by simpa using selected⟩
    · rw [if_neg opens] at success
      cases success
      exact ⟨[], _, rfl, ends, rfl, by simpa using started⟩

theorem elements_sound {inner : Parser Expr} (sound : Sound inner .expression) {fuel : Nat}
    {es : List Expr} (ends : Ends tokens) (enough : tokens.length ≤ fuel)
    (success : reads (elements inner fuel) (.before source names tokens) = .ok (es, after)) :
    ∃ others comma closing rest, tokens = others ++ (Option.toList comma ++ closing :: rest) ∧
      Ends rest ∧ after = .before source names rest ∧ More names others es ∧
      (∀ token ∈ comma, token.is "," = true) ∧ closing.is "]" = true := by
  induction fuel generalizing tokens es after with
  | zero =>
    obtain ⟨token, rest, rfl⟩ := ends.exists_cons
    cases enough
  | succ fuel ih =>
    obtain ⟨token, rest, rfl⟩ := ends.exists_cons
    simp only [elements, reads_current_before] at success
    by_cases closes : token.is "]" = true
    · rw [if_pos closes] at success
      obtain ⟨_, _, moved, success⟩ := reads_bind_ok.mp success
      obtain ⟨later, rfl⟩ := next_before_eq_ok ends (ne_eof_of_is closes) moved
      cases success
      exact ⟨[], none, token, rest, rfl, later, rfl, .none, by simp, closes⟩
    · rw [if_neg closes] at success
      obtain ⟨_, _, passed, success⟩ := reads_bind_ok.mp success
      obtain ⟨_, _, same, separates, later, rfl⟩ := expect_before_eq_ok ends passed
      obtain ⟨rfl, rfl⟩ := List.cons.inj same
      obtain ⟨second, others, rfl⟩ := later.exists_cons
      simp only [reads_current_before] at success
      by_cases closes : second.is "]" = true
      · rw [if_pos closes] at success
        obtain ⟨_, _, moved, success⟩ := reads_bind_ok.mp success
        obtain ⟨later, rfl⟩ := next_before_eq_ok later (ne_eof_of_is closes) moved
        cases success
        exact ⟨[], some token, second, others, rfl, later, rfl, .none, by simpa using separates,
          closes⟩
      · rw [if_neg closes] at success
        obtain ⟨e, _, read, success⟩ := reads_bind_ok.mp success
        obtain ⟨first, tail, same, later, rfl, phrase⟩ := sound later read
        obtain ⟨es, _, more, success⟩ := reads_bind_ok.mp success
        cases success
        have shorter : tail.length ≤ fuel := by
          have total := congrArg List.length same
          simp only [List.length_cons, List.length_append] at total enough
          omega
        obtain ⟨others, comma, closing, rest, rfl, later, rfl, more, trails, closes⟩ :=
          ih later shorter more
        refine ⟨token :: (first ++ others), comma, closing, rest, ?_, later, rfl,
          .one separates phrase more, trails, closes⟩
        simp [same]

theorem array_sound {inner : Parser Expr} (sound : Sound inner .expression) {opening : Token}
    {e : Expr} (ends : Ends tokens) (opens : opening.is "[" = true)
    (success : reads (array inner) (.before source names tokens) = .ok (e, after)) :
    ∃ first rest, tokens = first ++ rest ∧ Ends rest ∧ after = .before source names rest ∧
      Phrase names .unary (opening :: first) e := by
  obtain ⟨token, rest, rfl⟩ := ends.exists_cons
  simp only [array, reads_current_before] at success
  by_cases closes : token.is "]" = true
  · rw [if_pos closes] at success
    obtain ⟨_, _, moved, success⟩ := reads_bind_ok.mp success
    obtain ⟨later, rfl⟩ := next_before_eq_ok ends (ne_eof_of_is closes) moved
    obtain ⟨shape, _, type, success⟩ := reads_bind_ok.mp success
    cases success
    rw [reads_elementType] at type
    split at type
    · rename_i found
      cases type
      obtain ⟨first, rest, rfl, later, rfl, type⟩ := shapeWithin_sound later found
      exact ⟨token :: first, rest, rfl, later, rfl, .emptyArray opens closes type⟩
    · cases type
  · rw [if_neg closes] at success
    obtain ⟨first, _, read, success⟩ := reads_bind_ok.mp success
    obtain ⟨tokens, others, same, later, rfl, phrase⟩ := sound ends read
    obtain ⟨following, tail, rfl⟩ := later.exists_cons
    rw [reads_remaining_before] at success
    obtain ⟨es, _, more, success⟩ := reads_bind_ok.mp success
    cases success
    obtain ⟨others, comma, closing, rest, same', later, rfl, more, trails, closes⟩ :=
      elements_sound sound later (le_refl _) more
    refine ⟨tokens ++ (others ++ (comma.toList ++ [closing])), rest, ?_, later, rfl,
      .array opens phrase more trails closes⟩
    simp [same, same']

theorem unary_sound {inner : Parser Expr} (sound : Sound inner .expression) :
    Sound (unary inner) .unary := by
  intro source names tokens e after ends success
  obtain ⟨token, rest, rfl⟩ := ends.exists_cons
  have literal {value : Expr} (other : token.kind ≠ .eof) (phrase : Phrase names .unary [token] value)
      (success : reads (do next; return value) (.before source names (token :: rest)) =
        .ok (e, after)) :
      ∃ first others, token :: rest = first ++ others ∧ Ends others ∧
        after = .before source names others ∧ Phrase names .unary first e := by
    obtain ⟨_, _, moved, success⟩ := reads_bind_ok.mp success
    obtain ⟨later, rfl⟩ := next_before_eq_ok ends other moved
    cases success
    exact ⟨[token], rest, rfl, later, rfl, phrase⟩
  rw [unary, reads_current_before] at success
  cases kind : token.kind <;> rw [kind] at success
  case ident =>
    obtain ⟨_, _, checked, success⟩ := reads_bind_ok.mp success
    obtain ⟨known, rfl⟩ := known_eq_ok checked
    obtain ⟨_, _, moved, success⟩ := reads_bind_ok.mp success
    obtain ⟨later, rfl⟩ := next_before_eq_ok ends (by simp [kind]) moved
    obtain ⟨following, others, rfl⟩ := later.exists_cons
    rw [reads_remaining_before] at success
    obtain ⟨first, rest, same, later, rfl, selected⟩ :=
      selections_sound sound later (.name kind known) success
    exact ⟨token :: first, rest, by simp [same], later, rfl, .selected selected⟩
  case int => exact literal (by simp [kind]) (.int kind) success
  case char => exact literal (by simp [kind]) (.char kind) success
  case string => exact literal (by simp [kind]) (.string kind) success
  all_goals
    by_cases opens : token.is "(" = true
    · replace success := (congrArg (reads · _) (if_pos opens)).symm.trans success
      obtain ⟨_, _, moved, success⟩ := reads_bind_ok.mp success
      obtain ⟨later, rfl⟩ := next_before_eq_ok ends (ne_eof_of_is opens) moved
      obtain ⟨inner, _, read, success⟩ := reads_bind_ok.mp success
      obtain ⟨first, others, rfl, later, rfl, phrase⟩ := sound later read
      obtain ⟨_, _, closed, success⟩ := reads_bind_ok.mp success
      obtain ⟨closing, rest, rfl, closes, later, rfl⟩ := expect_before_eq_ok later closed
      cases success
      exact ⟨token :: (first ++ [closing]), rest, by simp, later, rfl,
        .parentheses opens phrase closes⟩
    · replace success := (congrArg (reads · _) (if_neg opens)).symm.trans success
      by_cases bracket : token.is "[" = true
      · replace success := (congrArg (reads · _) (if_pos bracket)).symm.trans success
        obtain ⟨_, _, moved, success⟩ := reads_bind_ok.mp success
        obtain ⟨later, rfl⟩ := next_before_eq_ok ends (ne_eof_of_is bracket) moved
        obtain ⟨first, rest, rfl, later, rfl, phrase⟩ := array_sound sound later bracket success
        exact ⟨token :: first, rest, rfl, later, rfl, phrase⟩
      · replace success := (congrArg (reads · _) (if_neg bracket)).symm.trans success
        cases success

theorem factor_sound {inner : Parser Expr} (sound : Sound inner .expression) :
    Sound (factor inner) .factor := by
  intro source names tokens e after ends success
  obtain ⟨token, rest, rfl⟩ := ends.exists_cons
  simp only [factor, reads_current_before] at success
  by_cases sign : token.is "-" = true
  · rw [if_pos sign] at success
    obtain ⟨_, _, moved, success⟩ := reads_bind_ok.mp success
    obtain ⟨later, rfl⟩ := next_before_eq_ok ends (ne_eof_of_is sign) moved
    obtain ⟨operand, _, read, success⟩ := reads_bind_ok.mp success
    cases success
    obtain ⟨first, rest, rfl, later, rfl, phrase⟩ := unary_sound sound later read
    exact ⟨token :: first, rest, rfl, later, rfl, .negate sign phrase⟩
  · rw [if_neg sign] at success
    obtain ⟨first, rest, same, later, rfl, phrase⟩ := unary_sound sound ends success
    exact ⟨first, rest, same, later, rfl, .plain phrase⟩

theorem chain_sound {level : Operator.Level} {operand : Parser Expr}
    (sound : Sound operand (.operand level)) {fuel : Nat} {done : List Token} {left e : Expr}
    (ends : Ends tokens) (started : Phrase names (.level level) done left)
    (success : reads (chain level operand fuel left) (.before source names tokens) =
      .ok (e, after)) :
    ∃ first rest, tokens = first ++ rest ∧ Ends rest ∧ after = .before source names rest ∧
      Phrase names (.level level) (done ++ first) e := by
  induction fuel generalizing tokens done left with
  | zero =>
    cases success
    exact ⟨[], tokens, rfl, ends, rfl, by simpa using started⟩
  | succ fuel ih =>
    obtain ⟨token, rest, rfl⟩ := ends.exists_cons
    simp only [chain, reads_current_before] at success
    cases found : level.operator? token with
    | none =>
      rw [found] at success
      cases success
      exact ⟨[], _, rfl, ends, rfl, by simpa using started⟩
    | some operator =>
      rw [found] at success
      have other : token.kind ≠ .eof := by
        intro eof
        simp [Operator.Level.operator?, eof] at found
      obtain ⟨_, _, moved, success⟩ := reads_bind_ok.mp success
      obtain ⟨later, rfl⟩ := next_before_eq_ok ends other moved
      obtain ⟨right, _, read, success⟩ := reads_bind_ok.mp success
      obtain ⟨second, others, rfl, later, rfl, phrase⟩ := sound later read
      obtain ⟨first, rest, rfl, later, rfl, whole⟩ :=
        ih later (.binary started found phrase) success
      exact ⟨token :: (second ++ first), rest, by simp, later, rfl, by simpa using whole⟩

theorem binary_sound {level : Operator.Level} {operand : Parser Expr}
    (sound : Sound operand (.operand level)) : Sound (binary level operand) (.level level) := by
  intro source names tokens e after ends success
  obtain ⟨left, _, read, success⟩ := reads_bind_ok.mp success
  obtain ⟨first, rest, rfl, later, rfl, phrase⟩ := sound ends read
  obtain ⟨token, others, rfl⟩ := later.exists_cons
  rw [reads_remaining_before] at success
  obtain ⟨second, rest, same, later, rfl, whole⟩ := chain_sound sound later (.operand phrase) success
  exact ⟨first ++ second, rest, by simp [same], later, rfl, whole⟩

theorem expressionWithin_sound (fuel : Nat) : Sound (expressionWithin fuel) .expression := by
  induction fuel with
  | zero =>
    intro source names tokens e after _ success
    cases success
  | succ fuel ih => exact binary_sound (binary_sound (binary_sound (factor_sound ih)))

/-- Whatever is read as an expression is one. -/
theorem expression_sound : Sound expression .expression := by
  intro source names tokens e after ends success
  obtain ⟨token, rest, rfl⟩ := ends.exists_cons
  rw [expression, reads_remaining_before] at success
  exact expressionWithin_sound _ ends success

end

/-! Phrases are read up to a token that cannot continue them. -/

theorem kind_of_is {token : Token} {symbol : Bytes} (found : token.is symbol = true) :
    (token.kind = .op ∨ token.kind = .keyword) ∧ token.text = symbol := by
  simpa [Token.is] using found

theorem not_is {token : Token} {symbol other : Bytes} (found : token.is symbol = true)
    (differ : symbol ≠ other) : ¬ token.is other = true := by
  obtain ⟨_, rfl⟩ := kind_of_is found
  simp [Token.is, differ]

theorem is_ident_eq_false {token : Token} (ident : token.kind = .ident) (symbol : Bytes) :
    token.is symbol = false := by
  simp [Token.is, ident]

/-- Whether a symbol stops an expression depends on the symbol alone. -/
theorem stops_of_is {token : Token} {symbol : Bytes} (found : token.is symbol = true)
    (fine : (stops .expression ⟨.op, symbol, 0, .start⟩ &&
      stops .expression ⟨.keyword, symbol, 0, .start⟩) = true) :
    stops .expression token = true := by
  obtain ⟨kind, text⟩ := kind_of_is found
  obtain ⟨one, two⟩ := Bool.and_eq_true_iff.mp fine
  rcases token with ⟨_, _, value, position⟩
  rcases kind with rfl | rfl
  · cases text
    exact one
  · cases text
    exact two

theorem stopped_cons {category : Category} {token : Token} {rest : List Token}
    (stopped : stops category token = true) : Stopped category (token :: rest) := by
  simpa [Stopped] using stopped

/-- A symbol that stops expressions. -/
theorem stopped_of_is {token : Token} {rest : List Token} {symbol : Bytes}
    (found : token.is symbol = true)
    (fine : (stops .expression ⟨.op, symbol, 0, .start⟩ &&
      stops .expression ⟨.keyword, symbol, 0, .start⟩) = true) :
    Stopped .expression (token :: rest) :=
  stopped_cons (stops_of_is found fine)

theorem stops_ident {token : Token} (ident : token.kind = .ident) :
    stops .expression token = true := by
  simp [stops, Operator.Level.operator?, Token.is, ident]

/-- An operator ends the operand before it. -/
theorem stops_operator {level : Operator.Level} {token : Token} {operator : Operator}
    (found : level.operator? token = some operator) :
    stops (.operand level) token = true := by
  have fine : ∀ level : Operator.Level, ∀ operator ∈ level.operators,
      stops (.operand level) ⟨.op, operator.symbol, 0, .start⟩ = true := by
    intro level
    cases level <;> decide
  unfold Operator.Level.operator? at found
  split at found
  · rename_i kind
    have member := List.mem_of_find?_eq_some found
    have symbol : operator.symbol = token.text := by simpa using List.find?_some found
    have stopped := fine level operator member
    rcases token with ⟨_, _, value, position⟩
    cases kind
    cases symbol
    cases level <;> exact stopped
  · cases found

theorem stops_operand {level : Operator.Level} {token : Token}
    (stopped : stops (.level level) token = true) :
    stops (.operand level) token = true ∧ level.operator? token = none := by
  cases level <;> simp_all [stops, Category.operand]

theorem not_bracket_of_stops {category : Category} {token : Token}
    (stopped : stops category token = true) : token.is "[" = false := by
  rcases category with (_ | _ | _) | _ | _ <;> simp_all [stops]

section

variable {source : Source} {names : List Bytes} {tokens rest : List Token} {bound : Nat}

theorem reads_remaining_ends {α : Type} {next : Nat → Parser α} (ends : Ends tokens) :
    reads (remaining >>= next) (.before source names tokens) =
      reads (next tokens.length) (.before source names tokens) := by
  obtain ⟨token, rest, rfl⟩ := ends.exists_cons
  exact reads_remaining_before

theorem reads_next_bind {α : Type} {next' : Unit → Parser α} {token : Token} (ends : Ends rest) :
    reads (next >>= next') (.before source names (token :: rest)) =
      reads (next' ()) (.before source names rest) := by
  rw [reads_bind, reads_next_before ends]

theorem reads_expect_bind {α : Type} {next' : Unit → Parser α} {token : Token} {symbol : Bytes}
    (found : token.is symbol = true) (ends : Ends rest) :
    reads (expect symbol >>= next') (.before source names (token :: rest)) =
      reads (next' ()) (.before source names rest) := by
  rw [reads_bind, reads_expect_before found ends]

theorem reads_bind_of {α β : Type} {parser : Parser α} {next' : α → Parser β} {s after : State}
    {a : α} (read : reads parser s = .ok (a, after)) :
    reads (parser >>= next') s = reads (next' a) after := by
  rw [reads_bind, read]

theorem reads_if_pos {α : Type} {yes no : Parser α} {token : Token} {symbol : Bytes}
    (found : token.is symbol = true) :
    reads (do if (← current).is symbol then yes else no) (.before source names (token :: rest)) =
      reads yes (.before source names (token :: rest)) :=
  reads_current_before.trans (congrArg (reads · _) (if_pos found))

theorem reads_if_neg {α : Type} {yes no : Parser α} {token : Token} {symbol : Bytes}
    (differ : ¬ token.is symbol = true) :
    reads (do if (← current).is symbol then yes else no) (.before source names (token :: rest)) =
      reads no (.before source names (token :: rest)) :=
  reads_current_before.trans (congrArg (reads · _) (if_neg differ))

theorem shapeWithin_complete {shape : Shape} {fuel : Nat} (type : TypeName tokens shape)
    (enough : tokens.length ≤ fuel) (ends : Ends rest) :
    Cursor.shapeWithin fuel (.before source (tokens ++ rest)) = .ok (shape, .before source rest) := by
  induction type generalizing fuel with
  | @name token shape ident named =>
    obtain ⟨fuel, rfl⟩ := Nat.exists_eq_add_of_lt enough
    have plain : ¬ token.is "[" = true := by simp [is_ident_eq_false ident]
    have found : Cursor.namedShape? token = some shape := by
      simp [Cursor.namedShape?, ident, named]
    refine (if_neg plain).trans ?_
    rw [show (Cursor.before source ([token] ++ rest)).current = token from rfl, found]
    exact bind_eq_ok.mpr ⟨_, next_before ends, rfl⟩
  | @array opening closing tokens element opens closes inner ih =>
    obtain ⟨fuel, rfl⟩ := Nat.exists_eq_add_of_lt enough
    refine (if_pos opens).trans ?_
    refine bind_eq_ok.mpr ⟨_, next_before ends.append.cons, bind_eq_ok.mpr ⟨_,
      expect_before closes ends.append, bind_eq_ok.mpr ⟨_, ih ?_, rfl⟩⟩⟩
    simp only [List.length_cons]
    omega

/-- After a name with selections the parser looks for one more selection. -/
theorem selected_complete (source : Source) {tokens rest : List Token} {inner : Parser Expr}
    (complete : Complete inner .expression bound) {e : Expr} (selected : Selected names tokens e) (short : tokens.length ≤ bound + 1)
    (ends : Ends rest) :
    ∃ name others fuel, tokens = name :: others ∧ name.kind = .ident ∧ name.text ∈ names ∧
      rest.length ≤ fuel ∧
      reads (selections inner (others ++ rest).length (.variable name.text))
        (.before source names (others ++ rest)) =
      reads (selections inner fuel e) (.before source names rest) := by
  match selected with
  | @Selected.name _ token ident known =>
    exact ⟨token, [], rest.length, rfl, ident, known, le_refl _, rfl⟩
  | @Selected.index _ opening closing first second left selector before opens inner' closes =>
    have later : Ends (second ++ closing :: rest) := ends.cons.append
    simp only [List.length_append, List.length_cons, List.length_nil] at short
    obtain ⟨name, others, fuel, rfl, ident, known, enough, same⟩ :=
      selected_complete source complete before (by omega) (show Ends (opening :: _) from later.cons)
    simp only [List.length_append, List.length_cons] at enough
    obtain ⟨fuel, rfl⟩ : ∃ less, fuel = less + 1 := ⟨fuel - 1, by omega⟩
    have read := complete source inner' (by omega) ends.cons (stopped_of_is closes (by decide))
    refine ⟨name, others ++ opening :: (second ++ [closing]), fuel, rfl, ident, known, by omega, ?_⟩
    rw [show others ++ opening :: (second ++ [closing]) ++ rest =
      others ++ opening :: (second ++ closing :: rest) by simp, same, selections, reads_if_pos opens,
      reads_next_bind later, reads_bind_of read, reads_expect_bind closes ends]

/-- After an element of an array literal comes a token that ends it. -/
theorem stopped_more {comma : Option Token} {closing : Token} {es : List Expr}
    (more : More names tokens es) (trails : ∀ token ∈ comma, token.is "," = true)
    (closes : closing.is "]" = true) :
    Stopped .expression (tokens ++ (comma.toList ++ closing :: rest)) := by
  cases more with
  | none =>
    cases comma with
    | none => exact stopped_of_is closes (by decide)
    | some token => exact stopped_of_is (trails token rfl) (by decide)
  | one separates _ _ => exact stopped_of_is separates (by decide)

theorem not_closing_of_starts {token : Token} (starts : startsExpression token = true) :
    ¬ token.is "]" = true := by
  intro found
  obtain ⟨kind | kind, text⟩ := kind_of_is found <;>
    simp +decide [startsExpression, Token.is, kind, text] at starts

theorem elements_complete (source : Source) {inner : Parser Expr}
    (complete : Complete inner .expression bound) {es : List Expr} {comma : Option Token}
    {closing : Token} {fuel : Nat} (more : More names tokens es) (short : tokens.length ≤ bound)
    (trails : ∀ token ∈ comma, token.is "," = true) (closes : closing.is "]" = true)
    (ends : Ends rest) (enough : (tokens ++ (comma.toList ++ closing :: rest)).length ≤ fuel) :
    reads (elements inner fuel)
      (.before source names (tokens ++ (comma.toList ++ closing :: rest))) =
      .ok (es, .before source names rest) := by
  induction fuel generalizing tokens es with
  | zero => simp at enough
  | succ fuel ih =>
    cases more with
    | none =>
      cases comma with
      | none =>
        rw [elements, List.nil_append, Option.toList_none, List.nil_append, reads_if_pos closes,
          reads_next_bind ends, reads_pure]
      | some token =>
        have separates := trails token rfl
        rw [elements, List.nil_append, Option.toList_some, List.singleton_append,
          reads_if_neg (not_is separates (by decide)), reads_expect_bind separates ends.cons,
          reads_if_pos closes, reads_next_bind ends, reads_pure]
    | @one token first others e es separates head tail =>
      have onward : Ends (others ++ (comma.toList ++ closing :: rest)) := ends.cons.append.append
      simp only [List.length_append, List.length_cons] at enough short
      have read := complete source head (by omega) onward (stopped_more tail trails closes)
      have recursive := ih tail (by omega) (by simp only [List.length_append, List.length_cons]; omega)
      obtain ⟨start, following, rfl, starts⟩ := head.starts
      rw [elements, List.cons_append, reads_if_neg (not_is separates (by decide)),
        List.append_assoc, reads_expect_bind separates onward.append, List.cons_append,
        reads_if_neg (not_closing_of_starts starts), ← List.cons_append, reads_bind_of read,
        reads_bind_of recursive, reads_pure]

theorem selections_complete {inner : Parser Expr} {category : Category} {fuel : Nat} {e : Expr}
    (ends : Ends rest) (stopped : Stopped category rest) :
    reads (selections inner fuel e) (.before source names rest) =
      .ok (e, .before source names rest) := by
  obtain ⟨token, others, rfl⟩ := ends.exists_cons
  cases fuel with
  | zero => rfl
  | succ fuel =>
    have plain := not_bracket_of_stops (stopped token rfl)
    rw [selections, reads_if_neg (by simp [plain]), reads_pure]

theorem reads_known_bind {α : Type} {next' : Unit → Parser α} {token : Token}
    (known : token.text ∈ names) :
    reads (Parser.known token >>= next') (.before source names tokens) =
      reads (next' ()) (.before source names tokens) := by
  have member : (State.before source names tokens).names.contains token.text = true := by
    simpa [State.before] using known
  refine reads_bind_of ?_
  rw [Parser.known, reads_bind, reads_get]
  simp only [member]
  rfl

theorem reads_unary_parenthesis {inner : Parser Expr} {token : Token}
    (opens : token.is "(" = true) :
    reads (unary inner) (.before source names (token :: rest)) =
      reads (do next; let e ← inner; expect ")"; return e)
        (.before source names (token :: rest)) := by
  rw [unary, reads_current_before]
  obtain ⟨kind | kind, _⟩ := kind_of_is opens <;>
    simp only [kind] <;> exact congrArg (reads · _) (if_pos opens)

theorem reads_unary_bracket {inner : Parser Expr} {token : Token} (opens : token.is "[" = true) :
    reads (unary inner) (.before source names (token :: rest)) =
      reads (do next; array inner) (.before source names (token :: rest)) := by
  have differ : ¬ token.is "(" = true := not_is opens (by decide)
  rw [unary, reads_current_before]
  obtain ⟨kind | kind, _⟩ := kind_of_is opens <;>
    simp only [kind] <;>
    exact congrArg (reads · _) ((if_neg differ).trans (if_pos opens))

theorem unary_complete {inner : Parser Expr} (complete : Complete inner .expression bound) :
    Complete (unary inner) .unary (bound + 1) := by
  intro source names tokens rest e phrase short ends stopped
  cases phrase with
  | @int token kind | @char token kind | @string token kind =>
    rw [unary, List.singleton_append, reads_current_before]
    simp only [kind]
    rw [reads_next_bind ends, reads_pure]
  | selected selected =>
    obtain ⟨name, others, fuel, rfl, ident, known, enough, same⟩ :=
      selected_complete source complete selected short ends
    rw [unary, List.cons_append, reads_current_before]
    simp only [ident]
    rw [reads_known_bind known, reads_next_bind ends.append, reads_remaining_ends ends.append, same,
      selections_complete ends stopped]
  | @parentheses opening closing tokens e opens inner' closes =>
    have later : Ends (tokens ++ closing :: rest) := ends.cons.append
    simp only [List.length_cons, List.length_append, List.length_nil] at short
    have read := complete source inner' (by omega) ends.cons (stopped_of_is closes (by decide))
    rw [List.cons_append, List.append_assoc, List.singleton_append, reads_unary_parenthesis opens,
      reads_next_bind later, reads_bind_of read, reads_expect_bind closes ends, reads_pure]
  | @emptyArray opening closing tokens element opens closes type =>
    have later : Ends (tokens ++ rest) := ends.append
    have read : reads elementType (.before source names (tokens ++ rest)) =
        .ok (element, .before source names rest) := by
      have shape : (State.before source names (tokens ++ rest)).cursor.shape =
          .ok (element, .before source rest) := by
        obtain ⟨token, others, same⟩ := later.exists_cons
        refine shapeWithin_complete type ?_ ends
        simp [State.before, Cursor.before, Cursor.remaining]
        omega
      rw [reads_elementType, shape]
      rfl
    rw [List.cons_append, List.cons_append, reads_unary_bracket opens, reads_next_bind later.cons,
      array, reads_if_pos closes, reads_next_bind later, reads_bind_of read, reads_pure]
  | @array opening closing comma first others e es opens head tail trails closes =>
    have later : Ends (comma.toList ++ closing :: rest) := ends.cons.append
    have onward : Ends (others ++ (comma.toList ++ closing :: rest)) := later.append
    simp only [List.length_cons, List.length_append, List.length_nil] at short
    have read := complete source head (by omega) onward (stopped_more tail trails closes)
    have more := elements_complete source complete tail (by omega) trails closes ends (le_refl _)
    obtain ⟨start, following, rfl, starts⟩ := head.starts
    rw [show opening :: (start :: following ++ (others ++ (comma.toList ++ [closing]))) ++ rest =
        opening :: (start :: following ++ (others ++ (comma.toList ++ closing :: rest))) by simp,
      reads_unary_bracket opens, reads_next_bind onward.append, Parser.array, List.cons_append,
      reads_if_neg (not_closing_of_starts starts), ← List.cons_append, reads_bind_of read,
      reads_remaining_ends onward, reads_bind_of more, reads_pure]

theorem not_minus_of_unary {e : Expr} (phrase : Phrase names .unary tokens e) :
    ∃ token others, tokens = token :: others ∧ ¬ token.is "-" = true := by
  cases phrase with
  | int kind | char kind | string kind => exact ⟨_, _, rfl, by simp [Token.is, kind]⟩
  | selected selected =>
    obtain ⟨token, others, rfl, ident⟩ := selected.starts
    exact ⟨token, others, rfl, by simp [Token.is, ident]⟩
  | parentheses opens _ _ | emptyArray opens _ _ | array opens _ _ _ _ =>
    exact ⟨_, _, rfl, not_is opens (by decide)⟩

theorem factor_complete {inner : Parser Expr} (complete : Complete inner .expression bound) :
    Complete (factor inner) .factor (bound + 1) := by
  intro source names tokens rest e phrase short ends stopped
  cases phrase with
  | @negate minus tokens e sign inner' =>
    simp only [List.length_cons] at short
    have read := unary_complete complete source inner' (by omega) ends stopped
    rw [factor, List.cons_append, reads_if_pos sign, reads_next_bind ends.append,
      reads_bind_of read, reads_pure]
  | plain inner' =>
    have read := unary_complete complete source inner' short ends stopped
    obtain ⟨token, others, rfl, plain⟩ := not_minus_of_unary inner'
    rw [factor, List.cons_append, reads_if_neg plain, ← List.cons_append, read]

/-- After a phrase of a level the parser looks for one more operator of the level. -/
theorem chain_complete (source : Source) {tokens rest : List Token} {level : Operator.Level}
    {operand : Parser Expr} (complete : Complete operand (.operand level) bound) {e : Expr}
    (phrase : Phrase names (.level level) tokens e) (short : tokens.length ≤ bound)
    (ends : Ends rest) (stopped : Stopped (.operand level) rest) :
    ∃ fuel, rest.length ≤ fuel ∧
      reads (binary level operand) (.before source names (tokens ++ rest)) =
        reads (chain level operand fuel e) (.before source names rest) := by
  match phrase with
  | .operand alone =>
    refine ⟨rest.length, le_refl _, ?_⟩
    rw [binary, reads_bind_of (complete source alone short ends stopped), reads_remaining_ends ends]
  | @Phrase.binary _ _ operator token first second left right before found after =>
    have later : Ends (second ++ rest) := ends.append
    simp only [List.length_append, List.length_cons] at short
    obtain ⟨fuel, enough, same⟩ := chain_complete source complete before (by omega)
      (show Ends (token :: _) from later.cons) (stopped_cons (stops_operator found))
    have read := complete source after (by omega) ends stopped
    simp only [List.length_append, List.length_cons] at enough
    obtain ⟨fuel, rfl⟩ : ∃ less, fuel = less + 1 := ⟨fuel - 1, by omega⟩
    refine ⟨fuel, by omega, ?_⟩
    rw [List.append_assoc, List.cons_append, same, chain, reads_current_before]
    simp only [found]
    rw [reads_next_bind later, reads_bind_of read]

theorem binary_complete {level : Operator.Level} {operand : Parser Expr}
    (complete : Complete operand (.operand level) bound) :
    Complete (binary level operand) (.level level) bound := by
  intro source names tokens rest e phrase short ends stopped
  obtain ⟨fuel, enough, same⟩ := chain_complete source complete phrase short ends
    fun token here => (stops_operand (stopped token here)).1
  obtain ⟨token, others, rfl⟩ := ends.exists_cons
  obtain ⟨fuel, rfl⟩ : ∃ less, fuel = less + 1 := ⟨fuel - 1, by simp at enough; omega⟩
  rw [same, chain, reads_current_before]
  simp only [(stops_operand (stopped token rfl)).2]
  rfl

theorem expressionWithin_complete (fuel : Nat) :
    Complete (expressionWithin fuel) .expression fuel := by
  induction fuel with
  | zero =>
    intro source names tokens rest e phrase short ends stopped
    obtain ⟨token, others, rfl, _⟩ := phrase.starts
    cases short
  | succ fuel ih => exact binary_complete (binary_complete (binary_complete (factor_complete ih)))

/-- Every expression is read, up to a token that cannot continue it. -/
theorem expression_complete (source : Source) {e : Expr}
    (phrase : Phrase names .expression tokens e) (ends : Ends rest)
    (stopped : Stopped .expression rest) :
    reads expression (.before source names (tokens ++ rest)) =
      .ok (e, .before source names rest) := by
  rw [expression, reads_remaining_ends ends.append]
  exact expressionWithin_complete _ source phrase (by simp) ends stopped

end

end Parser

end Onepass.Syntax
