import Onepass.Proofs.Grammar.Expressions

/-! The parser reads the statements of the grammar. A statement is read up to a token that cannot
continue it; an `else` continues a statement that ends with an open `if`. -/
namespace Onepass.Syntax

open Grammar (Category Phrase Selected Statement Statements)

namespace Parser

/-- Whether tokens do not start with an `else` that would belong to a statement. -/
def Unclaimed (s : Stmt) (tokens : List Token) : Prop :=
  s.endsOpen = true → ∀ token ∈ tokens.head?, ¬ token.is "else" = true

/-- Whether all statements that a parser reads have derivations. -/
def SoundStatement (parser : Parser Stmt) : Prop :=
  ∀ {source : Source} {names : List Bytes} {tokens : List Token} {s : Stmt} {after : State},
    Ends tokens → reads parser (.before source names tokens) = .ok (s, after) →
    ∃ later first rest, tokens = first ++ rest ∧ Ends rest ∧ after = .before source later rest ∧
      Statement names first s later ∧ Unclaimed s rest

section

variable {source : Source} {names : List Bytes} {tokens : List Token} {after : State}

theorem assignment_sound {s : Stmt} {name : Token} {rest : List Token}
    (ends : Ends (name :: rest)) (ident : name.kind = .ident)
    (success : reads assignment (.before source names (name :: rest)) = .ok (s, after)) :
    ∃ later first others, name :: rest = first ++ others ∧ Ends others ∧
      after = .before source later others ∧ Statement names first s later ∧ s.endsOpen = false := by
  rw [assignment, reads_current_before] at success
  obtain ⟨_, _, moved, success⟩ := reads_bind_ok.mp success
  obtain ⟨ends, rfl⟩ := next_before_eq_ok ends (by simp [ident]) moved
  obtain ⟨token, rest, rfl⟩ := ends.exists_cons
  by_cases opens : token.is "[" = true
  · rw [reads_if_pos opens] at success
    obtain ⟨_, _, checked, success⟩ := reads_bind_ok.mp success
    obtain ⟨known, rfl⟩ := known_eq_ok checked
    rw [reads_remaining_before] at success
    obtain ⟨target, _, read, success⟩ := reads_bind_ok.mp success
    obtain ⟨first, others, same, ends, rfl, selected⟩ :=
      selections_sound expression_sound ends (.name ident known) read
    obtain ⟨_, _, passed, success⟩ := reads_bind_ok.mp success
    obtain ⟨equals, others, rfl, assigns, ends, rfl⟩ := expect_before_eq_ok ends passed
    obtain ⟨value, _, read, success⟩ := reads_bind_ok.mp success
    obtain ⟨second, others, rfl, ends, rfl, phrase⟩ := expression_sound ends read
    generalize whole : [name] ++ first = target' at selected
    cases selected with
    | name _ _ =>
      -- The bracket has not been read, but an equals sign was expected.
      obtain rfl : first = [] := by simpa using (List.cons.inj whole).2
      obtain ⟨rfl, _⟩ := List.cons.inj same
      exact absurd opens (not_is assigns (by decide))
    | index before opens inner closes =>
      cases success
      refine ⟨names, ([name] ++ first) ++ equals :: second, others, ?_, ends, rfl, ?_, rfl⟩
      · simp [same]
      · rw [whole]
        exact .store (.index before opens inner closes) assigns phrase
  · rw [reads_if_neg opens] at success
    obtain ⟨_, _, passed, success⟩ := reads_bind_ok.mp success
    obtain ⟨_, _, same, assigns, ends, rfl⟩ := expect_before_eq_ok ends passed
    obtain ⟨rfl, rfl⟩ := List.cons.inj same
    obtain ⟨value, _, read, success⟩ := reads_bind_ok.mp success
    obtain ⟨first, others, rfl, ends, rfl, phrase⟩ := expression_sound ends read
    rw [reads_bind_of (reads_get _)] at success
    by_cases known : name.text ∈ names
    · have member : (State.before source names others).names.contains name.text = true := by
        simpa [State.before] using known
      rw [if_pos member] at success
      cases success
      exact ⟨names, name :: token :: first, others, rfl, ends, rfl,
        .assign ident known assigns phrase, rfl⟩
    · have member : ¬ (State.before source names others).names.contains name.text = true := by
        simpa [State.before] using known
      rw [if_neg member] at success
      cases success
      exact ⟨name.text :: names, name :: token :: first, others, rfl, ends, rfl,
        .declare ident known assigns phrase, rfl⟩

theorem blockBody_sound {statement : Parser Stmt} (sound : SoundStatement statement) {fuel : Nat}
    {body : List Stmt} (ends : Ends tokens)
    (success : reads (blockBody statement fuel) (.before source names tokens) =
      .ok (body, after)) :
    ∃ later inner closing rest, tokens = inner ++ closing :: rest ∧ Ends rest ∧
      after = .before source later rest ∧ Statements names inner body later ∧
      closing.is "\x7d" = true := by
  induction fuel generalizing names tokens body after with
  | zero =>
    obtain ⟨_, _, passed, success⟩ := reads_bind_ok.mp success
    obtain ⟨closing, rest, rfl, closes, ends, rfl⟩ := expect_before_eq_ok ends passed
    cases success
    exact ⟨names, [], closing, rest, rfl, ends, rfl, .nil, closes⟩
  | succ fuel ih =>
    obtain ⟨token, rest, rfl⟩ := ends.exists_cons
    rw [blockBody, reads_current_before] at success
    by_cases closes : token.is "\x7d" = true
    · rw [if_pos closes] at success
      obtain ⟨_, _, moved, success⟩ := reads_bind_ok.mp success
      obtain ⟨ends, rfl⟩ := next_before_eq_ok ends (ne_eof_of_is closes) moved
      cases success
      exact ⟨names, [], token, rest, rfl, ends, rfl, .nil, closes⟩
    · rw [if_neg closes] at success
      by_cases eof : token.kind = .eof
      · rw [if_pos eof] at success
        cases success
      · rw [if_neg eof] at success
        obtain ⟨s, _, read, success⟩ := reads_bind_ok.mp success
        obtain ⟨middle, first, others, same, ends, rfl, derived, _⟩ := sound ends read
        obtain ⟨rest, _, more, success⟩ := reads_bind_ok.mp success
        cases success
        obtain ⟨later, inner, closing, others, rfl, ends, rfl, tail, closes⟩ := ih ends more
        exact ⟨later, first ++ inner, closing, others, by simp [same], ends, rfl,
          .cons derived tail, closes⟩

theorem conditional_sound {statement : Parser Stmt} (sound : SoundStatement statement) {s : Stmt}
    {word : Token} {rest : List Token} (ends : Ends (word :: rest)) (tests : word.is "if" = true)
    (success : reads (conditional statement) (.before source names (word :: rest)) =
      .ok (s, after)) :
    ∃ later first others, word :: rest = first ++ others ∧ Ends others ∧
      after = .before source later others ∧ Statement names first s later ∧ Unclaimed s others := by
  obtain ⟨_, _, moved, success⟩ := reads_bind_ok.mp success
  obtain ⟨ends, rfl⟩ := next_before_eq_ok ends (ne_eof_of_is tests) moved
  obtain ⟨condition, _, read, success⟩ := reads_bind_ok.mp success
  obtain ⟨first, others, rfl, ends, rfl, phrase⟩ := expression_sound ends read
  obtain ⟨body, _, read, success⟩ := reads_bind_ok.mp success
  obtain ⟨middle, second, others, rfl, ends, rfl, inner, unclaimed⟩ := sound ends read
  obtain ⟨token, others, rfl⟩ := ends.exists_cons
  by_cases separates : token.is "else" = true
  · rw [reads_if_pos separates] at success
    obtain ⟨_, _, moved, success⟩ := reads_bind_ok.mp success
    obtain ⟨ends, rfl⟩ := next_before_eq_ok ends (ne_eof_of_is separates) moved
    obtain ⟨other, _, read, success⟩ := reads_bind_ok.mp success
    cases success
    obtain ⟨later, third, others, rfl, ends, rfl, alternative, open_⟩ := sound ends read
    have nearest : body.endsOpen = false := by
      cases open_ : body.endsOpen with
      | false => rfl
      | true => exact absurd separates (unclaimed open_ token rfl)
    refine ⟨later, word :: (first ++ (second ++ token :: third)), others, by simp, ends, rfl,
      .ifElse tests phrase inner nearest separates alternative, open_⟩
  · rw [reads_if_neg separates] at success
    cases success
    refine ⟨middle, word :: (first ++ second), token :: others, by simp, ends, rfl,
      .ifThen tests phrase inner, fun _ found here => ?_⟩
    cases here
    exact separates

theorem statementWithin_sound (fuel : Nat) : SoundStatement (statementWithin fuel) := by
  induction fuel with
  | zero =>
    intro source names tokens s after _ success
    cases success
  | succ fuel ih =>
    intro source names tokens s after ends success
    obtain ⟨token, rest, rfl⟩ := ends.exists_cons
    rw [statementWithin, reads_current_before] at success
    by_cases ident : token.kind = .ident
    · rw [if_pos ident] at success
      obtain ⟨later, first, others, same, ends, rfl, derived, closed⟩ :=
        assignment_sound ends ident success
      exact ⟨later, first, others, same, ends, rfl, derived, by simp [Unclaimed, closed]⟩
    rw [if_neg ident] at success
    by_cases prints : token.is "print" = true
    · rw [if_pos prints] at success
      obtain ⟨_, _, moved, success⟩ := reads_bind_ok.mp success
      obtain ⟨ends, rfl⟩ := next_before_eq_ok ends (ne_eof_of_is prints) moved
      obtain ⟨value, _, read, success⟩ := reads_bind_ok.mp success
      cases success
      obtain ⟨first, others, rfl, ends, rfl, phrase⟩ := expression_sound ends read
      exact ⟨names, token :: first, others, rfl, ends, rfl, .print prints phrase,
        by simp [Unclaimed, Stmt.endsOpen]⟩
    rw [if_neg prints] at success
    by_cases tests : token.is "if" = true
    · rw [if_pos tests] at success
      exact conditional_sound ih ends tests success
    rw [if_neg tests] at success
    by_cases repeats : token.is "while" = true
    · rw [if_pos repeats] at success
      obtain ⟨_, _, moved, success⟩ := reads_bind_ok.mp success
      obtain ⟨ends, rfl⟩ := next_before_eq_ok ends (ne_eof_of_is repeats) moved
      obtain ⟨condition, _, read, success⟩ := reads_bind_ok.mp success
      obtain ⟨first, others, rfl, ends, rfl, phrase⟩ := expression_sound ends read
      obtain ⟨body, _, read, success⟩ := reads_bind_ok.mp success
      cases success
      obtain ⟨later, second, others, rfl, ends, rfl, inner, unclaimed⟩ := ih ends read
      exact ⟨later, token :: (first ++ second), others, by simp, ends, rfl,
        .loop repeats phrase inner, unclaimed⟩
    rw [if_neg repeats] at success
    by_cases opens : token.is "\x7b" = true
    · rw [if_pos opens] at success
      obtain ⟨_, _, moved, success⟩ := reads_bind_ok.mp success
      obtain ⟨ends, rfl⟩ := next_before_eq_ok ends (ne_eof_of_is opens) moved
      rw [reads_remaining_ends ends] at success
      obtain ⟨body, _, read, success⟩ := reads_bind_ok.mp success
      cases success
      obtain ⟨later, inner, closing, others, rfl, ends, rfl, derived, closes⟩ :=
        blockBody_sound ih ends read
      exact ⟨later, token :: (inner ++ [closing]), others, by simp, ends, rfl,
        .block opens derived closes, by simp [Unclaimed, Stmt.endsOpen]⟩
    rw [if_neg opens] at success
    cases success

/-- Whatever is read as a statement is one. -/
theorem statement_sound : SoundStatement statement := by
  intro source names tokens s after ends success
  rw [statement, reads_remaining_ends ends] at success
  exact statementWithin_sound _ ends success

end

end Parser

namespace Grammar

/-- Whether a statement can start with a token. -/
def startsStatement (token : Token) : Bool :=
  token.kind == .ident || token.is "print" || token.is "if" || token.is "while" || token.is "\x7b"

theorem Statement.starts {names later : List Bytes} {tokens : List Token} {s : Stmt}
    (derived : Statement names tokens s later) :
    ∃ token rest, tokens = token :: rest ∧ startsStatement token = true := by
  cases derived with
  | declare ident _ _ _ | assign ident _ _ _ =>
    exact ⟨_, _, rfl, by simp [startsStatement, ident]⟩
  | store selected _ _ =>
    obtain ⟨token, rest, rfl, ident⟩ := selected.starts
    exact ⟨token, _, rfl, by simp [startsStatement, ident]⟩
  | print word _ | ifThen word _ _ | ifElse word _ _ _ _ _ | loop word _ _ | block word _ _ =>
    exact ⟨_, _, rfl, by simp [startsStatement, word]⟩

end Grammar

namespace Parser

open Grammar (startsStatement)

/-- Whether a parser reads every statement of a bounded length up to a token that cannot continue
it. -/
def CompleteStatement (parser : Parser Stmt) (bound : Nat) : Prop :=
  ∀ (source : Source) {names later : List Bytes} {tokens rest : List Token} {s : Stmt},
    Statement names tokens s later → tokens.length ≤ bound → Ends rest →
    Stopped .expression rest → Unclaimed s rest →
    reads parser (.before source names (tokens ++ rest)) = .ok (s, .before source later rest)

theorem stopped_of_starts {token : Token} {rest : List Token}
    (starts : startsStatement token = true) : Stopped .expression (token :: rest) := by
  simp only [startsStatement, Bool.or_eq_true, beq_iff_eq] at starts
  rcases starts with (((ident | word) | word) | word) | word
  · exact stopped_cons (stops_ident ident)
  · exact stopped_of_is word (by decide)
  · exact stopped_of_is word (by decide)
  · exact stopped_of_is word (by decide)
  · exact stopped_of_is word (by decide)

theorem not_is_of_starts {token : Token} {symbol : Bytes} (starts : startsStatement token = true)
    (differ : symbol ∉ [Bytes.ofString "print", Bytes.ofString "if", Bytes.ofString "while",
      Bytes.ofString "\x7b"]) : ¬ token.is symbol = true := by
  intro found
  obtain ⟨kind, text⟩ := kind_of_is found
  subst text
  simp only [List.mem_cons, List.not_mem_nil, or_false, not_or] at differ
  rcases kind with kind | kind <;> simp [startsStatement, Token.is, kind, differ] at starts

section

variable {source : Source} {names later : List Bytes} {tokens rest : List Token} {bound : Nat}

theorem plain_complete {name equals : Token} {value : Expr} (assigns : equals.is "=" = true)
    (computed : Phrase names .expression tokens value) (ends : Ends rest)
    (stopped : Stopped .expression rest) :
    reads assignment (.before source names (name :: equals :: (tokens ++ rest))) =
      if name.text ∈ names then .ok (.assign name.text value, .before source names rest)
      else .ok (.declare name.text value, .before source (name.text :: names) rest) := by
  have read := expression_complete source computed ends stopped
  rw [assignment, reads_current_before, reads_next_bind ends.append.cons,
    reads_if_neg (not_is assigns (by decide)), reads_expect_bind assigns ends.append,
    reads_bind_of read, reads_bind_of (reads_get _)]
  by_cases known : name.text ∈ names
  · have member : (State.before source names rest).names.contains name.text = true := by
      simpa [State.before] using known
    rw [if_pos member, if_pos known, reads_pure]
  · have member : ¬ (State.before source names rest).names.contains name.text = true := by
      simpa [State.before] using known
    rw [if_neg member, if_neg known]
    rfl

theorem store_complete (source : Source) {equals : Token} {target : List Token} {container selector value : Expr}
    (selected : Selected names target (.index container selector)) (assigns : equals.is "=" = true)
    (computed : Phrase names .expression tokens value) (ends : Ends rest)
    (stopped : Stopped .expression rest) :
    reads assignment (.before source names (target ++ equals :: (tokens ++ rest))) =
      .ok (.store container selector value, .before source names rest) := by
  have later : Ends (equals :: (tokens ++ rest)) := ends.append.cons
  have complete : Complete expression .expression target.length :=
    fun source _ _ _ _ phrase _ ends stopped => expression_complete source phrase ends stopped
  have ended : Stopped .unary (equals :: (tokens ++ rest)) :=
    stopped_cons (by simpa [stops] using not_is assigns (by decide))
  obtain ⟨name, others, fuel, rfl, _, known, _, same⟩ :=
    selected_complete source complete selected (Nat.le_succ _) later
  rcases selected.opens with ⟨_, _, other⟩ | ⟨_, opening, following, whole, opens⟩
  · cases other
  obtain ⟨_, rfl⟩ := List.cons.inj whole
  rw [assignment, List.cons_append, reads_current_before, reads_next_bind later.append,
    List.cons_append, reads_if_pos opens, reads_known_bind known, ← List.cons_append,
    reads_remaining_ends later.append,
    reads_bind_of (same.trans (selections_complete later ended)), reads_expect_bind assigns ends.append,
    reads_bind_of (expression_complete source computed ends stopped)]
  rfl

/-- After a statement of a block comes a token that cannot continue it. -/
theorem follows_statements {body : List Stmt} {closing : Token}
    (derived : Statements names tokens body later) (closes : closing.is "\x7d" = true) (s : Stmt)
    (rest : List Token) :
    Stopped .expression (tokens ++ closing :: rest) ∧ Unclaimed s (tokens ++ closing :: rest) := by
  cases derived with
  | nil =>
    refine ⟨stopped_of_is closes (by decide), fun _ token here => ?_⟩
    cases here
    exact not_is closes (by decide)
  | cons head _ =>
    obtain ⟨token, others, rfl, starts⟩ := head.starts
    refine ⟨stopped_of_starts starts, fun _ token here => ?_⟩
    cases here
    exact not_is_of_starts starts (by decide)

theorem blockBody_complete (source : Source) {statement : Parser Stmt}
    (complete : CompleteStatement statement bound) {body : List Stmt} {closing : Token} {fuel : Nat}
    (derived : Statements names tokens body later) (short : tokens.length ≤ bound)
    (closes : closing.is "\x7d" = true) (ends : Ends rest)
    (enough : (tokens ++ closing :: rest).length ≤ fuel) :
    reads (blockBody statement fuel) (.before source names (tokens ++ closing :: rest)) =
      .ok (body, .before source later rest) := by
  induction fuel generalizing names tokens body with
  | zero => simp at enough
  | succ fuel ih =>
    cases derived with
    | nil =>
      rw [blockBody, List.nil_append, reads_current_before, if_pos closes, reads_next_bind ends,
        reads_pure]
    | @cons _ middle _ first second s others head tail =>
      obtain ⟨stopped, unclaimed⟩ := follows_statements tail closes s rest
      simp only [List.length_append, List.length_cons] at enough short
      have read := complete source head (by omega) ends.cons.append stopped unclaimed
      obtain ⟨token, following, rfl, starts⟩ := head.starts
      simp only [List.length_cons] at enough
      have more := ih tail (by omega) (by simp only [List.length_append, List.length_cons]; omega)
      have other : ¬ token.kind = .eof := by
        intro eof
        simp [startsStatement, Token.is, eof] at starts
      rw [blockBody, List.append_assoc, List.cons_append, reads_current_before,
        if_neg (not_is_of_starts starts (by decide)), if_neg other, ← List.cons_append,
        reads_bind_of read, reads_bind_of more, reads_pure]

theorem ifThen_complete {statement : Parser Stmt} (complete : CompleteStatement statement bound)
    {word : Token} {first second : List Token} {condition : Expr} {body : Stmt}
    (computed : Phrase names .expression first condition)
    (inner : Statement names second body later) (short : second.length ≤ bound) (ends : Ends rest)
    (stopped : Stopped .expression rest) (unclaimed : Unclaimed (.ifThen condition body) rest) :
    reads (conditional statement) (.before source names (word :: (first ++ (second ++ rest)))) =
      .ok (.ifThen condition body, .before source later rest) := by
  have onward : Ends (second ++ rest) := ends.append
  have read := complete source inner short ends stopped fun _ => unclaimed rfl
  obtain ⟨token, others, rfl⟩ := ends.exists_cons
  obtain ⟨start, following, rfl, starts⟩ := inner.starts
  have test := expression_complete source computed onward (stopped_of_starts starts)
  rw [conditional, reads_next_bind onward.append, reads_bind_of test, reads_bind_of read,
    reads_if_neg (unclaimed rfl token rfl), reads_pure]

theorem ifElse_complete {statement : Parser Stmt} (complete : CompleteStatement statement bound)
    {middle : List Bytes} {word separator : Token} {first second third : List Token}
    {condition : Expr} {body other : Stmt} (computed : Phrase names .expression first condition)
    (inner : Statement names second body middle) (nearest : body.endsOpen = false)
    (separates : separator.is "else" = true) (alternative : Statement middle third other later)
    (short : second.length + third.length ≤ bound) (ends : Ends rest)
    (stopped : Stopped .expression rest) (unclaimed : Unclaimed other rest) :
    reads (conditional statement)
      (.before source names (word :: (first ++ (second ++ separator :: (third ++ rest))))) =
      .ok (.ifElse condition body other, .before source later rest) := by
  have onward : Ends (third ++ rest) := ends.append
  have read := complete source inner (by omega) (show Ends (separator :: _) from onward.cons)
    (stopped_of_is separates (by decide)) (by simp [Unclaimed, nearest])
  have last := complete source alternative (by omega) ends stopped unclaimed
  obtain ⟨start, following, rfl, starts⟩ := inner.starts
  have whole : Ends (start :: following ++ separator :: (third ++ rest)) := onward.cons.append
  have test := expression_complete source computed whole (stopped_of_starts starts)
  rw [conditional, reads_next_bind whole.append, reads_bind_of test, reads_bind_of read,
    reads_if_pos separates, reads_next_bind onward, reads_bind_of last, reads_pure]

theorem reads_statement_word {word : Token} {symbol : Bytes} {fuel : Nat}
    (found : word.is symbol = true) :
    reads (statementWithin (fuel + 1)) (.before source names (word :: rest)) =
      reads (if symbol = Bytes.ofString "print" then do
          next
          return .print (← expression)
        else if symbol = Bytes.ofString "if" then conditional (statementWithin fuel)
        else if symbol = Bytes.ofString "while" then do
          next
          let condition ← expression
          return .loop condition (← statementWithin fuel)
        else if symbol = Bytes.ofString "\x7b" then do
          next
          return .block (← blockBody (statementWithin fuel) (← remaining))
        else fail word (.expectedStatement word)) (.before source names (word :: rest)) := by
  obtain ⟨kind, rfl⟩ := kind_of_is found
  have is (other : Bytes) : word.is other = decide (word.text = other) := by
    rcases kind with kind | kind <;> simp [Token.is, kind, Bool.beq_eq_decide_eq]
  have plain : ¬ word.kind = .ident := by rcases kind with kind | kind <;> simp [kind]
  rw [statementWithin, reads_current_before, if_neg plain]
  simp only [is, decide_eq_true_eq]

theorem statementWithin_complete (fuel : Nat) :
    CompleteStatement (statementWithin fuel) fuel := by
  induction fuel with
  | zero =>
    intro source names later tokens rest s derived short _ _ _
    obtain ⟨token, others, rfl, _⟩ := derived.starts
    cases short
  | succ fuel ih =>
    intro source names later tokens rest s derived short ends stopped unclaimed
    cases derived with
    | @declare _ name equals tokens value ident new assigns computed =>
      rw [statementWithin, List.cons_append, reads_current_before, if_pos ident, List.cons_append,
        plain_complete assigns computed ends stopped, if_neg new]
    | @assign _ name equals tokens value ident known assigns computed =>
      rw [statementWithin, List.cons_append, reads_current_before, if_pos ident, List.cons_append,
        plain_complete assigns computed ends stopped, if_pos known]
    | @store _ equals target tokens container selector value selected assigns computed =>
      have read := store_complete source selected assigns computed ends stopped
      obtain ⟨name, others, rfl, ident⟩ := selected.starts
      rw [statementWithin, List.append_assoc, List.cons_append, reads_current_before,
        if_pos ident]
      exact read
    | @print _ word tokens value prints computed =>
      have read := expression_complete source computed ends stopped
      rw [List.cons_append, reads_statement_word prints, if_pos rfl, reads_next_bind ends.append,
        reads_bind_of read, reads_pure]
    | @ifThen _ _ word first second condition body tests computed inner =>
      simp only [List.length_cons, List.length_append] at short
      rw [List.cons_append, reads_statement_word tests, if_neg (by decide), if_pos rfl,
        List.append_assoc, ifThen_complete ih computed inner (by omega) ends stopped unclaimed]
    | @ifElse _ middle _ word separator first second third condition body other tests computed inner
        nearest separates alternative =>
      simp only [List.length_cons, List.length_append] at short
      rw [List.cons_append, reads_statement_word tests, if_neg (by decide), if_pos rfl,
        List.append_assoc, List.append_assoc, List.cons_append,
        ifElse_complete ih computed inner nearest separates alternative (by omega) ends stopped
          unclaimed]
    | @loop _ _ word first second condition body repeats computed inner =>
      simp only [List.length_cons, List.length_append] at short
      have onward : Ends (second ++ rest) := ends.append
      have read := ih source inner (by omega) ends stopped unclaimed
      obtain ⟨start, following, rfl, starts⟩ := inner.starts
      have test := expression_complete source computed onward (stopped_of_starts starts)
      rw [List.cons_append, reads_statement_word repeats, if_neg (by decide), if_neg (by decide),
        if_pos rfl, List.append_assoc, reads_next_bind onward.append, reads_bind_of test,
        reads_bind_of read, reads_pure]
    | @block _ _ opening closing tokens body opens inner closes =>
      simp only [List.length_cons, List.length_append] at short
      have onward : Ends (tokens ++ closing :: rest) := ends.cons.append
      have read := blockBody_complete source ih inner (by omega) closes ends (le_refl _)
      rw [List.cons_append, reads_statement_word opens, if_neg (by decide), if_neg (by decide),
        if_neg (by decide), if_pos rfl, List.append_assoc, List.singleton_append,
        reads_next_bind onward, reads_remaining_ends onward, reads_bind_of read, reads_pure]

/-- Every statement is read, up to a token that cannot continue it. -/
theorem statement_complete (source : Source) {s : Stmt} (derived : Statement names tokens s later)
    (ends : Ends rest) (stopped : Stopped .expression rest) (unclaimed : Unclaimed s rest) :
    reads statement (.before source names (tokens ++ rest)) = .ok (s, .before source later rest) := by
  rw [statement, reads_remaining_ends ends.append]
  exact statementWithin_complete _ source derived (by simp) ends stopped unclaimed

end

end Parser

end Onepass.Syntax
