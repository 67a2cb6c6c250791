import Onepass.Proofs.Grammar.Statements

/-! The parser accepts the grammar. On a source without lexical faults it gives a tree exactly when
the tokens of the source derive the tree; a list of tokens derives at most one tree; and a tree
declares a name where it is first assigned. -/
namespace Onepass

namespace Lexeme

private theorem length_closeCharacter_pos (contents : List Char) (read : Nat) (rest : List Char) :
    0 < (closeCharacter contents read rest).length := by
  unfold closeCharacter
  split
  · exact Nat.succ_pos _
  · exact Nat.succ_pos _

private theorem length_character_pos (text : List Char) : 0 < (character text).length := by
  unfold character
  split
  · exact Nat.one_pos
  · exact Nat.one_pos
  · exact Nat.one_pos
  · exact length_closeCharacter_pos ..
  · exact length_closeCharacter_pos ..

private theorem operatorLength_pos {text : List Char} {length : Nat}
    (found : operatorLength? text = some length) : 0 < length := by
  unfold operatorLength? at found
  split at found
  · cases found
    exact Nat.succ_pos _
  · split at found
    · cases found
      exact Nat.one_pos
    · split at found
      · cases found
        split <;> exact Nat.succ_pos _
      · cases found
  · cases found

/-- Every lexeme takes a character. -/
theorem length_ofChars_pos (first : Char) (rest : List Char) : 0 < (ofChars first rest).length := by
  have taken {kind : Char → Bool} (holds : kind first = true) :
      0 < ((first :: rest).takeWhile kind).length := by
    simp [holds]
  simp only [ofChars]
  split
  · rename_i digit
    exact taken digit
  split
  · rename_i letter
    exact taken (by simp [letter])
  split
  · exact Nat.succ_pos _
  split
  · exact length_character_pos rest
  split
  · rename_i found
    exact operatorLength_pos found
  · exact Nat.one_pos

end Lexeme

namespace TokenStream

/-- A reader moves on when it reads a token that is not the end of input. -/
theorem length_scan {source : Source} {r next : Reader} {token : Token}
    (read : r.scan source = (.ok token, next)) (other : token.kind ≠ .eof) :
    next.rest.length < r.rest.length := by
  have shorter : r.skipBlank.rest.length ≤ r.rest.length := by
    simp [Reader.skipBlank, Reader.advance]
  unfold Reader.scan at read
  simp only at read
  split at read
  · obtain ⟨same, _⟩ := Prod.mk.inj read
    cases same
    exact absurd rfl other
  · rename_i first rest here
    obtain ⟨_, rfl⟩ := Prod.mk.inj read
    have positive := Lexeme.length_ofChars_pos first rest
    have length : (first :: rest).length = r.skipBlank.rest.length := by rw [here]
    simp only [Reader.advance, List.length_drop, List.length_cons] at length ⊢
    omega

private theorem scanFrom_ends {source : Source} {fuel : Nat} {r : Reader}
    (enough : r.rest.length < fuel) (fine : (scanFrom source fuel r).fault = none) :
    ∃ body last, (scanFrom source fuel r).tokens = body ++ [last] ∧ last.kind = .eof ∧
      ∀ token ∈ body, token.kind ≠ .eof := by
  induction fuel generalizing r with
  | zero => cases enough
  | succ fuel ih =>
    rcases read : r.scan source with ⟨fault | token, next⟩
    · simp only [scanFrom, read] at fine
      cases fine
    · by_cases eof : token.kind = .eof
      · refine ⟨[], token, ?_, eof, by simp⟩
        simp [scanFrom, read, eof]
      · have shorter := length_scan read eof
        simp only [scanFrom, read, if_neg eof] at fine ⊢
        obtain ⟨body, last, same, final, others⟩ := ih (by omega) fine
        refine ⟨token :: body, last, by simp [same], final, ?_⟩
        simpa using ⟨eof, others⟩

/-- The tokens of a source without lexical faults end with the end of input. -/
theorem ofSource_ends {source : Source} (fine : (ofSource source).fault = none) :
    ∃ body last, (ofSource source).tokens = body ++ [last] ∧ last.kind = .eof ∧
      ∀ token ∈ body, token.kind ≠ .eof :=
  scanFrom_ends (Nat.lt_succ_self _) fine

end TokenStream

namespace Syntax

open Grammar (Category Phrase Program Statement Statements startsStatement)

namespace Parser

variable {source : Source} {names later : List Bytes}

/-- Whatever is read up to the end of input is a sequence of statements. -/
theorem program_sound {fuel : Nat} {tokens : List Token} {tree : List Stmt} {after : State}
    (ends : Ends tokens) (enough : tokens.length ≤ fuel)
    (success : reads (program fuel) (.before source names tokens) = .ok (tree, after)) :
    ∃ later first last rest, tokens = first ++ last :: rest ∧ last.kind = .eof ∧
      Statements names first tree later := by
  induction fuel generalizing names tokens tree after with
  | zero =>
    obtain ⟨token, rest, rfl⟩ := ends.exists_cons
    cases enough
  | succ fuel ih =>
    obtain ⟨token, rest, rfl⟩ := ends.exists_cons
    rw [program, reads_current_before] at success
    by_cases eof : token.kind = .eof
    · rw [if_pos eof] at success
      cases success
      exact ⟨names, [], token, rest, rfl, eof, .nil⟩
    · rw [if_neg eof] at success
      obtain ⟨s, _, read, success⟩ := reads_bind_ok.mp success
      obtain ⟨middle, first, others, same, ends, rfl, derived, _⟩ := statement_sound ends read
      obtain ⟨more, _, read, success⟩ := reads_bind_ok.mp success
      cases success
      have shorter : others.length ≤ fuel := by
        obtain ⟨_, _, rfl, _⟩ := derived.starts
        have total := congrArg List.length same
        simp only [List.length_cons, List.length_append] at total enough
        omega
      obtain ⟨later, second, last, rest, rfl, final, tail⟩ := ih ends shorter read
      exact ⟨later, first ++ second, last, rest, by simp [same], final, .cons derived tail⟩

/-- After a statement of a program comes a token that cannot continue it. -/
private theorem follows_program {tokens : List Token} {tree : List Stmt} {last : Token}
    (derived : Statements names tokens tree later) (eof : last.kind = .eof) (s : Stmt) :
    Stopped .expression (tokens ++ [last]) ∧ Unclaimed s (tokens ++ [last]) := by
  cases derived with
  | nil =>
    have stopped : stops .expression last = true := by
      simp [stops, Operator.Level.operator?, Token.is, eof]
    refine ⟨stopped_cons stopped, fun _ token here => ?_⟩
    cases here
    simp [Token.is, eof]
  | cons next _ =>
    obtain ⟨token, rest, rfl, starts⟩ := next.starts
    refine ⟨stopped_of_starts starts, fun _ token here => ?_⟩
    cases here
    exact not_is_of_starts starts (by decide)

/-- Every sequence of statements is read up to the end of input. -/
theorem program_complete (source : Source) {fuel : Nat} {tokens : List Token} {last : Token}
    {tree : List Stmt} (derived : Statements names tokens tree later) (eof : last.kind = .eof)
    (enough : tokens.length ≤ fuel) :
    reads (program fuel) (.before source names (tokens ++ [last])) =
      .ok (tree, .before source later [last]) := by
  induction fuel generalizing names tokens tree with
  | zero =>
    cases derived with
    | nil => rfl
    | cons head _ =>
      obtain ⟨token, rest, rfl, _⟩ := head.starts
      cases enough
  | succ fuel ih =>
    cases derived with
    | nil => rw [program, List.nil_append, reads_current_before, if_pos eof, reads_pure]
    | @cons _ middle _ first second s others head tail =>
      obtain ⟨stopped, unclaimed⟩ := follows_program tail eof s
      have read := statement_complete source head ⟨second, last, rfl, eof⟩ stopped unclaimed
      obtain ⟨token, rest, rfl, starts⟩ := head.starts
      simp only [List.length_append, List.length_cons] at enough
      have more := ih tail (by omega)
      have other : ¬ token.kind = .eof := by
        intro eof
        simp [startsStatement, Token.is, eof] at starts
      rw [program, List.append_assoc, List.cons_append, reads_current_before, if_neg other,
        ← List.cons_append, reads_bind_of read, reads_bind_of more, reads_pure]

end Parser

/-! First assignments. -/

mutual

/-- The names that a statement assigns in textual order, each marked if it is declared there. -/
def Stmt.marks : Stmt → List (Bytes × Bool)
  | .declare name _ => [(name, true)]
  | .assign name _ => [(name, false)]
  | .store _ _ _ | .print _ => []
  | .ifThen _ body | .loop _ body => body.marks
  | .ifElse _ body other => body.marks ++ other.marks
  | .block body => Stmt.allMarks body

/-- The names that statements assign. -/
def Stmt.allMarks : List Stmt → List (Bytes × Bool)
  | [] => []
  | first :: rest => first.marks ++ Stmt.allMarks rest

end

/-- Whether exactly the names that are new are marked. -/
def FirstMarked (known : List Bytes) : List (Bytes × Bool) → Prop
  | [] => True
  | (name, marked) :: rest => (marked = true ↔ name ∉ known) ∧ FirstMarked (name :: known) rest

theorem FirstMarked.congr {first second : List Bytes} {marks : List (Bytes × Bool)}
    (same : ∀ name, name ∈ first ↔ name ∈ second) (marked : FirstMarked first marks) :
    FirstMarked second marks := by
  induction marks generalizing first second with
  | nil => trivial
  | cons entry rest ih =>
    obtain ⟨here, others⟩ := marked
    exact ⟨here.trans (not_congr (same entry.1)), ih (by simp [same]) others⟩

theorem FirstMarked.append {known : List Bytes} {first second : List (Bytes × Bool)}
    (one : FirstMarked known first) (two : FirstMarked (first.map Prod.fst ++ known) second) :
    FirstMarked known (first ++ second) := by
  induction first generalizing known with
  | nil => exact two
  | cons entry rest ih => exact ⟨one.1, ih one.2 (two.congr (by simp [or_left_comm]))⟩

/-- What is marked in a place was not assigned before. -/
theorem FirstMarked.split {known : List Bytes} {first second : List (Bytes × Bool)} {name : Bytes}
    {marked : Bool} (all : FirstMarked known (first ++ (name, marked) :: second)) :
    marked = true ↔ name ∉ known ∧ name ∉ first.map Prod.fst := by
  induction first generalizing known with
  | nil => simpa using all.1
  | cons entry rest ih =>
    rw [ih all.2]
    simp only [List.mem_cons, not_or, List.map_cons]
    tauto

namespace Grammar

mutual

private theorem Statement.marked {names later : List Bytes} {tokens : List Token} {s : Stmt}
    (derived : Statement names tokens s later) :
    FirstMarked names s.marks ∧ ∀ name, name ∈ later ↔ name ∈ s.marks.map Prod.fst ++ names := by
  match derived with
  | .declare _ new _ _ => exact ⟨by simp [Stmt.marks, FirstMarked, new], by simp [Stmt.marks]⟩
  | .assign _ known _ _ =>
    refine ⟨by simp [Stmt.marks, FirstMarked, known], fun name => ?_⟩
    simp only [Stmt.marks, List.map_cons, List.map_nil, List.singleton_append, List.mem_cons]
    exact ⟨.inr, fun either => either.elim (fun same => same ▸ known) id⟩
  | .store _ _ _ | .print _ _ => exact ⟨trivial, by simp [Stmt.marks]⟩
  | .ifThen _ _ inner | .loop _ _ inner => exact inner.marked
  | .ifElse _ _ inner _ _ alternative =>
    obtain ⟨one, first⟩ := inner.marked
    obtain ⟨two, second⟩ := alternative.marked
    refine ⟨one.append (two.congr first), fun name => ?_⟩
    simp only [Stmt.marks, second, first, List.map_append, List.mem_append]
    tauto
  | .block _ inner _ => exact inner.marked

private theorem Statements.marked {names later : List Bytes} {tokens : List Token}
    {body : List Stmt} (derived : Statements names tokens body later) :
    FirstMarked names (Stmt.allMarks body) ∧
      ∀ name, name ∈ later ↔ name ∈ (Stmt.allMarks body).map Prod.fst ++ names := by
  match derived with
  | .nil => exact ⟨trivial, by simp [Stmt.allMarks]⟩
  | .cons head tail =>
    obtain ⟨one, first⟩ := head.marked
    obtain ⟨two, second⟩ := tail.marked
    refine ⟨one.append (two.congr first), fun name => ?_⟩
    simp only [Stmt.allMarks, second, first, List.map_append, List.mem_append]
    tauto

end

/-- A list of tokens derives at most one tree. -/
theorem Program.unique {tokens : List Token} {first second : List Stmt}
    (one : Program tokens first) (two : Program tokens second) : first = second := by
  obtain ⟨_, one⟩ := one
  obtain ⟨_, two⟩ := two
  have ending : Token.kind ⟨.eof, [], 0, .start⟩ = .eof := rfl
  have read := Parser.program_complete ⟨[], []⟩ one ending (le_refl _)
  rw [Parser.program_complete ⟨[], []⟩ two ending (le_refl _)] at read
  cases read
  rfl

end Grammar

/-- Tokens up to the first end of input. -/
private theorem cut_at_end {tokens first rest : List Token} {last final : Token}
    (others : ∀ token ∈ tokens, token.kind ≠ .eof)
    (same : tokens ++ [last] = first ++ final :: rest) (eof : final.kind = .eof) :
    first = tokens ∧ rest = [] := by
  induction tokens generalizing first with
  | nil =>
    cases first with
    | nil => exact ⟨rfl, (List.cons.inj same).2.symm⟩
    | cons token more => simp at same
  | cons token tokens ih =>
    cases first with
    | nil =>
      obtain ⟨rfl, _⟩ := List.cons.inj same
      exact absurd eof (others token (List.mem_cons_self ..))
    | cons other more =>
      obtain ⟨rfl, later⟩ := List.cons.inj same
      obtain ⟨rfl, ended⟩ := ih (fun token member => others token (List.mem_cons_of_mem _ member)) later
      exact ⟨rfl, ended⟩

/-- On a source without lexical faults the parser gives the trees of its tokens. -/
theorem parse_iff_program {source : Source} {tokens : List Token} {last : Token}
    (scans : (TokenStream.ofSource source).fault = none)
    (whole : (TokenStream.ofSource source).tokens = tokens ++ [last]) (eof : last.kind = .eof)
    (others : ∀ token ∈ tokens, token.kind ≠ .eof) (tree : List Stmt) :
    parse source = .ok tree ↔ Program tokens tree := by
  have ends : Parser.Ends (tokens ++ [last]) := ⟨tokens, last, rfl, eof⟩
  have start : Cursor.ofSource source = .ok (.before source (tokens ++ [last])) := by
    obtain ⟨token, rest, same⟩ := ends.exists_cons
    simp only [Cursor.ofSource, whole, scans, same]
    rfl
  have parsed : parse source = (Parser.reads (Parser.program (tokens ++ [last]).length)
      (.before source [] (tokens ++ [last]))).map Prod.fst := by
    obtain ⟨token, rest, same⟩ := ends.exists_cons
    simp only [parse, start, same]
    rfl
  constructor
  · intro success
    rw [parsed] at success
    cases read : Parser.reads (Parser.program (tokens ++ [last]).length)
      (.before source [] (tokens ++ [last])) with
    | error _ =>
      rw [read] at success
      cases success
    | ok result =>
      rw [read] at success
      cases success
      obtain ⟨names, first, final, rest, same, ended, derived⟩ :=
        Parser.program_sound ends (le_refl _) read
      obtain ⟨rfl, _⟩ := cut_at_end others same ended
      exact ⟨names, derived⟩
  · rintro ⟨names, derived⟩
    rw [parsed, Parser.program_complete source derived eof (by simp)]
    rfl

/-- The parser accepts exactly the grammar. On a source without lexical faults it gives a tree if and
only if the tokens before the end of input derive the tree. Tokens derive at most one tree. In a
tree that is derived, the assignment of a name is a declaration where the name was not assigned
before. -/
theorem parse_eq_ok_iff (source : Source) (scans : (TokenStream.ofSource source).fault = none) :
    (∃ tokens last, (TokenStream.ofSource source).tokens = tokens ++ [last] ∧ last.kind = .eof ∧
      (∀ token ∈ tokens, token.kind ≠ .eof) ∧
      ∀ tree, parse source = .ok tree ↔ Program tokens tree) ∧
    (∀ tokens first second, Program tokens first → Program tokens second → first = second) ∧
    ∀ tokens tree, Program tokens tree → ∀ before name declared after,
      Stmt.allMarks tree = before ++ (name, declared) :: after →
      (declared = true ↔ name ∉ before.map Prod.fst) := by
  refine ⟨?_, fun _ _ _ one two => one.unique two, ?_⟩
  · obtain ⟨tokens, last, whole, eof, others⟩ := TokenStream.ofSource_ends scans
    exact ⟨tokens, last, whole, eof, others, parse_iff_program scans whole eof others⟩
  · rintro tokens tree ⟨names, derived⟩ before name declared after split
    have marked := derived.marked.1
    rw [split] at marked
    simpa using marked.split

/-- A program with an `else` after two open conditionals, a trailing comma and a second
assignment. -/
private def dangling : Source :=
  ⟨[], "a = [1, 2,] if a[0] < 2 if 0 a[1] = -a[0] * 3 - 1 else a = [] int"⟩

theorem parse_eq_ok_iff_dangling :
    ∃ tokens tree, (TokenStream.ofSource dangling).tokens.dropLast = tokens ∧
      parse dangling = .ok tree ∧ Program tokens tree := by
  have scans : (TokenStream.ofSource dangling).fault = none := by decide +kernel
  have accepted : (parse dangling).isOk = true := by decide +kernel
  obtain ⟨⟨tokens, last, whole, _, _, iff⟩, _⟩ := parse_eq_ok_iff dangling scans
  cases parsed : parse dangling with
  | error _ =>
    rw [parsed] at accepted
    cases accepted
  | ok tree => exact ⟨tokens, tree, by simp [whole], rfl, (iff tree).mp parsed⟩

end Syntax

end Onepass
