import Onepass.Proofs.Lexical.Places
import Onepass.Proofs.Lockstep.Session
import Onepass.Proofs.Totality.Cursor

/-! Where the parser reports its faults. A cursor never leaves the tokens of its source, and every
token that a rule fails at was current at some time, so each report points at a lexeme. -/
namespace Onepass.Syntax

/-- Whether a result is good or a report that points into a source. -/
def Reports {α : Type} (source : Source) (good : α → Prop) : Except Diagnostic α → Prop
  | .ok a => good a
  | .error d => d.PointsInto source

theorem Reports.bind {α β : Type} {source : Source} {good : α → Prop} {fine : β → Prop}
    {result : Except Diagnostic α} {next : α → Except Diagnostic β}
    (first : Reports source good result) (rest : ∀ a, good a → Reports source fine (next a)) :
    Reports source fine (result >>= next) := by
  cases result with
  | error d => exact first
  | ok a => exact rest a first

namespace Cursor

/-- Whether a cursor stands at a token of a source. -/
structure Within (source : Source) (c : Cursor) : Prop where
  origin : c.source = source
  tokens : (c.current :: c.rest) <:+ (TokenStream.ofSource source).tokens
  fault : c.fault = (TokenStream.ofSource source).fault

namespace Within

variable {source : Source} {c : Cursor} (within : c.Within source)

include within

theorem current : source.LexemeAt c.current.position :=
  TokenStream.lexemeAt_of_mem (within.tokens.mem List.mem_cons_self)

theorem diagnostic {token : Token} (lexeme : source.LexemeAt token.position)
    (cause : Diagnostic.Cause) : (c.diagnostic token cause).PointsInto source := by
  rw [Cursor.diagnostic, within.origin]
  exact lexeme.pointsInto cause

theorem next : Reports source (Within source) c.next := by
  rw [Cursor.next]
  split
  · rename_i token rest here
    have tail : token :: rest <:+ c.current :: c.rest := by
      rw [here]
      exact List.suffix_cons _ _
    exact ⟨within.origin, tail.trans within.tokens, within.fault⟩
  · split
    · rename_i d fault
      exact TokenStream.pointsInto_of_fault (within.fault.symm.trans fault)
    · exact within

theorem expect (symbol : Bytes) : Reports source (Within source) (c.expect symbol) := by
  rw [Cursor.expect]
  split
  · exact within.next
  · exact within.diagnostic within.current _

omit within in
theorem shapeWithin (fuel : Nat) {c : Cursor} (within : c.Within source) :
    Reports source (fun result => result.2.Within source) (Cursor.shapeWithin fuel c) := by
  induction fuel generalizing c with
  | zero => exact within.diagnostic within.current _
  | succ fuel ih =>
    rw [Cursor.shapeWithin]
    split
    · refine within.next.bind fun c within => (within.expect _).bind fun c within => ?_
      exact (ih within).bind fun _ within => within
    · split
      · exact within.next.bind fun c within => within
      · exact within.diagnostic within.current _

theorem shape : Reports source (fun result => result.2.Within source) c.shape :=
  within.shapeWithin _

end Within

theorem source_next {c after : Cursor} (moved : c.next = .ok after) : after.source = c.source := by
  rw [Cursor.next] at moved
  split at moved
  · cases moved
    rfl
  · split at moved
    · cases moved
    · cases moved
      rfl

theorem ofSource_within (source : Source) : Reports source (Within source) (ofSource source) := by
  cases started : ofSource source with
  | ok c =>
    obtain ⟨fault, tokens⟩ := tokens_of_ofSource started
    exact ⟨source_next started, tokens ▸ List.suffix_refl _, fault⟩
  | error d =>
    rw [ofSource, Cursor.next] at started
    split at started
    · cases started
    · split at started
      · rename_i fault
        cases started
        exact TokenStream.pointsInto_of_fault fault
      · cases started

end Cursor

namespace Parser

/-- Whether a parser stays in its source, gives good results only, and reports faults at lexemes. -/
def Tracks {α : Type} (source : Source) (good : α → Prop) (parser : Parser α) : Prop :=
  ∀ s, s.cursor.Within source →
    Reports source (fun result => good result.1 ∧ result.2.cursor.Within source) (reads parser s)

namespace Tracks

variable {α β : Type} {source : Source} {good : α → Prop} {fine : β → Prop}

theorem pure {a : α} (holds : good a) : Tracks source good (pure a) :=
  fun _ within => ⟨holds, within⟩

theorem bind {parser : Parser α} {next : α → Parser β} (first : Tracks source good parser)
    (rest : ∀ a, good a → Tracks source fine (next a)) : Tracks source fine (parser >>= next) := by
  intro s within
  have read := first s within
  rw [reads_bind]
  cases result : reads parser s with
  | error d =>
    rw [result] at read
    exact read
  | ok pair =>
    rw [result] at read
    exact rest _ read.1 _ read.2

theorem seq {parser : Parser α} {next : Parser β} (first : Tracks source good parser)
    (rest : Tracks source fine next) : Tracks source fine (do let _ ← parser; next) :=
  first.bind fun _ _ => rest

theorem current : Tracks source (fun token => source.LexemeAt token.position) current :=
  fun _ within => ⟨within.current, within⟩

theorem remaining : Tracks source (fun _ => True) remaining := fun _ within => ⟨trivial, within⟩

theorem fail {token : Token} (lexeme : source.LexemeAt token.position) (cause : Diagnostic.Cause) :
    Tracks source good (fail token cause) :=
  fun _ within => within.diagnostic lexeme cause

theorem next : Tracks source (fun _ => True) next := by
  intro s within
  have moved := within.next
  rw [reads_next]
  cases result : s.cursor.next with
  | error d =>
    rw [result] at moved
    exact moved
  | ok c =>
    rw [result] at moved
    exact ⟨trivial, moved⟩

theorem expect (symbol : Bytes) : Tracks source (fun _ => True) (expect symbol) := by
  intro s within
  have moved := within.expect symbol
  rw [reads_expect]
  cases result : s.cursor.expect symbol with
  | error d =>
    rw [result] at moved
    exact moved
  | ok c =>
    rw [result] at moved
    exact ⟨trivial, moved⟩

theorem elementType : Tracks source (fun _ => True) elementType := by
  intro s within
  have moved := within.shape
  rw [reads_elementType]
  cases result : s.cursor.shape with
  | error d =>
    rw [result] at moved
    exact moved
  | ok pair =>
    rw [result] at moved
    exact ⟨trivial, moved⟩

theorem known {token : Token} (lexeme : source.LexemeAt token.position) :
    Tracks source (fun _ => True) (known token) := by
  intro s within
  have checked : Tracks source (fun _ => True) (do
      unless s.names.contains token.text do Parser.fail token (.unknownVariable token.text)) := by
    split
    · exact pure trivial
    · exact fail lexeme _
  exact checked s within

section

variable {expression : Parser Expr} (tracks : Tracks source (fun _ => True) expression)

include tracks

theorem selections (fuel : Nat) (left : Expr) :
    Tracks source (fun _ => True) (selections expression fuel left) := by
  induction fuel generalizing left with
  | zero => exact pure trivial
  | succ fuel ih =>
    refine current.bind fun token _ => ?_
    split
    · exact next.seq (tracks.bind fun selector _ => (expect _).seq (ih _))
    · exact pure trivial

theorem elements (fuel : Nat) : Tracks source (fun _ => True) (elements expression fuel) := by
  induction fuel with
  | zero => exact (expect _).seq (pure trivial)
  | succ fuel ih =>
    refine current.bind fun token _ => ?_
    split
    · exact next.seq (pure trivial)
    refine (expect _).seq (current.bind fun token _ => ?_)
    split
    · exact next.seq (pure trivial)
    · exact tracks.bind fun element _ => ih.bind fun rest _ => pure trivial

theorem array : Tracks source (fun _ => True) (array expression) := by
  refine current.bind fun token _ => ?_
  split
  · exact next.seq (elementType.bind fun shape _ => pure trivial)
  · refine tracks.bind fun first _ => remaining.bind fun fuel _ => ?_
    exact (elements tracks fuel).bind fun rest _ => pure trivial

theorem unary : Tracks source (fun _ => True) (unary expression) := by
  refine current.bind fun token lexeme => ?_
  split
  · refine (known lexeme).seq (next.seq (remaining.bind fun fuel _ => ?_))
    exact selections tracks fuel _
  · exact next.seq (pure trivial)
  · exact next.seq (pure trivial)
  · exact next.seq (pure trivial)
  · split
    · exact next.seq (tracks.bind fun inner _ => (expect _).seq (pure trivial))
    split
    · exact next.seq (array tracks)
    · exact fail lexeme _

theorem factor : Tracks source (fun _ => True) (factor expression) := by
  refine current.bind fun token _ => ?_
  split
  · exact next.seq ((unary tracks).bind fun operand _ => pure trivial)
  · exact unary tracks

/-- Here the parameter is the reader of operands. -/
theorem chain (level : Operator.Level) (fuel : Nat) (left : Expr) :
    Tracks source (fun _ => True) (chain level expression fuel left) := by
  induction fuel generalizing left with
  | zero => exact pure trivial
  | succ fuel ih =>
    refine current.bind fun token _ => ?_
    split
    · exact pure trivial
    · exact next.seq (tracks.bind fun right _ => ih _)

theorem binary (level : Operator.Level) :
    Tracks source (fun _ => True) (binary level expression) :=
  tracks.bind fun first _ => remaining.bind fun fuel _ => chain tracks level fuel first

end

theorem expressionWithin (fuel : Nat) : Tracks source (fun _ => True) (expressionWithin fuel) := by
  induction fuel with
  | zero => exact current.bind fun token lexeme => fail lexeme _
  | succ fuel ih => exact binary (binary (binary (factor ih) _) _) _

theorem expression : Tracks source (fun _ => True) expression :=
  remaining.bind fun fuel _ => expressionWithin fuel

theorem assignment : Tracks source (fun _ => True) assignment := by
  refine current.bind fun token lexeme => next.seq (current.bind fun following _ => ?_)
  split
  · refine (known lexeme).seq (remaining.bind fun fuel _ => ?_)
    refine (selections expression fuel _).bind fun target _ => (expect _).seq ?_
    refine expression.bind fun value _ => ?_
    split
    · exact pure trivial
    · exact pure trivial
  · refine (expect _).seq (expression.bind fun value _ => ?_)
    intro s within
    rw [reads_bind, reads_get]
    dsimp only
    split
    · exact ⟨trivial, within⟩
    · exact ⟨trivial, within⟩

section

variable {statement : Parser Stmt} (tracks : Tracks source (fun _ => True) statement)

include tracks

theorem blockBody (fuel : Nat) : Tracks source (fun _ => True) (blockBody statement fuel) := by
  induction fuel with
  | zero => exact (expect _).seq (pure trivial)
  | succ fuel ih =>
    refine current.bind fun token lexeme => ?_
    split
    · exact next.seq (pure trivial)
    split
    · exact fail lexeme _
    · exact tracks.bind fun first _ => ih.bind fun rest _ => pure trivial

theorem conditional : Tracks source (fun _ => True) (conditional statement) := by
  refine next.seq (expression.bind fun condition _ => tracks.bind fun body _ => ?_)
  refine current.bind fun token _ => ?_
  split
  · exact next.seq (tracks.bind fun other _ => pure trivial)
  · exact pure trivial

end

theorem statementWithin (fuel : Nat) : Tracks source (fun _ => True) (statementWithin fuel) := by
  induction fuel with
  | zero => exact current.bind fun token lexeme => fail lexeme _
  | succ fuel ih =>
    refine current.bind fun token lexeme => ?_
    split
    · exact assignment
    split
    · exact next.seq (expression.bind fun value _ => pure trivial)
    split
    · exact conditional ih
    split
    · exact next.seq (expression.bind fun condition _ => ih.bind fun body _ => pure trivial)
    split
    · refine next.seq (remaining.bind fun fuel _ => ?_)
      exact (blockBody ih fuel).bind fun body _ => pure trivial
    · exact fail lexeme _

theorem program (fuel : Nat) : Tracks source (fun _ => True) (program fuel) := by
  induction fuel with
  | zero => exact pure trivial
  | succ fuel ih =>
    refine current.bind fun token _ => ?_
    split
    · exact pure trivial
    · refine (remaining.bind fun fuel _ => statementWithin fuel).bind fun first _ => ?_
      exact ih.bind fun rest _ => pure trivial

end Tracks

end Parser

/-- What parsing reports points at a lexeme of the source. -/
theorem pointsInto_of_parse {source : Source} {d : Diagnostic} (failed : parse source = .error d) :
    d.PointsInto source := by
  have started := Cursor.ofSource_within source
  cases start : Cursor.ofSource source with
  | error e =>
    rw [start] at started
    simp only [parse, start] at failed
    cases failed
    exact started
  | ok cursor =>
    rw [start] at started
    have read := Parser.Tracks.program cursor.remaining ⟨cursor, []⟩ started
    rw [parse_eq start] at failed
    cases result : Parser.reads (Parser.program cursor.remaining) ⟨cursor, []⟩ with
    | ok pair =>
      rw [result] at failed
      cases failed
    | error e =>
      rw [result] at read failed
      cases failed
      exact read

end Onepass.Syntax
