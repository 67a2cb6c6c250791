import Onepass.Proofs.Lockstep.Program
import Onepass.Proofs.Totality.Parser
import Onepass.Proofs.Totality.Rules

/-! Compiling always ends. On every source the compiler with limits has a result, if the limit exceeds
the number of characters, and it is what the compiler leaves behind: every round of a loop and every
nested rule takes a token. That result is never a misuse of the builder, and after a success nothing
is left open. -/
namespace Onepass

open Syntax (Cursor)

namespace Compiler

namespace Limited

variable {α : Type}

/-- Whether two compilers agree wherever at most `most` tokens are left, and take one of them. -/
def Alike (most : Nat) (limited : Limited α) (action : Compiler α) : Prop :=
  ∀ s : Session, s.cursor.Finishes → s.cursor.remaining ≤ most →
    Agrees s.cursor.remaining s limited action

section

variable {most fuel rounds limit : Nat} {inner : Limited Ty} {nested : Compiler Ty} {s : Session}
  (alike : Alike most inner nested)

include alike

section

variable (finishes : s.cursor.Finishes) (few : s.cursor.remaining ≤ most)

include finishes few

theorem agrees_index (container : Ty) :
    Agrees s.cursor.remaining s (index inner container) (Compiler.index nested container) := by
  apply Agrees.expect finishes
  intro _ finishes less
  apply Agrees.kept (.emit _) finishes less
  intro _ middle finishes less
  apply Agrees.current
  apply (alike middle finishes (by omega)).bind
  intro type after finishes lesser
  apply Agrees.check
  apply Agrees.expect finishes
  intro _ finishes least
  apply Agrees.kept (.emit _) finishes least
  intro _ last finishes least
  exact Agrees.last (.build _) finishes (by omega)

variable (wide : s.cursor.remaining < limit) (more : s.cursor.remaining ≤ rounds)

include wide more

theorem agrees_selections (enough : s.cursor.remaining ≤ fuel) (name : Bytes) (type : Ty) :
    Agrees limit s (selections inner name rounds type)
      (Compiler.selections nested name fuel type) := by
  induction fuel generalizing s type rounds with
  | zero => simp [Cursor.remaining] at enough
  | succ fuel ih =>
    cases rounds with
    | zero => simp [Cursor.remaining] at more
    | succ rounds =>
      apply Agrees.current
      by_cases opens : s.cursor.current.is "[" = true
      · rw [if_pos opens, if_pos opens]
        cases type.element? with
        | none => exact Agrees.fail _ _
        | some element =>
          apply (agrees_index alike finishes few type).bind
          intro _ _ finishes less
          apply Agrees.kept (.emit _) finishes less
          intro _ after finishes less
          have fewer : after.cursor.remaining ≤ rounds := by omega
          exact ih finishes (by omega) (by omega) fewer (by omega) element
      · rw [if_neg opens, if_neg opens]
        exact Agrees.pure finishes wide

theorem agrees_elements (enough : s.cursor.remaining ≤ fuel) (element : Ty) (position : Nat) :
    Agrees limit s (elements inner element rounds position)
      (Compiler.elements nested element fuel position) := by
  induction fuel generalizing s position rounds with
  | zero => simp [Cursor.remaining] at enough
  | succ fuel ih =>
    cases rounds with
    | zero => simp [Cursor.remaining] at more
    | succ rounds =>
      apply Agrees.accept finishes
      · intro after finishes less
        exact Agrees.pure finishes (by omega)
      apply Agrees.expect finishes
      intro middle finishes less
      apply Agrees.accept finishes
      · intro after finishes lesser
        exact Agrees.pure finishes (by omega)
      apply Agrees.current
      apply (alike middle finishes (by omega)).bind
      intro type _ finishes lesser
      apply Agrees.check
      apply Agrees.kept (.storeElement _ _) finishes lesser
      intro _ after finishes lesser
      have fewer : after.cursor.remaining ≤ rounds := by omega
      exact ih finishes (by omega) (by omega) fewer (by omega) (position + 1)

theorem agrees_array : Agrees limit s (array rounds inner) (Compiler.array nested) := by
  apply Agrees.accept finishes
  · intro middle finishes less
    apply (Agrees.elementType finishes (by omega)).bind
    intro shape _ finishes lesser
    apply Agrees.kept (.build _) finishes lesser
    intro _ _ finishes lesser
    apply Agrees.kept (.emit _) finishes lesser
    intro _ after finishes lesser
    exact Agrees.pure finishes (by omega)
  · apply Agrees.kept (.build _) finishes (Nat.lt_succ_self _)
    intro _ middle finishes same
    apply (alike middle finishes (by omega)).bind
    intro first _ finishes less
    apply Agrees.kept (.storeElement _ _) finishes less
    intro _ after finishes less
    apply Agrees.remaining
    apply (agrees_elements alike finishes (by omega) (Nat.lt_succ_self _) (by omega)
      (Nat.le_refl _) _ 1).bind
    intro count _ finishes lesser
    apply Agrees.kept (.build _) finishes lesser
    intro stores _ finishes lesser
    apply Agrees.kept (.build _) finishes lesser
    intro _ _ finishes lesser
    apply Agrees.kept (.emit _) finishes lesser
    intro _ _ finishes lesser
    apply Agrees.kept (.emit _) finishes lesser
    intro _ _ finishes lesser
    apply Agrees.kept (.emit _) finishes lesser
    intro _ _ finishes lesser
    apply Agrees.kept (.emit _) finishes lesser
    intro _ last finishes lesser
    exact Agrees.pure finishes (by omega)

end

variable (more : most ≤ rounds)

include more

theorem agrees_selected (finishes : s.cursor.Finishes) (few : s.cursor.remaining ≤ most + 1)
    (ident : s.cursor.current.kind = .ident) :
    Agrees s.cursor.remaining s (selected rounds inner) (Compiler.selected nested) := by
  apply Agrees.current
  apply Agrees.still (.lookup _)
  intro v found same
  rw [← same] at finishes few ident ⊢
  apply Agrees.next finishes (by simp [ident])
  intro _ finishes less
  apply Agrees.kept (.emit _) finishes less
  intro _ after finishes less
  apply Agrees.remaining
  exact agrees_selections alike finishes (by omega) less (by omega) (Nat.le_refl _) _ _

theorem alike_unary : Alike (most + 1) (unary rounds inner) (Compiler.unary nested) := by
  intro s finishes few
  apply Agrees.current
  have literal (here : Session) (same : here.cursor = s.cursor) (type : Ty) (code : Assembly.Code)
      (other : s.cursor.current.kind ≠ .eof) :
      Agrees s.cursor.remaining here (do ended (emit code); ended next; return type)
        (do emit code; Compiler.next; return type) := by
    rw [← same] at finishes other ⊢
    apply Agrees.still (.emit _)
    intro _ loaded equal
    rw [← equal] at finishes other ⊢
    apply Agrees.next finishes other
    intro after finishes less
    exact Agrees.pure finishes less
  have bracketed : Agrees s.cursor.remaining s
      (if s.cursor.current.is "(" then do
        ended next
        let type ← inner
        ended (expect ")")
        return type
      else if s.cursor.current.is "[" then do
        ended next
        array rounds inner
      else ended (fail s.cursor.current (.unexpected s.cursor.current)))
      (if s.cursor.current.is "(" then do
        Compiler.next
        let type ← nested
        Compiler.expect ")"
        return type
      else if s.cursor.current.is "[" then do
        Compiler.next
        Compiler.array nested
      else Compiler.fail s.cursor.current (.unexpected s.cursor.current)) := by
    by_cases opens : s.cursor.current.is "(" = true
    · rw [if_pos opens, if_pos opens]
      apply Agrees.next finishes (Syntax.Parser.ne_eof_of_is opens)
      intro middle finishes less
      apply (alike middle finishes (by omega)).bind
      intro type after finishes lesser
      apply Agrees.expect finishes
      intro last finishes least
      exact Agrees.pure finishes (by omega)
    rw [if_neg opens, if_neg opens]
    by_cases bracket : s.cursor.current.is "[" = true
    · rw [if_pos bracket, if_pos bracket]
      apply Agrees.next finishes (Syntax.Parser.ne_eof_of_is bracket)
      intro after finishes less
      exact agrees_array alike finishes (by omega) less (by omega)
    · rw [if_neg bracket, if_neg bracket]
      exact Agrees.fail _ _
  cases kind : s.cursor.current.kind with
  | ident => exact agrees_selected alike more finishes few kind
  | int => exact literal s rfl _ _ (by simp [kind])
  | char => exact literal s rfl _ _ (by simp [kind])
  | string =>
    apply Agrees.still (.build _)
    intro label pooled same
    exact literal pooled same _ _ (by simp [kind])
  | eof => exact bracketed
  | keyword => exact bracketed
  | op => exact bracketed
  | other _ => exact bracketed

theorem alike_factor : Alike (most + 1) (factor rounds inner) (Compiler.factor nested) := by
  intro s finishes few
  apply Agrees.current
  by_cases sign : s.cursor.current.is "-" = true
  · rw [if_pos sign, if_pos sign]
    apply Agrees.next finishes (Syntax.Parser.ne_eof_of_is sign)
    intro middle finishes less
    apply (alike_unary alike more middle finishes (by omega)).bind
    intro type after finishes lesser
    cases Codegen.operation? type .negate with
    | none => exact Agrees.fail _ _
    | some code =>
      apply Agrees.kept (.emit _) finishes lesser
      intro _ last finishes lesser
      exact Agrees.pure finishes (by omega)
  · rw [if_neg sign, if_neg sign]
    exact alike_unary alike more s finishes few

end

section

variable {most fuel rounds limit : Nat} {level : Operator.Level} {inner : Limited Ty}
  {nested : Compiler Ty} {s : Session} (alike : Alike most inner nested)

include alike

theorem agrees_chain (finishes : s.cursor.Finishes) (few : s.cursor.remaining ≤ most)
    (wide : s.cursor.remaining < limit) (more : s.cursor.remaining ≤ rounds)
    (enough : s.cursor.remaining ≤ fuel) (left : Ty) :
    Agrees limit s (chain level inner rounds left) (Compiler.chain level nested fuel left) := by
  induction fuel generalizing s left rounds with
  | zero => simp [Cursor.remaining] at enough
  | succ fuel ih =>
    cases rounds with
    | zero => simp [Cursor.remaining] at more
    | succ rounds =>
      apply Agrees.current
      cases found : level.operator? s.cursor.current with
      | none => exact Agrees.pure finishes wide
      | some operator =>
        have other : s.cursor.current.kind ≠ .eof := by
          intro eof
          simp [Operator.Level.operator?, eof] at found
        apply Agrees.still (.emit _)
        intro _ pushed same
        rw [← same] at finishes few wide more enough other ⊢
        apply Agrees.next finishes other
        intro middle finishes less
        apply (alike middle finishes (by omega)).bind
        intro right _ finishes lesser
        apply Agrees.kept (.operate _ _ _ _) finishes lesser
        intro type after finishes lesser
        have fewer : after.cursor.remaining ≤ rounds := by omega
        exact ih finishes (by omega) (by omega) fewer (by omega) type

theorem alike_binary (more : most ≤ rounds) :
    Alike most (binary rounds level inner) (Compiler.binary level nested) := by
  intro s finishes few
  apply (alike s finishes few).bind
  intro first after finishes less
  apply Agrees.remaining
  exact agrees_chain alike finishes (by omega) less (by omega) (Nat.le_refl _) first

end

theorem alike_expressionWithin {rounds fuel depth : Nat} (more : fuel ≤ rounds)
    (deep : fuel ≤ depth) :
    Alike fuel (expressionWithin rounds depth) (Compiler.expressionWithin fuel) := by
  induction fuel generalizing depth with
  | zero =>
    intro s finishes few
    simp [Cursor.remaining] at few
  | succ fuel ih =>
    cases depth with
    | zero => cases deep
    | succ depth =>
      have factors := alike_factor (ih (Nat.le_of_succ_le more) (Nat.le_of_succ_le_succ deep))
        (Nat.le_of_succ_le more)
      exact alike_binary (alike_binary (alike_binary factors more) more) more

theorem alike_expression (rounds : Nat) :
    Alike rounds (expression rounds) Compiler.expression := by
  intro s finishes few
  apply Agrees.remaining
  exact alike_expressionWithin few few s finishes (Nat.le_refl _)

section

variable {rounds : Nat} {s : Session} (finishes : s.cursor.Finishes)
  (more : s.cursor.remaining ≤ rounds)

include finishes more

theorem agrees_elementTarget {fuel count : Nat} (many : s.cursor.remaining ≤ count)
    (enough : s.cursor.remaining ≤ fuel + 1) (element : Shape) :
    Agrees s.cursor.remaining s (elementTarget rounds count element)
      (Compiler.elementTarget fuel element) := by
  induction fuel generalizing s element count with
  | zero =>
    cases count with
    | zero => simp [Cursor.remaining] at many
    | succ count =>
      apply (agrees_index (alike_expression rounds) finishes more _).bind
      intro _ after finishes less
      -- An index takes a token, but the last one is never left.
      have positive : 0 < after.cursor.remaining := Nat.succ_pos _
      omega
  | succ fuel ih =>
    cases count with
    | zero => simp [Cursor.remaining] at many
    | succ count =>
      apply (agrees_index (alike_expression rounds) finishes more _).bind
      intro _ after finishes less
      apply Agrees.current
      by_cases opens : after.cursor.current.is "[" = true
      · rw [if_pos opens, if_pos opens]
        cases element with
        | array inner =>
          apply Agrees.kept (.emit _) finishes less
          intro _ last finishes less
          have fewer : last.cursor.remaining ≤ count := by omega
          exact (ih finishes (by omega) fewer (by omega) inner).mono (Nat.le_of_lt less)
        | int => exact Agrees.fail _ _
        | char => exact Agrees.fail _ _
        | string => exact Agrees.fail _ _
        | other => exact Agrees.fail _ _
      · rw [if_neg opens, if_neg opens]
        exact Agrees.pure finishes less

theorem agrees_elementAssignment (token : Token) :
    Agrees s.cursor.remaining s (elementAssignment rounds token)
      (Compiler.elementAssignment token) := by
  apply Agrees.kept (.lookup _) finishes (Nat.lt_succ_self _)
  intro v found finishes least
  cases v.type.shape with
  | array element =>
    apply Agrees.kept (.emit _) finishes least
    intro _ loaded finishes least
    apply Agrees.remaining
    have positive : 0 < loaded.cursor.remaining := Nat.succ_pos _
    have many : loaded.cursor.remaining ≤ rounds := by omega
    apply (agrees_elementTarget finishes many many (by omega) element).bind
    intro element _ finishes less
    apply Agrees.kept (.emit _) finishes less
    intro _ pushed finishes less
    apply Agrees.expect finishes
    intro middle finishes lesser
    apply Agrees.current
    apply (alike_expression rounds middle finishes (by omega)).bind
    intro type _ finishes fewest
    apply Agrees.check
    apply Agrees.kept (.emit _) finishes fewest
    intro _ after finishes fewest
    exact Agrees.last (.emit _) finishes (by omega)
  | int => exact Agrees.fail _ _
  | char => exact Agrees.fail _ _
  | string => exact Agrees.fail _ _
  | other => exact Agrees.fail _ _

theorem agrees_assignment (ident : s.cursor.current.kind = .ident) :
    Agrees s.cursor.remaining s (assignment rounds) Compiler.assignment := by
  apply Agrees.current
  apply Agrees.next finishes (by simp [ident])
  intro first finishes less
  apply Agrees.current
  by_cases opens : first.cursor.current.is "[" = true
  · rw [if_pos opens, if_pos opens]
    exact (agrees_elementAssignment finishes (by omega) _).mono (Nat.le_of_lt less)
  · rw [if_neg opens, if_neg opens]
    apply Agrees.expect finishes
    intro middle finishes lesser
    apply Agrees.current
    apply (alike_expression rounds middle finishes (by omega)).bind
    intro type _ finishes least
    apply Agrees.kept (.assigned _ _ _) finishes least
    intro v after finishes least
    exact Agrees.last (.emit _) finishes (by omega)

theorem agrees_print (word : s.cursor.current.is "print" = true) :
    Agrees s.cursor.remaining s (print rounds) Compiler.print := by
  apply Agrees.next finishes (Syntax.Parser.ne_eof_of_is word)
  intro middle finishes less
  apply Agrees.current
  apply (alike_expression rounds middle finishes (by omega)).bind
  intro type after finishes lesser
  apply Agrees.get
  cases Codegen.print? after.builder.platform type with
  | none => exact Agrees.fail _ _
  | some code => exact Agrees.last (.emit _) finishes (by omega)

theorem agrees_condition :
    Agrees s.cursor.remaining s (condition rounds) Compiler.condition := by
  apply Agrees.current
  apply (alike_expression rounds s finishes more).bind
  intro type after finishes less
  split
  · exact Agrees.fail _ _
  · exact Agrees.pure finishes less

end

section

variable {most fuel rounds limit : Nat} {inner : Limited Unit} {nested : Compiler Unit}
  {s : Session} (alike : Alike most inner nested) (finishes : s.cursor.Finishes)

include alike finishes

theorem agrees_blockBody (few : s.cursor.remaining ≤ most) (wide : s.cursor.remaining < limit)
    (more : s.cursor.remaining ≤ rounds) (enough : s.cursor.remaining ≤ fuel) :
    Agrees limit s (blockBody inner rounds) (Compiler.blockBody nested fuel) := by
  induction fuel generalizing s rounds with
  | zero => simp [Cursor.remaining] at enough
  | succ fuel ih =>
    cases rounds with
    | zero => simp [Cursor.remaining] at more
    | succ rounds =>
      apply Agrees.current
      by_cases closes : s.cursor.current.is "\x7d" = true
      · rw [if_pos closes, if_pos closes]
        have taken := Agrees.lastNext finishes (Syntax.Parser.ne_eof_of_is closes)
        exact taken.mono (Nat.le_of_lt wide)
      rw [if_neg closes, if_neg closes]
      by_cases eof : s.cursor.current.kind = .eof
      · rw [if_pos eof, if_pos eof]
        exact Agrees.fail _ _
      rw [if_neg eof, if_neg eof]
      apply (alike s finishes few).bind
      intro _ after finishes less
      have fewer : after.cursor.remaining ≤ rounds := by omega
      exact ih finishes (by omega) (by omega) fewer (by omega)

variable (few : s.cursor.remaining ≤ most + 1) (more : s.cursor.remaining ≤ rounds)

include few more

theorem agrees_conditional (word : s.cursor.current.is "if" = true) :
    Agrees s.cursor.remaining s (conditional rounds inner) (Compiler.conditional nested) := by
  apply Agrees.next finishes (Syntax.Parser.ne_eof_of_is word)
  intro first finishes less
  apply (agrees_condition finishes (by omega)).bind
  intro _ _ finishes lesser
  apply Agrees.kept (.build _) finishes lesser
  intro otherLabel _ finishes lesser
  apply Agrees.kept (.emit _) finishes lesser
  intro _ middle finishes lesser
  apply (alike middle finishes (by omega)).bind
  intro _ after finishes least
  apply Agrees.accept finishes
  · intro _ finishes fewest
    apply Agrees.kept (.build _) finishes fewest
    intro endLabel _ finishes fewest
    apply Agrees.kept (.emit _) finishes fewest
    intro _ _ finishes fewest
    apply Agrees.kept (.emit _) finishes fewest
    intro _ side finishes fewest
    apply (alike side finishes (by omega)).bind
    intro _ last finishes final
    exact Agrees.last (.emit _) finishes (by omega)
  · exact Agrees.last (.emit _) finishes (by omega)

theorem agrees_loop (word : s.cursor.current.is "while" = true) :
    Agrees s.cursor.remaining s (loop rounds inner) (Compiler.loop nested) := by
  apply Agrees.next finishes (Syntax.Parser.ne_eof_of_is word)
  intro _ finishes less
  apply Agrees.kept (.build _) finishes less
  intro loopLabel _ finishes less
  apply Agrees.kept (.build _) finishes less
  intro exitLabel _ finishes less
  apply Agrees.kept (.emit _) finishes less
  intro _ first finishes less
  apply (agrees_condition finishes (by omega)).bind
  intro _ _ finishes lesser
  apply Agrees.kept (.emit _) finishes lesser
  intro _ middle finishes lesser
  apply (alike middle finishes (by omega)).bind
  intro _ _ finishes least
  apply Agrees.kept (.emit _) finishes least
  intro _ last finishes least
  exact Agrees.last (.emit _) finishes (by omega)

end

theorem alike_statementWithin {rounds fuel depth : Nat} (more : fuel ≤ rounds)
    (deep : fuel ≤ depth) :
    Alike fuel (statementWithin rounds depth) (Compiler.statementWithin fuel) := by
  induction fuel generalizing depth with
  | zero =>
    intro s finishes few
    simp [Cursor.remaining] at few
  | succ fuel ih =>
    cases depth with
    | zero => cases deep
    | succ depth =>
      have alike := ih (Nat.le_of_succ_le more) (Nat.le_of_succ_le_succ deep)
      intro s finishes few
      have fits := Nat.le_trans few more
      apply Agrees.current
      by_cases ident : s.cursor.current.kind = .ident
      · rw [if_pos ident, if_pos ident]
        exact agrees_assignment finishes fits ident
      rw [if_neg ident, if_neg ident]
      by_cases prints : s.cursor.current.is "print" = true
      · rw [if_pos prints, if_pos prints]
        exact agrees_print finishes fits prints
      rw [if_neg prints, if_neg prints]
      by_cases asks : s.cursor.current.is "if" = true
      · rw [if_pos asks, if_pos asks]
        exact agrees_conditional alike finishes few fits asks
      rw [if_neg asks, if_neg asks]
      by_cases repeats : s.cursor.current.is "while" = true
      · rw [if_pos repeats, if_pos repeats]
        exact agrees_loop alike finishes few fits repeats
      rw [if_neg repeats, if_neg repeats]
      by_cases opens : s.cursor.current.is "\x7b" = true
      · rw [if_pos opens, if_pos opens]
        apply Agrees.next finishes (Syntax.Parser.ne_eof_of_is opens)
        intro after finishes less
        apply Agrees.remaining
        exact agrees_blockBody alike finishes (by omega) less (by omega) (Nat.le_refl _)
      · rw [if_neg opens, if_neg opens]
        exact Agrees.fail _ _

section

variable {rounds : Nat} {s : Session} (finishes : s.cursor.Finishes)
  (more : s.cursor.remaining ≤ rounds)

include finishes more

theorem agrees_statements {fuel count limit : Nat} (wide : s.cursor.remaining < limit)
    (many : s.cursor.remaining ≤ count) (enough : s.cursor.remaining ≤ fuel) :
    Agrees limit s (statements rounds count) (Compiler.statements fuel) := by
  induction fuel generalizing s count with
  | zero => simp [Cursor.remaining] at enough
  | succ fuel ih =>
    cases count with
    | zero => simp [Cursor.remaining] at many
    | succ count =>
      rw [statements, Compiler.statements]
      apply Agrees.current
      by_cases eof : s.cursor.current.kind = .eof
      · rw [if_pos eof, if_pos eof]
        exact Agrees.pure finishes wide
      rw [if_neg eof, if_neg eof, Compiler.statement, bind_assoc]
      apply Agrees.remaining
      apply (alike_statementWithin more more s finishes (Nat.le_refl _)).bind
      intro _ after finishes less
      have fewer : after.cursor.remaining ≤ count := by omega
      exact ih finishes (by omega) (by omega) fewer (by omega)

theorem agrees_program :
    Agrees (s.cursor.remaining + 1) s (program rounds) Compiler.program := by
  apply Agrees.kept (.build _) finishes (Nat.lt_succ_self _)
  intro _ opened finishes less
  apply Agrees.remaining
  have fits : opened.cursor.remaining ≤ rounds := by omega
  apply (agrees_statements finishes fits less fits (Nat.le_refl _)).bind
  intro _ after finishes less
  exact Agrees.last (.build _) finishes less

end

/-- No loop of the compiler takes more rounds, and no recursion goes deeper, than there are
characters. -/
theorem run_eq_some {source : Source} {rounds : Nat} (platform : Platform)
    (enough : source.chars.length < rounds) :
    Limited.run rounds source platform = some (Compiler.run source platform) := by
  rw [Limited.run, Cursor.ofSourceLimited_eq enough, Compiler.run]
  rcases started : Cursor.ofSource source with d | cursor
  · rfl
  have more : cursor.remaining ≤ rounds :=
    Nat.le_trans (Cursor.remaining_ofSource_le started) enough
  have same := (agrees_program (Cursor.ofSource_finishes started) more :
    Agrees _ ⟨cursor, {}, { platform }⟩ _ _).same
  change (attempt (program rounds) ⟨cursor, {}, { platform }⟩ >>= fun x =>
    some (Outcome.mk x.1 x.2.scope x.2.builder)) = _
  rw [same]
  rfl

end Limited

/-- Compiling and parsing always end, with a success or a diagnostic: no loop takes more rounds, and
no recursion goes deeper, than the source has characters. A compilation never misuses the builder:
no code outside `main`, no end of a capture that was not begun, no elements of a type without
elements. After a success no capture and no function is open, and `main` is the one function, with
all the code of the program in it. -/
theorem compiling_and_parsing_end (source : Source) (platform : Platform) :
    (∀ rounds, source.chars.length < rounds →
      Syntax.Parser.Limited.parse rounds source = some (Syntax.parse source) ∧
      Limited.run rounds source platform = some (run source platform)) ∧
    (∀ misuse, (run source platform).result ≠ .error (.misuse misuse)) ∧
    ((run source platform).result = .ok () →
      (run source platform).builder.captures = [] ∧ (run source platform).builder.frame = none ∧
      ∃ main tree, (run source platform).builder.finished = [main] ∧ main.name = "main" ∧
        Syntax.parse source = .ok tree ∧ main.body = (Generator.program platform tree).1) := by
  refine ⟨fun rounds enough => ⟨Syntax.Parser.Limited.parse_eq_some enough,
    Limited.run_eq_some platform enough⟩, ?_⟩
  cases verdict source platform with
  | accepted tree parsed _ outcome =>
    rw [outcome]
    constructor
    · rintro _ ⟨⟩
    · intro _
      exact ⟨rfl, rfl, _, tree, rfl, rfl, parsed, rfl⟩
  | refused _ _ failed | illTyped _ _ failed _ =>
    rw [failed]
    constructor
    · rintro _ ⟨⟩
    · rintro ⟨⟩

/-- A program that captures the code of literals in a literal. -/
private def capturing : Source := ⟨[], "a = [[1, 2], [3]] if a[0][1] print \"x\""⟩

theorem compiling_and_parsing_end_capturing :
    Limited.run 40 capturing .darwin = some (run capturing .darwin) ∧
      (run capturing .darwin).result = .ok () ∧
      (run capturing .darwin).builder.captures = [] ∧
      (run capturing .darwin).builder.frame = none := by
  have success : (run capturing .darwin).result = .ok () := eq_ok_of_isOk (by decide +kernel)
  obtain ⟨ends, _, closed⟩ := compiling_and_parsing_end capturing .darwin
  obtain ⟨captures, frame, _⟩ := closed success
  exact ⟨(ends 40 (by decide +kernel)).2, success, captures, frame⟩

end Compiler

end Onepass
