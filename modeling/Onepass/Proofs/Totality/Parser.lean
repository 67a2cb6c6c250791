import Onepass.Proofs.Totality.Cursor

/-! The parser always ends. Its rules are written here once more with a limit on the rounds of every
loop and on the depth of every recursion, and such a parser has no result once a limit is reached.
On a source it never is, if the limit exceeds the number of characters, and the result is that of
the parser: every round and every nested rule takes a token. -/
namespace Onepass.Syntax

namespace Parser

/-- A parser that has no result when it reaches a limit. -/
abbrev Limited (α : Type) := StateT State (ExceptT Diagnostic Option) α

namespace Limited

variable {α β : Type}

/-- A limit is reached. -/
def exhausted : Limited α := fun _ => ExceptT.mk none

/-- A parser without loops. -/
def ended (parser : Parser α) : Limited α := fun s => ExceptT.mk (some (reads parser s))

section

variable (rounds : Nat)

/-- The element type of an empty array. -/
def elementType : Limited Shape := do
  let s ← get
  let (shape, cursor) ← s.cursor.shapeLimited rounds
  set { s with cursor }
  return shape

/-- Selections after a value. -/
def selections (expression : Limited Expr) : (rounds : Nat) → Expr → Limited Expr
  | 0, _ => exhausted
  | rounds + 1, left => do
    if (← ended current).is "[" then
      ended next
      let selector ← expression
      ended (expect "]")
      selections expression rounds (.index left selector)
    else return left

/-- The elements of an array literal after the first one, with the closing bracket. -/
def elements (expression : Limited Expr) : (rounds : Nat) → Limited (List Expr)
  | 0 => exhausted
  | rounds + 1 => do
    if (← ended current).is "]" then
      ended next
      return []
    else
      ended (expect ",")
      if (← ended current).is "]" then
        ended next
        return []
      else
        let element ← expression
        let rest ← elements expression rounds
        return element :: rest

/-- An array literal after its opening bracket. -/
def array (expression : Limited Expr) : Limited Expr := do
  if (← ended current).is "]" then
    ended next
    return .emptyArray (← elementType rounds)
  else
    let first ← expression
    return .array first (← elements expression rounds)

def unary (expression : Limited Expr) : Limited Expr := do
  let token ← ended current
  match token.kind with
  | .ident =>
    ended (known token)
    ended next
    selections expression rounds (.variable token.text)
  | .int =>
    ended next
    return .int token.value
  | .char =>
    ended next
    return .char token.value
  | .string =>
    ended next
    return .string token.text
  | _ =>
    if token.is "(" then
      ended next
      let inner ← expression
      ended (expect ")")
      return inner
    else if token.is "[" then
      ended next
      array rounds expression
    else ended (fail token (.unexpected token))

def factor (expression : Limited Expr) : Limited Expr := do
  if (← ended current).is "-" then
    ended next
    return .negate (← unary rounds expression)
  else unary rounds expression

/-- Operators of a level with their right operands, after a first operand. -/
def chain (level : Operator.Level) (operand : Limited Expr) : (rounds : Nat) → Expr → Limited Expr
  | 0, _ => exhausted
  | rounds + 1, left => do
    match level.operator? (← ended current) with
    | none => return left
    | some operator =>
      ended next
      let right ← operand
      chain level operand rounds (.binary operator left right)

/-- Operands joined by the operators of a level, from left to right. -/
def binary (level : Operator.Level) (operand : Limited Expr) : Limited Expr := do
  let first ← operand
  chain level operand rounds first

/-- An expression nested less than `depth` deep. -/
def expressionWithin : (depth : Nat) → Limited Expr
  | 0 => exhausted
  | depth + 1 =>
    binary rounds .relational (binary rounds .additive (binary rounds .multiplicative
      (factor rounds (expressionWithin depth))))

def expression : Limited Expr := expressionWithin rounds rounds

def assignment : Limited Stmt := do
  let token ← ended current
  ended next
  if (← ended current).is "[" then
    ended (known token)
    let target ← selections (expression rounds) rounds (.variable token.text)
    ended (expect "=")
    let value ← expression rounds
    match target with
    | .index container selector => return .store container selector value
    | _ => return .assign token.text value
  else
    ended (expect "=")
    let value ← expression rounds
    let s ← get
    if s.names.contains token.text then return .assign token.text value
    else
      set { s with names := token.text :: s.names }
      return .declare token.text value

/-- Statements up to the closing brace. -/
def blockBody (statement : Limited Stmt) : (rounds : Nat) → Limited (List Stmt)
  | 0 => exhausted
  | rounds + 1 => do
    let token ← ended current
    if token.is "\x7d" then
      ended next
      return []
    else if token.kind = .eof then ended (fail token (.expectedSymbol "\x7d" token))
    else
      let first ← statement
      let rest ← blockBody statement rounds
      return first :: rest

def conditional (statement : Limited Stmt) : Limited Stmt := do
  ended next
  let condition ← expression rounds
  let body ← statement
  if (← ended current).is "else" then
    ended next
    return .ifElse condition body (← statement)
  else return .ifThen condition body

/-- A statement nested less than `depth` deep. -/
def statementWithin : (depth : Nat) → Limited Stmt
  | 0 => exhausted
  | depth + 1 => do
    let token ← ended current
    if token.kind = .ident then assignment rounds
    else if token.is "print" then
      ended next
      return .print (← expression rounds)
    else if token.is "if" then conditional rounds (statementWithin depth)
    else if token.is "while" then
      ended next
      let condition ← expression rounds
      return .loop condition (← statementWithin depth)
    else if token.is "\x7b" then
      ended next
      return .block (← blockBody (statementWithin depth) rounds)
    else ended (fail token (.expectedStatement token))

/-- Statements up to the end of input, at most `count` of them. -/
def program : (count : Nat) → Limited (List Stmt)
  | 0 => exhausted
  | count + 1 => do
    if (← ended current).kind = .eof then return []
    else
      let first ← statementWithin rounds rounds
      let rest ← program count
      return first :: rest

/-- The syntax tree of a source, or the first fault in it; nothing if a loop takes `rounds` rounds
or a recursion goes `rounds` deep. -/
def parse (source : Source) : Option (Except Diagnostic (List Stmt)) := do
  match ← Cursor.ofSourceLimited rounds source with
  | .error d => return .error d
  | .ok cursor => ((program rounds rounds).run' ⟨cursor, []⟩).run

end

/-- Whether, from a state, both parsers do the same and leave fewer than `limit` tokens, before the
same fault. -/
structure Agrees (limit : Nat) (s : State) (limited : Limited α) (parser : Parser α) : Prop where
  same : limited s = ExceptT.mk (some (reads parser s))
  less : ∀ a after, reads parser s = .ok (a, after) →
    after.cursor.Finishes ∧ after.cursor.remaining < limit ∧ after.cursor.fault = s.cursor.fault

namespace Agrees

variable {limit middle : Nat} {s : State} {limited : Limited α} {parser : Parser α}

theorem bind {later : α → Limited β} {next : α → Parser β}
    (first : Agrees middle s limited parser)
    (rest : ∀ a after, after.cursor.Finishes → after.cursor.remaining < middle →
      Agrees limit after (later a) (next a)) :
    Agrees limit s (limited >>= later) (parser >>= next) := by
  have opened : (limited >>= later) s = (limited s >>= fun x => later x.1 x.2) := rfl
  rcases read : reads parser s with d | ⟨a, after⟩
  · constructor
    · rw [opened, first.same, reads_bind, read]
      rfl
    · rw [reads_bind, read]
      rintro _ _ ⟨⟩
  · obtain ⟨finishes, less, fault⟩ := first.less a after read
    have agrees := rest a after finishes less
    constructor
    · rw [opened, first.same, reads_bind, read, Cursor.mk_ok_bind]
      exact agrees.same
    · rw [reads_bind, read, ← fault]
      exact agrees.less

theorem pure {a : α} (finishes : s.cursor.Finishes) (less : s.cursor.remaining < limit) :
    Agrees limit s (pure a) (pure a) := by
  constructor
  · rfl
  · rintro _ _ ⟨⟩
    exact ⟨finishes, less, rfl⟩

theorem fail (token : Token) (cause : Diagnostic.Cause) :
    Agrees limit s (ended (fail token cause) : Limited α) (Parser.fail token cause) := by
  constructor
  · rfl
  · rintro _ _ ⟨⟩

/-- A first step that is the same parser on both sides. -/
theorem ended {first : Parser α} {later : α → Limited β} {next : α → Parser β}
    (rest : ∀ a after, reads first s = .ok (a, after) →
      after.cursor.fault = s.cursor.fault ∧ Agrees limit after (later a) (next a)) :
    Agrees limit s (ended first >>= later) (first >>= next) := by
  have opened : (Limited.ended first >>= later) s =
      (ExceptT.mk (some (reads first s)) >>= fun x => later x.1 x.2) := rfl
  rcases read : reads first s with d | ⟨a, after⟩
  · constructor
    · rw [opened, reads_bind, read]
      rfl
    · rw [reads_bind, read]
      rintro _ _ ⟨⟩
  · obtain ⟨fault, agrees⟩ := rest a after read
    constructor
    · rw [opened, reads_bind, read, Cursor.mk_ok_bind]
      exact agrees.same
    · rw [reads_bind, read, ← fault]
      exact agrees.less

theorem current {later : Token → Limited α} {next : Token → Parser α}
    (rest : Agrees limit s (later s.cursor.current) (next s.cursor.current)) :
    Agrees limit s (Limited.ended current >>= later) (Parser.current >>= next) := by
  apply ended
  rintro _ _ ⟨⟩
  exact ⟨rfl, rest⟩

/-- Only the parser itself asks how many tokens there are. -/
theorem remaining {next : Nat → Parser α}
    (rest : Agrees limit s limited (next s.cursor.remaining)) :
    Agrees limit s limited (Parser.remaining >>= next) := by
  constructor
  · exact rest.same
  · rw [reads_bind, reads_remaining]
    exact rest.less

theorem get {later : State → Limited α} {rest : State → Parser α}
    (agrees : Agrees limit s (later s) (rest s)) :
    Agrees limit s (get >>= later) (get >>= rest) :=
  ⟨agrees.same, agrees.less⟩

section

variable {later : Unit → Limited α} {rest : Unit → Parser α}

theorem set {names : List Bytes}
    (agrees : Agrees limit { s with names } (later ()) (rest ())) :
    Agrees limit s (set { s with names } >>= later) (set { s with names } >>= rest) :=
  ⟨agrees.same, agrees.less⟩

theorem known {token : Token} (agrees : Agrees limit s (later ()) (rest ())) :
    Agrees limit s (Limited.ended (known token) >>= later) (Parser.known token >>= rest) := by
  apply ended
  intro _ after read
  simp only [Parser.known, reads_bind, reads_get] at read
  split at read
  · cases read
    exact ⟨rfl, agrees⟩
  · cases read

variable (finishes : s.cursor.Finishes)

include finishes

theorem next (other : s.cursor.current.kind ≠ .eof)
    (agrees : ∀ after, after.cursor.Finishes → after.cursor.remaining < s.cursor.remaining →
      Agrees limit after (later ()) (rest ())) :
    Agrees limit s (Limited.ended next >>= later) (Parser.next >>= rest) := by
  apply ended
  intro _ after read
  rw [reads_next] at read
  split at read
  · rename_i moved
    cases read
    exact ⟨Cursor.fault_next moved,
      agrees _ (Cursor.next_finishes finishes moved) (Cursor.next_less finishes other moved)⟩
  · cases read

theorem expect {symbol : Bytes}
    (agrees : ∀ after, after.cursor.Finishes → after.cursor.remaining < s.cursor.remaining →
      Agrees limit after (later ()) (rest ())) :
    Agrees limit s (Limited.ended (expect symbol) >>= later) (Parser.expect symbol >>= rest) := by
  apply ended
  intro _ after read
  rw [reads_expect] at read
  split at read
  · rename_i passed
    cases read
    obtain ⟨other, moved⟩ := Cursor.ne_eof_of_expect passed
    exact ⟨Cursor.fault_next moved,
      agrees _ (Cursor.next_finishes finishes moved) (Cursor.next_less finishes other moved)⟩
  · cases read

theorem elementType {rounds : Nat} (more : s.cursor.remaining ≤ rounds) :
    Agrees s.cursor.remaining s (elementType rounds) Parser.elementType := by
  obtain ⟨same, less⟩ := Cursor.shapeLimited_eq finishes (Nat.le_refl _) more
  have opened : Limited.elementType rounds s =
      ((s.cursor.shapeLimited rounds >>= fun x => Pure.pure (x, s)) >>= fun x =>
        Pure.pure (x.1.1, { s with cursor := x.1.2 })) := rfl
  constructor
  · rw [opened, same, reads_elementType, Cursor.shape]
    rcases s.cursor.shapeWithin s.cursor.remaining with d | ⟨shape, after⟩ <;> rfl
  · intro shape after read
    rw [reads_elementType, Cursor.shape] at read
    split at read
    · rename_i found
      cases read
      exact less _ _ found
    · cases read

end

end Agrees

/-- Whether two parsers agree wherever at most `most` tokens are left, and take one of them. -/
def Alike (most : Nat) (limited : Limited α) (parser : Parser α) : Prop :=
  ∀ s : State, s.cursor.Finishes → s.cursor.remaining ≤ most →
    Agrees s.cursor.remaining s limited parser

section

variable {most fuel rounds limit : Nat} {inner : Limited Expr} {nested : Parser Expr} {s : State}
  (alike : Alike most inner nested)

include alike

section

variable (finishes : s.cursor.Finishes) (few : s.cursor.remaining ≤ most)
  (wide : s.cursor.remaining < limit) (more : s.cursor.remaining ≤ rounds)

include finishes few wide more

theorem agrees_selections (enough : s.cursor.remaining ≤ fuel) (left : Expr) :
    Agrees limit s (selections inner rounds left) (Parser.selections nested fuel left) := by
  induction fuel generalizing s left rounds with
  | zero => simp [Cursor.remaining] at enough
  | succ fuel ih =>
    cases rounds with
    | zero => simp [Cursor.remaining] at more
    | succ rounds =>
      apply Agrees.current
      by_cases opens : s.cursor.current.is "[" = true
      · rw [if_pos opens, if_pos opens]
        apply Agrees.next finishes (ne_eof_of_is opens)
        intro middle finishes less
        apply (alike middle finishes (by omega)).bind
        intro selector after finishes lesser
        apply Agrees.expect finishes
        intro last finishes least
        have fewer : last.cursor.remaining ≤ rounds := by omega
        exact ih finishes (by omega) (by omega) fewer (by omega) (.index left selector)
      · rw [if_neg opens, if_neg opens]
        exact Agrees.pure finishes wide

theorem agrees_elements (enough : s.cursor.remaining ≤ fuel) :
    Agrees limit s (elements inner rounds) (Parser.elements nested fuel) := by
  induction fuel generalizing s limit rounds with
  | zero => simp [Cursor.remaining] at enough
  | succ fuel ih =>
    cases rounds with
    | zero => simp [Cursor.remaining] at more
    | succ rounds =>
      apply Agrees.current
      by_cases closes : s.cursor.current.is "]" = true
      · rw [if_pos closes, if_pos closes]
        apply Agrees.next finishes (ne_eof_of_is closes)
        intro after finishes less
        exact Agrees.pure finishes (by omega)
      rw [if_neg closes, if_neg closes]
      apply Agrees.expect finishes
      intro middle finishes less
      apply Agrees.current
      by_cases closes : middle.cursor.current.is "]" = true
      · rw [if_pos closes, if_pos closes]
        apply Agrees.next finishes (ne_eof_of_is closes)
        intro after finishes lesser
        exact Agrees.pure finishes (by omega)
      · rw [if_neg closes, if_neg closes]
        apply (alike middle finishes (by omega)).bind
        intro element after finishes lesser
        have fewer : after.cursor.remaining ≤ rounds := by omega
        apply (ih finishes (by omega) (Nat.lt_succ_self _) fewer (by omega)).bind
        intro rest last finishes least
        exact Agrees.pure finishes (by omega)

theorem agrees_array : Agrees limit s (array rounds inner) (Parser.array nested) := by
  apply Agrees.current
  by_cases closes : s.cursor.current.is "]" = true
  · rw [if_pos closes, if_pos closes]
    apply Agrees.next finishes (ne_eof_of_is closes)
    intro middle finishes less
    apply (Agrees.elementType finishes (by omega)).bind
    intro shape after finishes lesser
    exact Agrees.pure finishes (by omega)
  · rw [if_neg closes, if_neg closes]
    apply (alike s finishes few).bind
    intro first after finishes less
    apply Agrees.remaining
    apply (agrees_elements alike finishes (by omega) (Nat.lt_succ_self _) (by omega)
      (Nat.le_refl _)).bind
    intro rest last finishes lesser
    exact Agrees.pure finishes (by omega)

end

variable (more : most ≤ rounds)

include more

theorem alike_unary : Alike (most + 1) (unary rounds inner) (Parser.unary nested) := by
  intro s finishes few
  apply Agrees.current
  have literal (e : Expr) (other : s.cursor.current.kind ≠ .eof) :
      Agrees s.cursor.remaining s (do ended next; return e) (do Parser.next; return e) := by
    apply Agrees.next finishes other
    intro after finishes less
    exact Agrees.pure finishes less
  have bracketed : Agrees s.cursor.remaining s
      (if s.cursor.current.is "(" then do
        ended next
        let value ← inner
        ended (expect ")")
        return value
      else if s.cursor.current.is "[" then do
        ended next
        array rounds inner
      else ended (fail s.cursor.current (.unexpected s.cursor.current)))
      (if s.cursor.current.is "(" then do
        Parser.next
        let value ← nested
        Parser.expect ")"
        return value
      else if s.cursor.current.is "[" then do
        Parser.next
        Parser.array nested
      else Parser.fail s.cursor.current (.unexpected s.cursor.current)) := by
    by_cases opens : s.cursor.current.is "(" = true
    · rw [if_pos opens, if_pos opens]
      apply Agrees.next finishes (ne_eof_of_is opens)
      intro middle finishes less
      apply (alike middle finishes (by omega)).bind
      intro value after finishes lesser
      apply Agrees.expect finishes
      intro last finishes least
      exact Agrees.pure finishes (by omega)
    rw [if_neg opens, if_neg opens]
    by_cases bracket : s.cursor.current.is "[" = true
    · rw [if_pos bracket, if_pos bracket]
      apply Agrees.next finishes (ne_eof_of_is bracket)
      intro after finishes less
      exact agrees_array alike finishes (by omega) less (by omega)
    · rw [if_neg bracket, if_neg bracket]
      exact Agrees.fail _ _
  cases kind : s.cursor.current.kind with
  | ident =>
    apply Agrees.known
    apply Agrees.next finishes (by simp [kind])
    intro after finishes less
    apply Agrees.remaining
    exact agrees_selections alike finishes (by omega) less (by omega) (Nat.le_refl _) _
  | int => exact literal _ (by simp [kind])
  | char => exact literal _ (by simp [kind])
  | string => exact literal _ (by simp [kind])
  | eof => exact bracketed
  | keyword => exact bracketed
  | op => exact bracketed
  | other _ => exact bracketed

theorem alike_factor : Alike (most + 1) (factor rounds inner) (Parser.factor nested) := by
  intro s finishes few
  apply Agrees.current
  by_cases sign : s.cursor.current.is "-" = true
  · rw [if_pos sign, if_pos sign]
    apply Agrees.next finishes (ne_eof_of_is sign)
    intro after finishes less
    apply (alike_unary alike more after finishes (by omega)).bind
    intro value last finishes lesser
    exact Agrees.pure finishes (by omega)
  · rw [if_neg sign, if_neg sign]
    exact alike_unary alike more s finishes few

end

section

variable {most fuel rounds limit : Nat} {level : Operator.Level} {inner : Limited Expr}
  {nested : Parser Expr} {s : State} (alike : Alike most inner nested)

include alike

theorem agrees_chain (finishes : s.cursor.Finishes) (few : s.cursor.remaining ≤ most)
    (wide : s.cursor.remaining < limit) (more : s.cursor.remaining ≤ rounds)
    (enough : s.cursor.remaining ≤ fuel) (left : Expr) :
    Agrees limit s (chain level inner rounds left) (Parser.chain level nested fuel left) := by
  induction fuel generalizing s left rounds with
  | zero => simp [Cursor.remaining] at enough
  | succ fuel ih =>
    cases rounds with
    | zero => simp [Cursor.remaining] at more
    | succ rounds =>
      apply Agrees.current
      cases found : level.operator? s.cursor.current with
      | none => exact Agrees.pure finishes wide
      | some operator =>
        have other : s.cursor.current.kind ≠ .eof := by
          intro eof
          simp [Operator.Level.operator?, eof] at found
        apply Agrees.next finishes other
        intro middle finishes less
        apply (alike middle finishes (by omega)).bind
        intro right after finishes lesser
        have fewer : after.cursor.remaining ≤ rounds := by omega
        exact ih finishes (by omega) (by omega) fewer (by omega) (.binary operator left right)

theorem alike_binary (more : most ≤ rounds) :
    Alike most (binary rounds level inner) (Parser.binary level nested) := by
  intro s finishes few
  apply (alike s finishes few).bind
  intro first after finishes less
  apply Agrees.remaining
  exact agrees_chain alike finishes (by omega) less (by omega) (Nat.le_refl _) first

end

theorem alike_expressionWithin {rounds : Nat} {fuel depth : Nat} (more : fuel ≤ rounds)
    (deep : fuel ≤ depth) :
    Alike fuel (expressionWithin rounds depth) (Parser.expressionWithin fuel) := by
  induction fuel generalizing depth with
  | zero =>
    intro s finishes few
    simp [Cursor.remaining] at few
  | succ fuel ih =>
    cases depth with
    | zero => cases deep
    | succ depth =>
      have factors := alike_factor (ih (Nat.le_of_succ_le more) (Nat.le_of_succ_le_succ deep))
        (Nat.le_of_succ_le more)
      exact alike_binary (alike_binary (alike_binary factors more) more) more

theorem alike_expression (rounds : Nat) :
    Alike rounds (expression rounds) Parser.expression := by
  intro s finishes few
  apply Agrees.remaining
  exact alike_expressionWithin few few s finishes (Nat.le_refl _)

theorem agrees_assignment {rounds : Nat} {s : State} (finishes : s.cursor.Finishes)
    (more : s.cursor.remaining ≤ rounds) (ident : s.cursor.current.kind = .ident) :
    Agrees s.cursor.remaining s (assignment rounds) Parser.assignment := by
  apply Agrees.current
  apply Agrees.next finishes (by simp [ident])
  intro middle finishes less
  apply Agrees.current
  by_cases opens : middle.cursor.current.is "[" = true
  · rw [if_pos opens, if_pos opens]
    apply Agrees.known
    apply Agrees.remaining
    apply (agrees_selections (alike_expression rounds) finishes (by omega) (Nat.lt_succ_self _)
      (by omega) (Nat.le_refl _) _).bind
    intro target inner finishes lesser
    apply Agrees.expect finishes
    intro after finishes least
    apply (alike_expression rounds after finishes (by omega)).bind
    intro value last finishes fewest
    cases target <;> exact Agrees.pure finishes (by omega)
  · rw [if_neg opens, if_neg opens]
    apply Agrees.expect finishes
    intro inner finishes lesser
    apply (alike_expression rounds inner finishes (by omega)).bind
    intro value after finishes least
    apply Agrees.get
    split
    · exact Agrees.pure finishes (by omega)
    · apply Agrees.set
      exact Agrees.pure finishes (show after.cursor.remaining < _ by omega)

section

variable {most fuel rounds limit : Nat} {inner : Limited Stmt} {nested : Parser Stmt} {s : State}
  (alike : Alike most inner nested) (finishes : s.cursor.Finishes)

include alike finishes

theorem agrees_blockBody (few : s.cursor.remaining ≤ most) (wide : s.cursor.remaining < limit)
    (more : s.cursor.remaining ≤ rounds) (enough : s.cursor.remaining ≤ fuel) :
    Agrees limit s (blockBody inner rounds) (Parser.blockBody nested fuel) := by
  induction fuel generalizing s limit rounds with
  | zero => simp [Cursor.remaining] at enough
  | succ fuel ih =>
    cases rounds with
    | zero => simp [Cursor.remaining] at more
    | succ rounds =>
      apply Agrees.current
      by_cases closes : s.cursor.current.is "\x7d" = true
      · rw [if_pos closes, if_pos closes]
        apply Agrees.next finishes (ne_eof_of_is closes)
        intro after finishes less
        exact Agrees.pure finishes (by omega)
      rw [if_neg closes, if_neg closes]
      by_cases eof : s.cursor.current.kind = .eof
      · rw [if_pos eof, if_pos eof]
        exact Agrees.fail _ _
      rw [if_neg eof, if_neg eof]
      apply (alike s finishes few).bind
      intro first after finishes less
      have fewer : after.cursor.remaining ≤ rounds := by omega
      apply (ih finishes (by omega) (Nat.lt_succ_self _) fewer (by omega)).bind
      intro rest last finishes lesser
      exact Agrees.pure finishes (by omega)

theorem agrees_conditional (few : s.cursor.remaining ≤ most + 1)
    (more : s.cursor.remaining ≤ rounds) (word : s.cursor.current.is "if" = true) :
    Agrees s.cursor.remaining s (conditional rounds inner) (Parser.conditional nested) := by
  apply Agrees.next finishes (ne_eof_of_is word)
  intro first finishes less
  apply (alike_expression rounds first finishes (by omega)).bind
  intro condition middle finishes lesser
  apply (alike middle finishes (by omega)).bind
  intro body after finishes least
  apply Agrees.current
  by_cases otherwise : after.cursor.current.is "else" = true
  · rw [if_pos otherwise, if_pos otherwise]
    apply Agrees.next finishes (ne_eof_of_is otherwise)
    intro side finishes fewest
    apply (alike side finishes (by omega)).bind
    intro other last finishes final
    exact Agrees.pure finishes (by omega)
  · rw [if_neg otherwise, if_neg otherwise]
    exact Agrees.pure finishes (by omega)

end

theorem alike_statementWithin {rounds fuel depth : Nat} (more : fuel ≤ rounds)
    (deep : fuel ≤ depth) :
    Alike fuel (statementWithin rounds depth) (Parser.statementWithin fuel) := by
  induction fuel generalizing depth with
  | zero =>
    intro s finishes few
    simp [Cursor.remaining] at few
  | succ fuel ih =>
    cases depth with
    | zero => cases deep
    | succ depth =>
      have alike := ih (Nat.le_of_succ_le more) (Nat.le_of_succ_le_succ deep)
      intro s finishes few
      apply Agrees.current
      by_cases ident : s.cursor.current.kind = .ident
      · rw [if_pos ident, if_pos ident]
        exact agrees_assignment finishes (by omega) ident
      rw [if_neg ident, if_neg ident]
      by_cases prints : s.cursor.current.is "print" = true
      · rw [if_pos prints, if_pos prints]
        apply Agrees.next finishes (ne_eof_of_is prints)
        intro middle finishes less
        apply (alike_expression rounds middle finishes (by omega)).bind
        intro value after finishes lesser
        exact Agrees.pure finishes (by omega)
      rw [if_neg prints, if_neg prints]
      by_cases asks : s.cursor.current.is "if" = true
      · rw [if_pos asks, if_pos asks]
        exact agrees_conditional alike finishes few (by omega) asks
      rw [if_neg asks, if_neg asks]
      by_cases repeats : s.cursor.current.is "while" = true
      · rw [if_pos repeats, if_pos repeats]
        apply Agrees.next finishes (ne_eof_of_is repeats)
        intro first finishes less
        apply (alike_expression rounds first finishes (by omega)).bind
        intro condition middle finishes lesser
        apply (alike middle finishes (by omega)).bind
        intro body after finishes least
        exact Agrees.pure finishes (by omega)
      rw [if_neg repeats, if_neg repeats]
      by_cases opens : s.cursor.current.is "\x7b" = true
      · rw [if_pos opens, if_pos opens]
        apply Agrees.next finishes (ne_eof_of_is opens)
        intro middle finishes less
        apply Agrees.remaining
        apply (agrees_blockBody alike finishes (by omega) (Nat.lt_succ_self _) (by omega)
          (Nat.le_refl _)).bind
        intro body after finishes lesser
        exact Agrees.pure finishes (by omega)
      · rw [if_neg opens, if_neg opens]
        exact Agrees.fail _ _

theorem agrees_program {rounds fuel count limit : Nat} {s : State} (finishes : s.cursor.Finishes)
    (wide : s.cursor.remaining < limit) (more : s.cursor.remaining ≤ rounds)
    (many : s.cursor.remaining ≤ count) (enough : s.cursor.remaining ≤ fuel) :
    Agrees limit s (program rounds count) (Parser.program fuel) := by
  induction fuel generalizing s limit count with
  | zero => simp [Cursor.remaining] at enough
  | succ fuel ih =>
    cases count with
    | zero => simp [Cursor.remaining] at many
    | succ count =>
      rw [program, Parser.program]
      apply Agrees.current
      by_cases eof : s.cursor.current.kind = .eof
      · rw [if_pos eof, if_pos eof]
        exact Agrees.pure finishes wide
      rw [if_neg eof, if_neg eof, Parser.statement, bind_assoc]
      apply Agrees.remaining
      apply (alike_statementWithin more more s finishes (Nat.le_refl _)).bind
      intro first after finishes less
      have fewer : after.cursor.remaining ≤ count := by omega
      apply (ih finishes (Nat.lt_succ_self _) (by omega) fewer (by omega)).bind
      intro rest last finishes lesser
      exact Agrees.pure finishes (by omega)

/-- No loop of the parser takes more rounds, and no recursion goes deeper, than there are
characters. -/
theorem parse_eq_some {source : Source} {rounds : Nat} (enough : source.chars.length < rounds) :
    Limited.parse rounds source = some (Syntax.parse source) := by
  rw [Limited.parse, Cursor.ofSourceLimited_eq enough, Syntax.parse]
  rcases started : Cursor.ofSource source with d | cursor
  · rfl
  have more : cursor.remaining ≤ rounds :=
    Nat.le_trans (Cursor.remaining_ofSource_le started) enough
  have same := (agrees_program (Cursor.ofSource_finishes started) (Nat.lt_succ_self _) more more
    (Nat.le_refl _) : Agrees _ ⟨cursor, []⟩ _ _).same
  have opened : ((program rounds rounds).run' ⟨cursor, []⟩).run =
      (Prod.fst <$> program rounds rounds ⟨cursor, []⟩).run := rfl
  have closed : (Parser.program cursor.remaining).run' ⟨cursor, []⟩ =
      Prod.fst <$> reads (Parser.program cursor.remaining) ⟨cursor, []⟩ := rfl
  rw [ok_bind, closed]
  refine opened.trans ?_
  rw [same]
  cases reads (Parser.program cursor.remaining) ⟨cursor, []⟩ <;> rfl

/-- A program is read up to the end of input. -/
theorem eof_of_program {fuel : Nat} {s after : State} {tree : List Stmt}
    (finishes : s.cursor.Finishes) (enough : s.cursor.remaining ≤ fuel)
    (read : reads (Parser.program fuel) s = .ok (tree, after)) :
    after.cursor.current.kind = .eof := by
  induction fuel generalizing s tree with
  | zero => simp [Cursor.remaining] at enough
  | succ fuel ih =>
    rw [Parser.program, reads_bind, reads_current] at read
    by_cases eof : s.cursor.current.kind = .eof
    · simp only [if_pos eof] at read
      cases read
      exact eof
    · simp only [if_neg eof] at read
      obtain ⟨first, middle, one, read⟩ := reads_bind_ok.mp read
      obtain ⟨rest, last, others, read⟩ := reads_bind_ok.mp read
      cases read
      rw [Parser.statement, reads_bind, reads_remaining] at one
      have alike : Alike _ _ (Parser.statementWithin s.cursor.remaining) :=
        alike_statementWithin (Nat.le_refl _) (Nat.le_refl _)
      obtain ⟨finishes, less, _⟩ := (alike s finishes (Nat.le_refl _)).less first middle one
      exact ih finishes (by omega) others

end Limited

end Parser

/-- Only a source without lexical faults has a tree. -/
theorem fault_of_parse {source : Source} {tree : List Stmt} (parsed : parse source = .ok tree) :
    (TokenStream.ofSource source).fault = none := by
  obtain ⟨cursor, started, parsed⟩ := bind_eq_ok.mp parsed
  have finishes := Cursor.ofSource_finishes started
  cases read : Parser.reads (Parser.program cursor.remaining) ⟨cursor, []⟩ with
  | error d =>
    have failed : (Parser.program cursor.remaining).run' ⟨cursor, []⟩ =
        Prod.fst <$> Parser.reads (Parser.program cursor.remaining) ⟨cursor, []⟩ := rfl
    rw [failed, read] at parsed
    cases parsed
  | ok result =>
    have agrees : Parser.Limited.Agrees _ ⟨cursor, []⟩ (Parser.Limited.program cursor.remaining _)
        (Parser.program cursor.remaining) :=
      Parser.Limited.agrees_program finishes (Nat.lt_succ_self _) (Nat.le_refl _) (Nat.le_refl _)
        (Nat.le_refl _)
    obtain ⟨ended, _, fault⟩ := agrees.less _ _ read
    have eof := Parser.Limited.eof_of_program finishes (Nat.le_refl _) read
    rw [← (Cursor.tokens_of_ofSource started).1]
    by_contra faulty
    exact ended.early (fault.symm ▸ faulty) _ (List.mem_cons_self ..) eof

end Onepass.Syntax
