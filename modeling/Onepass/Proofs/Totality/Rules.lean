import Onepass.Proofs.Lockstep.Session
import Onepass.Proofs.Totality.Cursor

/-! A compiler with limits. The rules of the compiler are written here once more with a limit on the
rounds of every loop and on the depth of every recursion; such a compiler has no result once a limit
is reached. It agrees with the compiler from a session when both do the same there, and leave few
enough tokens. -/
namespace Onepass

open Codegen (Builder)
open Syntax (Cursor)

namespace Compiler

/-- A step of a compilation that has no result when it reaches a limit. -/
abbrev Limited (α : Type) := ExceptT Failure (StateT Session Option) α

namespace Limited

variable {α β : Type}

/-- The result of a step from a session, if it reaches no limit, with the session it leaves. -/
def attempt (limited : Limited α) (s : Session) : Option (Except Failure α × Session) :=
  (ExceptT.run limited).run s

/-- A limit is reached. -/
def exhausted : Limited α := ExceptT.mk fun _ => none

/-- A step without loops. -/
def ended (action : Compiler α) : Limited α := ExceptT.mk fun s => some (perform action s)

/-- An index in brackets, applied to the value of type `container` under the pointer. -/
def index (expression : Limited Ty) (container : Ty) : Limited Unit := do
  ended (expect "[")
  ended (emit Codegen.pushPointer)
  let token ← ended current
  let type ← expression
  unless type.compatible .int do ended (fail token (.badIndex type))
  ended (expect "]")
  ended (emit Codegen.popPointer)
  ended (build (Builder.addOffset container))

section

variable (rounds : Nat)

/-- The element type of an empty array. -/
def elementType : Limited Shape := ExceptT.mk fun s => do
  match ← (s.cursor.shapeLimited rounds).run with
  | .ok (shape, cursor) => return (.ok shape, { s with cursor })
  | .error d => return (.error (.diagnostic d), s)

/-- Selections after the value of the variable `name`. -/
def selections (expression : Limited Ty) (name : Bytes) : (rounds : Nat) → Ty → Limited Ty
  | 0, _ => exhausted
  | rounds + 1, type => do
    let token ← ended current
    if token.is "[" then
      match type.element? with
      | none => ended (fail token (.notIndexable name type))
      | some element =>
        index expression type
        ended (emit (Codegen.loadAt element wordSize))
        selections expression name rounds element
    else return type

/-- A variable with the selections that follow it. -/
def selected (expression : Limited Ty) : Limited Ty := do
  let token ← ended current
  let v ← ended (lookup token)
  ended next
  ended (emit v.load)
  selections expression token.text rounds v.type

/-- The elements of an array literal from `position` on, with the closing bracket. -/
def elements (expression : Limited Ty) (element : Ty) : (rounds position : Nat) → Limited Nat
  | 0, _ => exhausted
  | rounds + 1, position => do
    if ← ended (accept "]") then return position
    else
      ended (expect ",")
      if ← ended (accept "]") then return position
      else
        let token ← ended current
        let type ← expression
        unless element.compatible type do ended (fail token (.mixedElements type element))
        ended (storeElement element position)
        elements expression element rounds (position + 1)

/-- An array literal after its opening bracket. -/
def array (expression : Limited Ty) : Limited Ty := do
  if ← ended (accept "]") then
    let shape ← elementType rounds
    let type := Ty.arrayOf (.ofShape shape)
    ended (build (Builder.allocateElements type 0))
    ended (emit (Codegen.setLength 0))
    return type
  else
    ended (build Builder.beginCapture)
    let first ← expression
    let element := first.general
    ended (storeElement element 0)
    let count ← elements expression element rounds 1
    let stores ← ended (build Builder.endCapture)
    let type := Ty.arrayOf element
    ended (build (Builder.allocateElements type count))
    ended (emit (Codegen.setLength count))
    ended (emit Codegen.pushPointer)
    ended (emit stores)
    ended (emit Codegen.popPointer)
    return type

def unary (expression : Limited Ty) : Limited Ty := do
  let token ← ended current
  match token.kind with
  | .ident => selected rounds expression
  | .int =>
    ended (emit (Codegen.loadInt token.value))
    ended next
    return Ty.int.literal
  | .char =>
    ended (emit (Codegen.loadInt token.value))
    ended next
    return Ty.char.literal
  | .string =>
    let label ← ended (build (Builder.addString token.text))
    ended (emit (Codegen.loadAddress label))
    ended next
    return Ty.string.literal
  | _ =>
    if token.is "(" then
      ended next
      let type ← expression
      ended (expect ")")
      return type
    else if token.is "[" then
      ended next
      array rounds expression
    else ended (fail token (.unexpected token))

def factor (expression : Limited Ty) : Limited Ty := do
  let token ← ended current
  if token.is "-" then
    ended next
    let type ← unary rounds expression
    match Codegen.operation? type .negate with
    | some code =>
      ended (emit code)
      return type
    | none => ended (fail token (.unsupportedOperation Operation.negate.name type))
  else unary rounds expression

/-- Operators of a level with their right operands, after a first operand. -/
def chain (level : Operator.Level) (operand : Limited Ty) : (rounds : Nat) → Ty → Limited Ty
  | 0, _ => exhausted
  | rounds + 1, left => do
    let token ← ended current
    match level.operator? token with
    | none => return left
    | some operator =>
      ended (emit (Codegen.push left))
      ended next
      let right ← operand
      let type ← ended (operate token operator left right)
      chain level operand rounds type

/-- Operands joined by the operators of a level, from left to right. -/
def binary (level : Operator.Level) (operand : Limited Ty) : Limited Ty := do
  let first ← operand
  chain level operand rounds first

/-- An expression nested less than `depth` deep. -/
def expressionWithin : (depth : Nat) → Limited Ty
  | 0 => exhausted
  | depth + 1 =>
    binary rounds .relational (binary rounds .additive (binary rounds .multiplicative
      (factor rounds (expressionWithin depth))))

def expression : Limited Ty := expressionWithin rounds rounds

/-- The selections of an assignment to an element of an array, at most `count` of them. -/
def elementTarget : (count : Nat) → (element : Shape) → Limited Shape
  | 0, _ => exhausted
  | count + 1, element => do
    index (expression rounds) (.ofShape (.array element))
    let token ← ended current
    if token.is "[" then
      match element with
      | .array inner =>
        ended (emit (Codegen.loadAt (.ofShape element) wordSize))
        elementTarget count inner
      | _ => ended (fail token (.notANestedArray (.ofShape element)))
    else return element

/-- An assignment to an element of the variable that `token` names. -/
def elementAssignment (token : Token) : Limited Unit := do
  let v ← ended (lookup token)
  match v.type.shape with
  | .array element =>
    ended (emit v.load)
    let element ← elementTarget rounds rounds element
    ended (emit Codegen.pushPointer)
    ended (expect "=")
    let valueToken ← ended current
    let type ← expression rounds
    unless (Ty.ofShape element).compatible type do
      ended (fail valueToken (.badElementAssignment type (.ofShape (.array element)) v.name))
    ended (emit (Codegen.popBase "edx"))
    ended (emit (Codegen.storeAt (.ofShape element) "edx" wordSize))
  | _ => ended (fail token (.notAnArray v.type v.name))

def assignment : Limited Unit := do
  let token ← ended current
  ended next
  if (← ended current).is "[" then elementAssignment rounds token
  else
    ended (expect "=")
    let valueToken ← ended current
    let type ← expression rounds
    let v ← ended (assigned token valueToken type)
    ended (emit v.store)

def print : Limited Unit := do
  ended next
  let token ← ended current
  let type ← expression rounds
  match Codegen.print? (← ended get).builder.platform type with
  | some code => ended (emit code)
  | none => ended (fail token (.unprintable type))

/-- A condition must be a scalar. -/
def condition : Limited Unit := do
  let token ← ended current
  let type ← expression rounds
  if type.isHeap then ended (fail token (.badCondition type))

def conditional (statement : Limited Unit) : Limited Unit := do
  ended next
  condition rounds
  let otherLabel ← ended (build Builder.newLabel)
  ended (emit (Codegen.jumpIfFalse otherLabel))
  statement
  if ← ended (accept "else") then
    let endLabel ← ended (build Builder.newLabel)
    ended (emit (Codegen.jump endLabel))
    ended (emit (Codegen.label otherLabel))
    statement
    ended (emit (Codegen.label endLabel))
  else ended (emit (Codegen.label otherLabel))

def loop (statement : Limited Unit) : Limited Unit := do
  ended next
  let loopLabel ← ended (build Builder.newLabel)
  let exitLabel ← ended (build Builder.newLabel)
  ended (emit (Codegen.label loopLabel))
  condition rounds
  ended (emit (Codegen.jumpIfFalse exitLabel))
  statement
  ended (emit (Codegen.jump loopLabel))
  ended (emit (Codegen.label exitLabel))

/-- Statements up to the closing brace. -/
def blockBody (statement : Limited Unit) : (rounds : Nat) → Limited Unit
  | 0 => exhausted
  | rounds + 1 => do
    let token ← ended current
    if token.is "\x7d" then ended next
    else if token.kind = .eof then ended (fail token (.expectedSymbol "\x7d" token))
    else
      statement
      blockBody statement rounds

/-- A statement nested less than `depth` deep. -/
def statementWithin : (depth : Nat) → Limited Unit
  | 0 => exhausted
  | depth + 1 => do
    let token ← ended current
    if token.kind = .ident then assignment rounds
    else if token.is "print" then print rounds
    else if token.is "if" then conditional rounds (statementWithin depth)
    else if token.is "while" then loop rounds (statementWithin depth)
    else if token.is "\x7b" then
      ended next
      blockBody (statementWithin depth) rounds
    else ended (fail token (.expectedStatement token))

/-- Statements up to the end of input, at most `count` of them. -/
def statements : (count : Nat) → Limited Unit
  | 0 => exhausted
  | count + 1 => do
    if (← ended current).kind = .eof then return
    else
      statementWithin rounds rounds
      statements count

/-- The whole program as the body of `main`. -/
def program : Limited Unit := do
  ended (build (Builder.beginFunction "main"))
  statements rounds rounds
  ended (build Builder.endFunction)

/-- Compiles a source for a platform; nothing if a loop takes `rounds` rounds or a recursion goes
`rounds` deep. -/
def run (source : Source) (platform : Platform) : Option Outcome := do
  match ← Cursor.ofSourceLimited rounds source with
  | .error d => return ⟨.error (.diagnostic d), {}, { platform }⟩
  | .ok cursor =>
    let (result, session) ← attempt (program rounds) ⟨cursor, {}, { platform }⟩
    return ⟨result, session.scope, session.builder⟩

end

theorem attempt_bind (limited : Limited α) (later : α → Limited β) (s : Session) :
    attempt (limited >>= later) s =
      match attempt limited s with
      | some (.ok a, after) => attempt (later a) after
      | some (.error e, after) => some (.error e, after)
      | none => none := by
  simp only [attempt, ExceptT.run_bind, StateT.run_bind]
  rcases (ExceptT.run limited).run s with _ | ⟨_ | _, _⟩ <;> rfl

/-- Whether, from a session, both compilers do the same and leave fewer than `limit` tokens. -/
structure Agrees (limit : Nat) (s : Session) (limited : Limited α) (action : Compiler α) :
    Prop where
  same : attempt limited s = some (perform action s)
  less : ∀ a after, perform action s = (.ok a, after) →
    after.cursor.Finishes ∧ after.cursor.remaining < limit

/-- Whether a step leaves the cursor where it is, if it succeeds. -/
def Still (action : Compiler α) : Prop :=
  ∀ s a after, perform action s = (.ok a, after) → after.cursor = s.cursor

namespace Still

theorem bind {first : Compiler α} {rest : α → Compiler β} (still : Still first)
    (stills : ∀ a, Still (rest a)) : Still (first >>= rest) := by
  intro s b after done
  rw [perform_bind] at done
  split at done
  · rename_i a middle begun
    rw [stills a middle b after done, still s a middle begun]
  · cases done

theorem pure (a : α) : Still (pure a) := by
  rintro s _ _ ⟨⟩
  rfl

theorem get : Still get := by
  rintro s _ _ ⟨⟩
  rfl

theorem fail (token : Token) (cause : Diagnostic.Cause) :
    Still (fail token cause : Compiler α) := by
  rintro s _ _ ⟨⟩

theorem build (step : Codegen.Build α) : Still (build step) := by
  intro s a after done
  rw [perform_build] at done
  split at done
  · cases done
    rfl
  · cases done

theorem emit (code : Assembly.Code) : Still (emit code) := build _

theorem lookup (token : Token) : Still (lookup token) := by
  apply get.bind
  intro s
  split
  · exact pure _
  · exact fail _ _

theorem storeElement (element : Ty) (position : Nat) : Still (storeElement element position) := by
  apply (emit _).bind
  intro _
  exact emit _

theorem operate (token : Token) (operator : Operator) (left right : Ty) :
    Still (operate token operator left right) := by
  unfold Compiler.operate
  split
  · exact fail _ _
  · split
    · exact fail _ _
    · apply (emit _).bind
      intro _
      exact pure _

theorem assigned (token valueToken : Token) (type : Ty) :
    Still (assigned token valueToken type) := by
  intro s v after done
  rw [Compiler.assigned, perform_bind, perform_get] at done
  cases found : s.scope.find? token.text with
  | some known =>
    have choice : Still (do
        unless known.type.compatible type do
          Compiler.fail valueToken (.badAssignment type known.name known.type)
        return known : Compiler (Variable Ty)) := by
      split
      · exact pure _
      · exact (fail _ _).bind fun _ => pure _
    simp only [found] at done
    exact choice s v after done
  | none =>
    simp only [found] at done
    generalize s.scope.add token.text type.general = added at done
    have reserved := (build (Builder.reserve (wordSize * added.2.size : Nat))).bind fun _ =>
      pure added.1
    exact reserved { s with scope := added.2 } v after done

end Still

namespace Agrees

variable {limit middle : Nat} {s : Session} {limited : Limited α} {action : Compiler α}

theorem bind {later : α → Limited β} {rest : α → Compiler β}
    (first : Agrees middle s limited action)
    (agrees : ∀ a after, after.cursor.Finishes → after.cursor.remaining < middle →
      Agrees limit after (later a) (rest a)) :
    Agrees limit s (limited >>= later) (action >>= rest) := by
  have opened := attempt_bind limited later s
  rw [first.same] at opened
  rcases done : perform action s with ⟨_ | a, after⟩
  · constructor
    · rw [opened, perform_bind, done]
    · rw [perform_bind, done]
      rintro _ _ ⟨⟩
  · obtain ⟨finishes, less⟩ := first.less a after done
    have agrees := agrees a after finishes less
    constructor
    · rw [opened, perform_bind, done]
      exact agrees.same
    · rw [perform_bind, done]
      exact agrees.less

/-- A first step that is the same on both sides. -/
theorem ended {first : Compiler α} {later : α → Limited β} {rest : α → Compiler β}
    (agrees : ∀ a after, perform first s = (.ok a, after) →
      Agrees limit after (later a) (rest a)) :
    Agrees limit s (ended first >>= later) (first >>= rest) := by
  have opened := attempt_bind (Limited.ended first) later s
  have begun : attempt (Limited.ended first) s = some (perform first s) := rfl
  rw [begun] at opened
  rcases done : perform first s with ⟨_ | a, after⟩
  · constructor
    · rw [opened, perform_bind, done]
    · rw [perform_bind, done]
      rintro _ _ ⟨⟩
  · have agrees := agrees a after done
    constructor
    · rw [opened, perform_bind, done]
      exact agrees.same
    · rw [perform_bind, done]
      exact agrees.less

theorem mono {wider : Nat} (agrees : Agrees limit s limited action) (wide : limit ≤ wider) :
    Agrees wider s limited action where
  same := agrees.same
  less a after done := by
    obtain ⟨finishes, less⟩ := agrees.less a after done
    exact ⟨finishes, Nat.lt_of_lt_of_le less wide⟩

theorem pure {a : α} (finishes : s.cursor.Finishes) (less : s.cursor.remaining < limit) :
    Agrees limit s (pure a) (pure a) := by
  constructor
  · rfl
  · rintro _ _ ⟨⟩
    exact ⟨finishes, less⟩

theorem fail (token : Token) (cause : Diagnostic.Cause) :
    Agrees limit s (Limited.ended (fail token cause) : Limited α) (Compiler.fail token cause) := by
  constructor
  · rfl
  · rintro _ _ ⟨⟩

/-- Nothing follows a failure. -/
theorem fail_bind {token : Token} {cause : Diagnostic.Cause} {later : α → Limited β}
    {rest : α → Compiler β} :
    Agrees limit s (Limited.ended (Compiler.fail token cause) >>= later)
      (Compiler.fail token cause >>= rest) := by
  apply ended
  rintro _ _ ⟨⟩

/-- A check that fails at a token or lets the rest follow. -/
theorem check {fits : Bool} {token : Token} {cause : Diagnostic.Cause} {later : Unit → Limited α}
    {rest : Unit → Compiler α} (agrees : Agrees limit s (later ()) (rest ())) :
    Agrees limit s
      (if fits then later () else Limited.ended (Compiler.fail token cause) >>= later)
      (if fits then rest () else Compiler.fail token cause >>= rest) := by
  cases fits with
  | true => exact agrees
  | false => exact fail_bind

section

variable {first : Compiler α} {later : α → Limited β} {rest : α → Compiler β}

theorem still (fixed : Still first)
    (agrees : ∀ a after, after.cursor = s.cursor → Agrees limit after (later a) (rest a)) :
    Agrees limit s (Limited.ended first >>= later) (first >>= rest) := by
  apply ended
  intro a after done
  exact agrees a after (fixed s a after done)

theorem kept (fixed : Still first) (finishes : s.cursor.Finishes)
    (less : s.cursor.remaining < middle)
    (agrees : ∀ a after, after.cursor.Finishes → after.cursor.remaining < middle →
      Agrees limit after (later a) (rest a)) :
    Agrees limit s (Limited.ended first >>= later) (first >>= rest) := by
  apply still fixed
  intro a after same
  rw [← same] at finishes less
  exact agrees a after finishes less

theorem last (fixed : Still first) (finishes : s.cursor.Finishes)
    (less : s.cursor.remaining < limit) : Agrees limit s (Limited.ended first) first := by
  constructor
  · rfl
  · intro a after done
    rw [fixed s a after done]
    exact ⟨finishes, less⟩

end

theorem current {later : Token → Limited α} {rest : Token → Compiler α}
    (agrees : Agrees limit s (later s.cursor.current) (rest s.cursor.current)) :
    Agrees limit s (Limited.ended current >>= later) (Compiler.current >>= rest) := by
  apply ended
  rintro _ _ ⟨⟩
  exact agrees

theorem get {later : Session → Limited α} {rest : Session → Compiler α}
    (agrees : Agrees limit s (later s) (rest s)) :
    Agrees limit s (Limited.ended get >>= later) (get >>= rest) := by
  apply ended
  rintro _ _ ⟨⟩
  exact agrees

/-- Only the compiler itself asks how many tokens there are. -/
theorem remaining {rest : Nat → Compiler α}
    (agrees : Agrees limit s limited (rest s.cursor.remaining)) :
    Agrees limit s limited (Compiler.remaining >>= rest) := by
  constructor
  · exact agrees.same
  · rw [perform_bind, perform_remaining]
    exact agrees.less

section

variable {later : Unit → Limited α} {rest : Unit → Compiler α} (finishes : s.cursor.Finishes)

include finishes

theorem lastNext (other : s.cursor.current.kind ≠ .eof) :
    Agrees s.cursor.remaining s (Limited.ended Compiler.next) Compiler.next := by
  constructor
  · rfl
  · intro _ after done
    rw [perform_next] at done
    split at done
    · rename_i moved
      cases done
      exact ⟨Cursor.next_finishes finishes moved, Cursor.next_less finishes other moved⟩
    · cases done

theorem next (other : s.cursor.current.kind ≠ .eof)
    (agrees : ∀ after, after.cursor.Finishes → after.cursor.remaining < s.cursor.remaining →
      Agrees limit after (later ()) (rest ())) :
    Agrees limit s (Limited.ended next >>= later) (Compiler.next >>= rest) :=
  (lastNext finishes other).bind fun _ => agrees

theorem expect {symbol : Bytes}
    (agrees : ∀ after, after.cursor.Finishes → after.cursor.remaining < s.cursor.remaining →
      Agrees limit after (later ()) (rest ())) :
    Agrees limit s (Limited.ended (expect symbol) >>= later)
      (Compiler.expect symbol >>= rest) := by
  apply ended
  intro _ after done
  rw [perform_expect] at done
  split at done
  · rename_i passed
    cases done
    obtain ⟨other, moved⟩ := Cursor.ne_eof_of_expect passed
    exact agrees _ (Cursor.next_finishes finishes moved) (Cursor.next_less finishes other moved)
  · cases done

end

section

variable {symbol : Bytes} {later : Bool → Limited α} {rest : Bool → Compiler α}

theorem accept (finishes : s.cursor.Finishes)
    (taken : ∀ after, after.cursor.Finishes → after.cursor.remaining < s.cursor.remaining →
      Agrees limit after (later true) (rest true))
    (left : Agrees limit s (later false) (rest false)) :
    Agrees limit s (Limited.ended (accept symbol) >>= later) (Compiler.accept symbol >>= rest) := by
  apply ended
  intro found after done
  by_cases here : s.cursor.current.is symbol = true
  · simp only [Compiler.accept, perform_bind, perform_current, if_pos here, perform_next] at done
    rcases moved : s.cursor.next with _ | cursor
    · rw [moved] at done
      cases done
    · rw [moved] at done
      cases done
      exact taken _ (Cursor.next_finishes finishes moved)
        (Cursor.next_less finishes (Syntax.Parser.ne_eof_of_is here) moved)
  · simp only [Compiler.accept, perform_bind, perform_current, if_neg here] at done
    cases done
    exact left

end

theorem elementType {rounds : Nat} (finishes : s.cursor.Finishes)
    (more : s.cursor.remaining ≤ rounds) :
    Agrees s.cursor.remaining s (elementType rounds) (readTokens Cursor.shape) := by
  obtain ⟨same, less⟩ := Cursor.shapeLimited_eq finishes (Nat.le_refl _) more
  constructor
  · have opened : attempt (Limited.elementType rounds) s =
        ((s.cursor.shapeLimited rounds).run >>= fun result =>
        match result with
        | .ok (shape, cursor) => Pure.pure (.ok shape, { s with cursor })
        | .error d => Pure.pure (.error (.diagnostic d), s)) := rfl
    rw [opened, same, perform_readTokens, Cursor.shape]
    rcases s.cursor.shapeWithin s.cursor.remaining with d | ⟨shape, after⟩ <;> rfl
  · intro shape after done
    rw [perform_readTokens, Cursor.shape] at done
    split at done
    · rename_i found
      cases done
      obtain ⟨finishes, less, _⟩ := less _ _ found
      exact ⟨finishes, less⟩
    · cases done

end Agrees

end Limited

end Compiler

end Onepass
