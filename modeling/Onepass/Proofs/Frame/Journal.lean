import Onepass.Proofs.Frame.Session

/-! A record of the assignments that a compilation completes. The rules for statements are written
here once more with a record of the names that are assigned to. As long as a compilation goes on, its
variables are those of the recorded names, and the lines that write to the frame are the stores of
the recorded assignments. -/
namespace Onepass

open Assembly (Code Line)
open Codegen (Builder)
open Syntax (Cursor)

namespace Syntax.Cursor

/-- The token after the current one; the last token is never left. -/
def following (c : Cursor) : Token := c.rest.headD c.current

theorem current_next {c after : Cursor} (moved : c.next = .ok after) :
    after.current = c.following := by
  rw [next] at moved
  split at moved
  · rename_i here
    cases moved
    simp [following, here]
  · rename_i here
    split at moved
    · cases moved
    · cases moved
      simp [following, here]

end Syntax.Cursor

namespace Compiler

/-- A step of a compilation that records the names of the plain assignments it has completed. What was
recorded before a failure stays recorded. -/
abbrev Journaled (α : Type) := ExceptT Failure (StateM (Session × List Bytes)) α

namespace Journaled

variable {α β : Type}

/-- A step that records nothing. -/
def of (step : Compiler α) : Journaled α := ExceptT.mk fun (s, names) =>
  ((perform step s).1, (perform step s).2, names)

theorem perform_of (step : Compiler α) (s : Session) (names : List Bytes) :
    perform (of step) (s, names) = ((perform step s).1, (perform step s).2, names) := rfl

/-- An assignment, which is recorded at its end unless it goes to an element of an array. -/
def assignment : Journaled Unit := do
  let cursor := (← get).1.cursor
  of Compiler.assignment
  unless cursor.following.is "[" do
    modify fun (s, names) => (s, names ++ [cursor.current.text])

def conditional (statement : Journaled Unit) : Journaled Unit := do
  of next
  of condition
  let otherLabel ← of (build Builder.newLabel)
  of (emit (Codegen.jumpIfFalse otherLabel))
  statement
  if ← of (accept "else") then
    let endLabel ← of (build Builder.newLabel)
    of (emit (Codegen.jump endLabel))
    of (emit (Codegen.label otherLabel))
    statement
    of (emit (Codegen.label endLabel))
  else of (emit (Codegen.label otherLabel))

def loop (statement : Journaled Unit) : Journaled Unit := do
  of next
  let loopLabel ← of (build Builder.newLabel)
  let exitLabel ← of (build Builder.newLabel)
  of (emit (Codegen.label loopLabel))
  of condition
  of (emit (Codegen.jumpIfFalse exitLabel))
  statement
  of (emit (Codegen.jump loopLabel))
  of (emit (Codegen.label exitLabel))

/-- Statements up to the closing brace. -/
def blockBody (statement : Journaled Unit) : (fuel : Nat) → Journaled Unit
  | 0 => of (expect "\x7d")
  | fuel + 1 => do
    let token ← of current
    if token.is "\x7d" then of next
    else if token.kind = .eof then of (fail token (.expectedSymbol "\x7d" token))
    else
      statement
      blockBody statement fuel

/-- A statement nested at most `fuel` deep. -/
def statementWithin : (fuel : Nat) → Journaled Unit
  | 0 => do
    let token ← of current
    of (fail token (.expectedStatement token))
  | fuel + 1 => do
    let token ← of current
    if token.kind = .ident then assignment
    else if token.is "print" then of print
    else if token.is "if" then conditional (statementWithin fuel)
    else if token.is "while" then loop (statementWithin fuel)
    else if token.is "\x7b" then
      of next
      blockBody (statementWithin fuel) (← of remaining)
    else of (fail token (.expectedStatement token))

/-- A statement: it cannot nest deeper than there are tokens. -/
def statement : Journaled Unit := do statementWithin (← of remaining)

/-- Statements up to the end of input. -/
def statements : (fuel : Nat) → Journaled Unit
  | 0 => return
  | fuel + 1 => do
    if (← of current).kind = .eof then return
    else
      statement
      statements fuel

/-- The whole program as the body of `main`. -/
def program : Journaled Unit := do
  of (build (Builder.beginFunction "main"))
  statements (← of remaining)
  of (build Builder.endFunction)

/-- What a compilation leaves behind, with the names of the plain assignments that it completed. -/
def run (source : Source) (platform : Platform) : Outcome × List Bytes :=
  match Cursor.ofSource source with
  | .error d => (⟨.error (.diagnostic d), {}, { platform }⟩, [])
  | .ok cursor =>
    let (result, session, names) := perform program (⟨cursor, {}, { platform }⟩, [])
    (⟨result, session.scope, session.builder⟩, names)

end Journaled

/-- Whether recorded names, variables and lines that write to the frame belong together: the variables
are those of the names, in consecutive slots, and each name has a line that stores its variable. -/
structure Records (names : List Bytes) (scope : Scope Ty) (stores : Code) : Prop where
  declared : scope.entries.map (·.name) = names.eraseDups
  laidOut : Generator.LaidOut { scope }
  stores : List.Forall₂ (fun name line => ∃ v ∈ scope.entries, v.name = name ∧ v.store = [line])
    names stores

/-- Whether a step that records ends as the step does, and its record belongs to what the step leaves
behind. -/
inductive Recorded {α : Type} (source : Source) :
    Except Failure α × Session × List Bytes → Except Failure α × Session → Prop
  | success {a : α} {s : Session} {names : List Bytes} {scope : Scope Ty} {stores : Code}
      (records : Records names scope stores) (at_ : s.At ⟨source, scope, stores⟩ 0) :
    Recorded source (.ok a, s, names) (.ok a, s)
  | failure {failure : Failure} {s : Session} {names : List Bytes} {scope : Scope Ty} {stores : Code}
      {depth : Nat} (reported : ∀ d, failure = .diagnostic d → d.PointsInto source)
      (records : Records names scope stores) (at_ : s.At ⟨source, scope, stores⟩ depth) :
    Recorded source (.error failure, s, names) (.error failure, s)

/-- Whether a step always ends as one that records does. -/
def Follows {α : Type} (source : Source) (journaled : Journaled α) (step : Compiler α) : Prop :=
  ∀ (s : Session) (names : List Bytes) (scope : Scope Ty) (stores : Code),
    Records names scope stores → s.At ⟨source, scope, stores⟩ 0 →
      Recorded source (perform journaled (s, names)) (perform step s)

namespace Follows

variable {α β : Type} {source : Source}

theorem pure (a : α) : Follows source (pure a) (pure a) :=
  fun _ _ _ _ records at_ => .success records at_

theorem bind {journaled : Journaled α} {step : Compiler α} {later : α → Journaled β}
    {next : α → Compiler β} (first : Follows source journaled step)
    (rest : ∀ a, Follows source (later a) (next a)) :
    Follows source (journaled >>= later) (step >>= next) := by
  intro s names scope stores records at_
  have started := first s names scope stores records at_
  rw [perform_bind, perform_bind]
  generalize perform journaled (s, names) = left at started
  generalize perform step s = right at started
  cases started with
  | success records at_ => exact rest _ _ _ _ _ records at_
  | failure reported records at_ => exact .failure reported records at_

/-- A step that assigns nothing. -/
theorem of_bind {good : α → Prop} {step : Compiler α} {later : α → Journaled β}
    {next : α → Compiler β} (keeps : ∀ scope stores, Keeps ⟨source, scope, stores⟩ 0 0 good step)
    (rest : ∀ a, good a → Follows source (later a) (next a)) :
    Follows source (Journaled.of step >>= later) (step >>= next) := by
  intro s names scope stores records at_
  have ended := keeps scope stores s at_
  rw [perform_bind, perform_bind, Journaled.perform_of]
  generalize perform step s = result at ended
  cases ended with
  | success holds at_ => exact rest _ holds _ _ _ _ records at_
  | failure reported at_ => exact .failure reported records at_

theorem of_seq {good : α → Prop} {step : Compiler α} {later : Journaled β} {next : Compiler β}
    (keeps : ∀ scope stores, Keeps ⟨source, scope, stores⟩ 0 0 good step)
    (rest : Follows source later next) :
    Follows source (do let _ ← Journaled.of step; later) (do let _ ← step; next) :=
  of_bind keeps fun _ _ => rest

theorem of {good : α → Prop} {step : Compiler α}
    (keeps : ∀ scope stores, Keeps ⟨source, scope, stores⟩ 0 0 good step) :
    Follows source (Journaled.of step) step := by
  intro s names scope stores records at_
  have ended := keeps scope stores s at_
  rw [Journaled.perform_of]
  generalize perform step s = result at ended
  cases ended with
  | success holds at_ => exact .success records at_
  | failure reported at_ => exact .failure reported records at_

theorem current_bind {later : Token → Journaled β} {next : Token → Compiler β}
    (rest : ∀ token, source.LexemeAt token.position → Follows source (later token) (next token)) :
    Follows source (Journaled.of current >>= later) (current >>= next) :=
  of_bind (fun scope stores => @Keeps.current ⟨source, scope, stores⟩ 0) rest

theorem fail {token : Token} (lexeme : source.LexemeAt token.position) (cause : Diagnostic.Cause) :
    Follows source (Journaled.of (fail token cause : Compiler α)) (Compiler.fail token cause) :=
  of fun _ _ => (Keeps.fail lexeme cause : Keeps _ 0 0 (fun _ => True) _)

end Follows

/-! Assignments. -/

/-- A stage after one more plain assignment: a new name has been declared, and the variable has been
stored to. -/
def Stage.assign (stage : Stage) (name : Bytes) (shape : Shape) : Stage where
  source := stage.source
  scope := (stage.scope.add name (.ofShape shape)).2
  stores := stage.stores ++ (stage.scope.add name (.ofShape shape)).1.store

/-- Whether a plain assignment ends at the next stage, or is refused and stays at its stage. -/
inductive Assigns (stage : Stage) (name : Bytes) : Except Failure Unit × Session → Prop
  | success {s : Session} (shape : Shape) (at_ : s.At (stage.assign name shape) 0) :
    Assigns stage name (.ok (), s)
  | failure {failure : Failure} {s : Session} {depth : Nat}
      (reported : ∀ d, failure = .diagnostic d → d.PointsInto stage.source)
      (at_ : s.At stage depth) : Assigns stage name (.error failure, s)

theorem Assigns.bind {α : Type} {stage : Stage} {name : Bytes} {good : α → Prop} {step : Compiler α}
    {next : α → Compiler Unit} {s : Session} (keeps : Keeps stage 0 0 good step)
    (at_ : s.At stage 0)
    (rest : ∀ a t, good a → t.At stage 0 → Assigns stage name (perform (next a) t)) :
    Assigns stage name (perform (step >>= next) s) := by
  have ended := keeps s at_
  rw [perform_bind]
  generalize perform step s = result at ended
  cases ended with
  | success holds at_ => exact rest _ _ holds at_
  | failure reported at_ => exact .failure reported at_

namespace Session.At

variable {stage : Stage} {s : Session} {v : Variable Ty} (at_ : s.At stage 0)

include at_

/-- The store of a variable is added to the body when nothing is captured. -/
theorem store (known : v ∈ stage.scope.entries) :
    ∃ after, perform (emit v.store) s = (.ok (), after) ∧
      after.At { stage with stores := stage.stores ++ v.store } 0 := by
  obtain ⟨cursor, locals, ⟨platform, label, captures, frame, finished, strings⟩⟩ := s
  obtain ⟨body, opened, kept, addresses⟩ := at_.frame
  obtain rfl : captures = [] := List.length_eq_zero_iff.mp at_.depth
  obtain rfl : frame = some ⟨"main", (wordSize * stage.scope.size : Nat), body⟩ := opened
  refine ⟨_, rfl, { at_ with frame := ⟨_, rfl, ?_, fun line member => ?_⟩ }⟩
  · rw [List.filter_append, kept, v.filter_store]
  · rcases List.mem_append.mp member with old | new
    · exact addresses line old
    · exact (Variable.stores_store known).addresses line new

/-- A declaration enlarges the frame. -/
theorem declare {later : Scope Ty} (extends_ : stage.scope.entries ⊆ later.entries) :
    ∃ after, perform (build (Builder.reserve (wordSize * later.size : Nat)))
        { s with scope := later } = (.ok (), after) ∧ after.At { stage with scope := later } 0 := by
  obtain ⟨cursor, locals, ⟨platform, label, captures, frame, finished, strings⟩⟩ := s
  obtain ⟨body, opened, kept, addresses⟩ := at_.frame
  obtain rfl : frame = some ⟨"main", (wordSize * stage.scope.size : Nat), body⟩ := opened
  refine ⟨_, rfl, at_.cursor, rfl, ⟨body, rfl, kept, fun line member => ?_⟩, at_.depth,
    fun code member => (at_.captures code member).mono extends_, at_.finished⟩
  exact (addresses line member).mono extends_

/-- The end of a plain assignment, after its value. -/
theorem assigned {token valueToken : Token} (lexeme : stage.source.LexemeAt valueToken.position)
    (type : Ty) : Assigns stage token.text
      (perform (do let v ← assigned token valueToken type; emit v.store) s) := by
  rw [perform_bind]
  have located := at_.scope
  have general : type.general = .ofShape type.shape := rfl
  cases found : stage.scope.find? token.text with
  | some v =>
    have next : stage.assign token.text type.shape =
        { stage with stores := stage.stores ++ v.store } := by
      simp only [Stage.assign, Scope.add, found]
    cases fits : v.type.compatible type with
    | false =>
      have failed : perform (Compiler.assigned token valueToken type) s = (.error (.diagnostic
          (s.cursor.diagnostic valueToken (.badAssignment type v.name v.type))), s) := by
        simp only [Compiler.assigned, perform_bind, perform_get, located, found, fits]
        rfl
      rw [failed]
      refine .failure ?_ at_
      rintro _ ⟨⟩
      exact at_.cursor.diagnostic lexeme _
    | true =>
      have done : perform (Compiler.assigned token valueToken type) s = (.ok v, s) := by
        simp only [Compiler.assigned, perform_bind, perform_get, located, found, fits]
        rfl
      obtain ⟨after, stored, later⟩ := at_.store (List.mem_of_find?_eq_some found)
      rw [done]
      dsimp only
      rw [stored]
      exact .success type.shape (next ▸ later)
  | none =>
    obtain ⟨v, later, added, entries⟩ : ∃ v later,
        stage.scope.add token.text (.ofShape type.shape) = (v, later) ∧
          later.entries = stage.scope.entries ++ [v] := by
      simp only [Scope.add, found]
      exact ⟨_, _, rfl, rfl⟩
    have next : stage.assign token.text type.shape =
        { stage with scope := later, stores := stage.stores ++ v.store } := by
      simp only [Stage.assign, added]
    obtain ⟨middle, reserved, open_⟩ := at_.declare (entries ▸ List.subset_append_left ..)
    have done : perform (Compiler.assigned token valueToken type) s = (.ok v, middle) := by
      simp only [Compiler.assigned, perform_bind, perform_get, located, found, general, added,
        perform_set, reserved, perform_pure]
    have known : v ∈ later.entries := entries ▸ List.mem_append_right _ (List.mem_singleton_self _)
    obtain ⟨after, stored, last⟩ := open_.store known
    rw [done]
    dsimp only
    rw [stored]
    exact .success type.shape (next ▸ last)

/-- An assignment to an element keeps the stage, a plain one leads to the next. -/
theorem assignment : if s.cursor.following.is "[" then
      EndsAt stage 0 (fun _ => True) (perform assignment s)
    else Assigns stage s.cursor.current.text (perform Compiler.assignment s) := by
  have lexeme := at_.cursor.current
  have moves := at_.cursor.next
  rw [Compiler.assignment, perform_bind, perform_current]
  dsimp only
  rw [perform_bind, perform_next]
  cases moved : s.cursor.next with
  | error d =>
    rw [moved] at moves
    have reported (e : Diagnostic) (same : Failure.diagnostic d = .diagnostic e) :
        e.PointsInto stage.source := by
      cases same
      exact moves
    split
    · exact .failure reported at_
    · exact .failure reported at_
  | ok cursor =>
    rw [moved] at moves
    have after : Session.At stage 0 { s with cursor } := { at_ with cursor := moves }
    dsimp only
    rw [perform_bind, perform_current]
    dsimp only
    rw [Cursor.current_next moved]
    split
    · exact Steady.elementAssignment lexeme 0 _ after
    · refine Assigns.bind (Keeps.expect _) after fun _ t _ after => ?_
      refine Assigns.bind Keeps.current after fun valueToken t value after => ?_
      refine Assigns.bind (Steady.expression 0) after fun type t _ after => ?_
      exact after.assigned value type

end Session.At

/-- Records go on with a plain assignment: the variable that it stores to has its name, and is new
exactly if the name is. -/
theorem Records.assign {names : List Bytes} {stage : Stage}
    (records : Records names stage.scope stage.stores) (name : Bytes) (shape : Shape) :
    Records (names ++ [name]) (stage.assign name shape).scope (stage.assign name shape).stores := by
  obtain ⟨stored, extends_⟩ := Generator.stores_assignment name shape { scope := stage.scope }
  have known : stage.scope.find? name = none ↔ name ∉ names := by
    rw [← List.mem_eraseDups, ← records.declared, Scope.find?, List.find?_eq_none]
    simp
  refine ⟨?_, records.laidOut.assignment name shape, List.rel_append (records.stores.imp ?_) ?_⟩
  · rw [List.eraseDups_append, ← records.declared]
    cases found : stage.scope.find? name with
    | some v =>
      have old : name ∈ names := by simpa [found] using known
      simp [Stage.assign, Scope.add, found, List.removeAll, old]
    | none =>
      have new := known.mp found
      simp [Stage.assign, Scope.add, found, List.removeAll, new, List.eraseDups_cons]
  · rintro _ line ⟨v, member, rest⟩
    exact ⟨v, extends_ member, rest⟩
  · rw [← Variable.filter_store]
    exact stored.stores

namespace Follows

variable {source : Source}

/-- The result of a step with what is recorded: more if it succeeds. -/
private def journal (names more : List Bytes) :
    Except Failure Unit × Session → Except Failure Unit × Session × List Bytes
  | (.ok a, s) => (.ok a, s, names ++ more)
  | (.error failure, s) => (.error failure, s, names)

private theorem perform_assignment (s : Session) (names : List Bytes) :
    perform Journaled.assignment (s, names) =
      journal names (if s.cursor.following.is "[" then [] else [s.cursor.current.text])
        (perform Compiler.assignment s) := by
  rw [Journaled.assignment, perform_bind, perform_get]
  dsimp only
  rw [perform_bind, Journaled.perform_of]
  rcases perform Compiler.assignment s with ⟨failure | _, after⟩
  · rfl
  · dsimp only
    split
    · rw [journal, List.append_nil, perform_pure]
    · rfl

theorem assignment : Follows source Journaled.assignment assignment := by
  intro s names scope stores records at_
  have ends := at_.assignment
  rw [perform_assignment]
  generalize perform Compiler.assignment s = result at ends
  split at ends
  case isTrue element =>
    rw [if_pos element]
    cases ends with
    | success _ at_ =>
      rw [journal, List.append_nil]
      exact .success records at_
    | failure reported at_ => exact .failure reported records at_
  case isFalse plain =>
    rw [if_neg plain]
    cases ends with
    | success shape at_ =>
      exact .success (@Records.assign _ ⟨source, scope, stores⟩ records _ shape) at_
    | failure reported at_ => exact .failure reported records at_

section

variable {journaled : Journaled Unit} {statement : Compiler Unit}
  (follows : Follows source journaled statement)

include follows

theorem conditional :
    Follows source (Journaled.conditional journaled) (conditional statement) := by
  refine of_seq (fun _ _ => Keeps.next) (of_seq (fun _ _ => Steady.condition 0) ?_)
  refine of_bind (fun _ _ => Keeps.newLabel) fun other _ => ?_
  refine of_seq (fun _ _ => Keeps.frameless rfl) (follows.bind fun _ => ?_)
  refine of_bind (fun _ _ => Keeps.accept _) fun has _ => ?_
  cases has with
  | true =>
    refine of_bind (fun _ _ => Keeps.newLabel) fun finish _ => ?_
    refine of_seq (fun _ _ => Keeps.frameless rfl) (of_seq (fun _ _ => Keeps.frameless rfl) ?_)
    exact follows.bind fun _ => of fun _ _ => Keeps.frameless rfl
  | false => exact of fun _ _ => Keeps.frameless rfl

theorem loop : Follows source (Journaled.loop journaled) (loop statement) := by
  refine of_seq (fun _ _ => Keeps.next) (of_bind (fun _ _ => Keeps.newLabel) fun again _ => ?_)
  refine of_bind (fun _ _ => Keeps.newLabel) fun exit _ => ?_
  refine of_seq (fun _ _ => Keeps.frameless rfl) (of_seq (fun _ _ => Steady.condition 0) ?_)
  refine of_seq (fun _ _ => Keeps.frameless rfl) (follows.bind fun _ => ?_)
  exact of_seq (fun _ _ => Keeps.frameless rfl) (of fun _ _ => Keeps.frameless rfl)

theorem blockBody (fuel : Nat) :
    Follows source (Journaled.blockBody journaled fuel) (blockBody statement fuel) := by
  induction fuel with
  | zero => exact of fun _ _ => Keeps.expect _
  | succ fuel ih =>
    refine current_bind fun token lexeme => ?_
    split
    · exact of fun _ _ => Keeps.next
    split
    · exact fail lexeme _
    · exact follows.bind fun _ => ih

end

theorem statementWithin (fuel : Nat) :
    Follows source (Journaled.statementWithin fuel) (statementWithin fuel) := by
  induction fuel with
  | zero => exact current_bind fun token lexeme => fail lexeme _
  | succ fuel ih =>
    refine current_bind fun token lexeme => ?_
    split
    · exact assignment
    split
    · exact of fun _ _ => Steady.print 0
    split
    · exact conditional ih
    split
    · exact loop ih
    split
    · refine of_seq (fun _ _ => Keeps.next) (of_bind (fun _ _ => Keeps.remaining) fun fuel _ => ?_)
      exact blockBody ih fuel
    · exact fail lexeme _

theorem statements (fuel : Nat) :
    Follows source (Journaled.statements fuel) (statements fuel) := by
  induction fuel with
  | zero => exact pure ()
  | succ fuel ih =>
    refine current_bind fun token _ => ?_
    split
    · exact pure ()
    · have whole : Follows source Journaled.statement statement :=
        of_bind (fun _ _ => Keeps.remaining) fun fuel _ => statementWithin fuel
      exact whole.bind fun _ => ih

end Follows

end Compiler

end Onepass
