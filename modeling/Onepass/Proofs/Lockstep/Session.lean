import Onepass.Compiler
import Onepass.Proofs.Action
import Onepass.Proofs.Generator
import Onepass.Syntax.Parser

/-! What the steps of a compilation and of a parser do to their states. A compilation that reads a
program is always in a session of one form: the function `main` is open, its frame holds the
variables so far, and code goes to the innermost capture or to the body. -/
namespace Onepass

open Assembly (Code)
open Syntax (Cursor)

namespace Compiler

variable {α β : Type}

theorem perform_current (s : Session) : perform current s = (.ok s.cursor.current, s) := rfl

theorem perform_remaining (s : Session) : perform remaining s = (.ok s.cursor.remaining, s) := rfl

theorem perform_fail (token : Token) (cause : Diagnostic.Cause) (s : Session) :
    perform (fail token cause : Compiler α) s =
      (.error (.diagnostic (s.cursor.diagnostic token cause)), s) := rfl

/-- Nothing happens after a failure. -/
theorem fail_bind (token : Token) (cause : Diagnostic.Cause) (next : α → Compiler β) :
    (fail token cause >>= next) = fail token cause := rfl

theorem perform_readTokens (read : Cursor → Except Diagnostic (α × Cursor)) (s : Session) :
    perform (readTokens read) s =
      match read s.cursor with
      | .ok (result, cursor) => (.ok result, { s with cursor })
      | .error d => (.error (.diagnostic d), s) := by
  simp only [readTokens, perform_bind, perform_get]
  rcases read s.cursor with _ | ⟨_, _⟩ <;> rfl

theorem perform_next (s : Session) :
    perform next s =
      match s.cursor.next with
      | .ok cursor => (.ok (), { s with cursor })
      | .error d => (.error (.diagnostic d), s) := by
  simp only [next, perform_readTokens]
  cases s.cursor.next <;> rfl

theorem perform_expect (symbol : Bytes) (s : Session) :
    perform (expect symbol) s =
      match s.cursor.expect symbol with
      | .ok cursor => (.ok (), { s with cursor })
      | .error d => (.error (.diagnostic d), s) := by
  simp only [expect, perform_readTokens]
  cases s.cursor.expect symbol <;> rfl

theorem perform_build (step : Codegen.Build α) (s : Session) :
    perform (build step) s =
      match perform step s.builder with
      | (.ok a, builder) => (.ok a, { s with builder })
      | (.error misuse, builder) => (.error (.misuse misuse), { s with builder }) := by
  simp only [build, perform_bind, perform_get]
  have same : ExceptT.run step s.builder = perform step s.builder := rfl
  rw [same]
  rcases perform step s.builder with ⟨_ | _, _⟩ <;> rfl

/-- Where code goes. -/
structure Buffers where
  /-- Open captures, innermost first. -/
  captures : List Code := []
  /-- The body of the open function. -/
  body : Code := []

namespace Buffers

/-- Adds code to the innermost capture, or to the body. -/
def add (out : Buffers) (code : Code) : Buffers :=
  match out.captures with
  | [] => ⟨[], out.body ++ code⟩
  | inner :: outer => ⟨(inner ++ code) :: outer, out.body⟩

/-- Starts a capture. -/
def capture (out : Buffers) : Buffers := ⟨[] :: out.captures, out.body⟩

theorem add_add (out : Buffers) (first second : Code) :
    (out.add first).add second = out.add (first ++ second) := by
  rcases out with ⟨_ | _, _⟩ <;> simp [add]

theorem add_nil (out : Buffers) : out.add [] = out := by
  rcases out with ⟨_ | _, _⟩ <;> simp [add]

theorem capture_add (out : Buffers) (code : Code) :
    out.capture.add code = ⟨code :: out.captures, out.body⟩ := by
  simp [capture, add]

end Buffers

/-- The builder of a compilation that has generated what `g` says. -/
def builderOf (platform : Platform) (g : Generator) (out : Buffers) : Codegen.Builder where
  platform := platform
  nextLabel := g.nextLabel
  captures := out.captures
  frame := some (g.frame out.body)
  strings := g.strings

/-- The session of a compilation that has generated what `g` says. -/
def Session.of (platform : Platform) (cursor : Cursor) (g : Generator) (out : Buffers) : Session :=
  ⟨cursor, g.scope, builderOf platform g out⟩

section

variable (platform : Platform) (cursor : Cursor) (g : Generator) (out : Buffers)

theorem perform_builder_emit (code : Code) :
    perform (Codegen.Builder.emit code) (builderOf platform g out) =
      (.ok (), builderOf platform g (out.add code)) := by
  rcases out with ⟨_ | _, _⟩ <;> rfl

theorem perform_emit (code : Code) :
    perform (emit code) (Session.of platform cursor g out) =
      (.ok (), Session.of platform cursor g (out.add code)) := by
  simp only [emit, perform_build, Session.of, perform_builder_emit]

theorem perform_newLabel :
    perform (build Codegen.Builder.newLabel) (Session.of platform cursor g out) =
      (.ok g.newLabel.1, Session.of platform cursor g.newLabel.2 out) := rfl

theorem perform_addString (value : Bytes) :
    perform (build (Codegen.Builder.addString value)) (Session.of platform cursor g out) =
      (.ok (g.pool value).1, Session.of platform cursor (g.pool value).2 out) := by
  simp only [perform_build, Codegen.Builder.addString, perform_bind, perform_get, Session.of,
    builderOf, Generator.pool]
  cases g.strings.findIdx? (· = value) <;> rfl

theorem perform_beginCapture :
    perform (build Codegen.Builder.beginCapture) (Session.of platform cursor g out) =
      (.ok (), Session.of platform cursor g out.capture) := rfl

theorem perform_endCapture (code : Code) :
    perform (build Codegen.Builder.endCapture)
        (Session.of platform cursor g (out.capture.add code)) =
      (.ok code, Session.of platform cursor g out) := by
  rw [Buffers.capture_add]
  rfl

theorem perform_allocateElements (element : Ty) (count : Int) :
    perform (build (Codegen.Builder.allocateElements (.arrayOf element) count))
        (Session.of platform cursor g out) =
      (.ok (), Session.of platform cursor g (out.add
        (Codegen.allocate platform (Codegen.wrap (wordSize + count * element.size))))) := by
  have known : (Ty.arrayOf element).element? = some (.ofShape element.shape) := rfl
  simp only [perform_build, Codegen.Builder.allocateElements, Codegen.Builder.emitFor, known,
    Session.of, perform_bind, perform_get, perform_builder_emit]
  rfl

theorem perform_addOffset {container : Ty} {element : Shape}
    (found : container.shape.element? = some element) :
    perform (build (Codegen.Builder.addOffset container)) (Session.of platform cursor g out) =
      (.ok (), Session.of platform cursor g (out.add
        (Codegen.boundsCheck ++ Codegen.scaleIndex element.size ++ Codegen.addIndex))) := by
  have known : container.element? = some (.ofShape element) := by simp [Ty.element?, found]
  simp only [perform_build, Codegen.Builder.addOffset, perform_bind, Session.of,
    perform_builder_emit, known, Buffers.add_add, List.append_assoc]
  rfl

end

end Compiler

namespace Syntax.Parser

variable {α β : Type}

/-- The result of a parser from a state. -/
def reads (parser : Parser α) (s : State) : Except Diagnostic (α × State) := parser.run s

theorem reads_pure (a : α) (s : State) : reads (pure a) s = .ok (a, s) := rfl

theorem reads_bind (parser : Parser α) (next : α → Parser β) (s : State) :
    reads (parser >>= next) s =
      match reads parser s with
      | .ok (a, after) => reads (next a) after
      | .error d => .error d := by
  simp only [reads, StateT.run_bind]
  rcases parser.run s with _ | ⟨_, _⟩ <;> rfl

theorem reads_bind_ok {parser : Parser α} {next : α → Parser β} {s : State} {result : β × State} :
    reads (parser >>= next) s = .ok result ↔
      ∃ a middle, reads parser s = .ok (a, middle) ∧ reads (next a) middle = .ok result := by
  rw [reads_bind]
  constructor
  · intro success
    split at success
    · exact ⟨_, _, ‹_›, success⟩
    · cases success
  · rintro ⟨a, middle, first, second⟩
    rw [first]
    exact second

theorem reads_get (s : State) : reads get s = .ok (s, s) := rfl

theorem reads_set (s after : State) : reads (set after) s = .ok ((), after) := rfl

theorem reads_current (s : State) : reads current s = .ok (s.cursor.current, s) := rfl

theorem reads_remaining (s : State) : reads remaining s = .ok (s.cursor.remaining, s) := rfl

theorem reads_fail (token : Token) (cause : Diagnostic.Cause) (s : State) :
    reads (fail token cause : Parser α) s = .error (s.cursor.diagnostic token cause) := rfl

theorem reads_lift (result : Except Diagnostic α) (s : State) :
    reads (liftM result) s =
      match result with
      | .ok a => .ok (a, s)
      | .error d => .error d := by
  cases result <;> rfl

theorem reads_next (s : State) :
    reads next s =
      match s.cursor.next with
      | .ok cursor => .ok ((), { s with cursor })
      | .error d => .error d := by
  simp only [next, reads_bind, reads_get, reads_lift]
  cases s.cursor.next <;> rfl

theorem reads_expect (symbol : Bytes) (s : State) :
    reads (expect symbol) s =
      match s.cursor.expect symbol with
      | .ok cursor => .ok ((), { s with cursor })
      | .error d => .error d := by
  simp only [expect, reads_bind, reads_get, reads_lift]
  cases s.cursor.expect symbol <;> rfl

theorem reads_elementType (s : State) :
    reads elementType s =
      match s.cursor.shape with
      | .ok (shape, cursor) => .ok (shape, { s with cursor })
      | .error d => .error d := by
  simp only [elementType, reads_bind, reads_get, reads_lift]
  rcases s.cursor.shape with _ | ⟨_, _⟩ <;> rfl

end Syntax.Parser

/-- Parsing reads a program from the first token on. -/
theorem Syntax.parse_eq {source : Source} {cursor : Cursor}
    (start : Cursor.ofSource source = .ok cursor) :
    parse source = (Parser.reads (Parser.program cursor.remaining) ⟨cursor, []⟩).map Prod.fst := by
  simp only [parse, start]
  rfl

end Onepass
