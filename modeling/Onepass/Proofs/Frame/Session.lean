import Onepass.Proofs.Frame.Code
import Onepass.Proofs.Reports.Parser

/-! What a compilation keeps while it reads an expression, whether it succeeds or not: the variables
and the stores to the frame stay the same, code that is added or captured reads variables at most,
and the cursor stays in its source. -/
namespace Onepass

open Assembly (Code Line)
open Codegen (Build Builder)
open Syntax (Cursor)

namespace Compiler

/-- What stays the same while an expression is compiled: the source, the variables, and the lines of
`main` that write to its frame. -/
structure Stage where
  source : Source
  scope : Scope Ty
  stores : Code

/-- Whether a compilation is at a stage, inside of a number of captures. -/
structure Session.At (stage : Stage) (depth : Nat) (s : Session) : Prop where
  cursor : s.cursor.Within stage.source
  scope : s.scope = stage.scope
  frame : ∃ body : Code,
    s.builder.frame = some ⟨"main", (wordSize * stage.scope.size : Nat), body⟩ ∧
      body.filter Line.isFrameStore = stage.stores ∧ ∀ line ∈ body, line.Addresses stage.scope
  depth : s.builder.captures.length = depth
  captures : ∀ code ∈ s.builder.captures, Code.Reads stage.scope code
  finished : s.builder.finished = []

/-- Whether a step ends at a stage: with a good result at some depth, or with a report that points
into the source. -/
inductive EndsAt {α : Type} (stage : Stage) (depth : Nat) (good : α → Prop) :
    Except Failure α × Session → Prop
  | success {a : α} {s : Session} (holds : good a) (at_ : s.At stage depth) :
    EndsAt stage depth good (.ok a, s)
  | failure {failure : Failure} {s : Session} {inside : Nat}
      (reported : ∀ d, failure = .diagnostic d → d.PointsInto stage.source)
      (at_ : s.At stage inside) : EndsAt stage depth good (.error failure, s)

/-- Whether a step keeps the stage, and leads from one depth to another. -/
def Keeps {α : Type} (stage : Stage) (first last : Nat) (good : α → Prop) (step : Compiler α) :
    Prop :=
  ∀ s : Session, s.At stage first → EndsAt stage last good (perform step s)

/-- Whether a step keeps the stage and leaves no capture open. -/
def Steady {α : Type} (stage : Stage) (step : Compiler α) : Prop :=
  ∀ depth, Keeps stage depth depth (fun _ => True) step

theorem build_bind {α β : Type} (step : Build α) (next : α → Build β) :
    build (step >>= next) = build step >>= fun a => build (next a) := by
  funext s
  have same (x y : Compiler β) (all : ∀ s, perform x s = perform y s) : x s = y s := all s
  apply same
  intro s
  rw [perform_build, perform_bind, perform_bind, perform_build]
  rcases perform step s.builder with ⟨misuse | a, builder⟩
  · rfl
  · dsimp only
    rw [perform_build]

namespace Keeps

variable {α β : Type} {stage : Stage} {first middle last depth : Nat} {good : α → Prop}
  {fine : β → Prop}

theorem pure {a : α} (holds : good a) : Keeps stage depth depth good (pure a) :=
  fun _ at_ => .success holds at_

theorem bind {step : Compiler α} {next : α → Compiler β} (start : Keeps stage first middle good step)
    (rest : ∀ a, good a → Keeps stage middle last fine (next a)) :
    Keeps stage first last fine (step >>= next) := by
  intro s at_
  have started := start s at_
  rw [perform_bind]
  generalize perform step s = result at started
  cases started with
  | success holds after => exact rest _ holds _ after
  | failure reported after => exact .failure reported after

theorem seq {step : Compiler α} {next : Compiler β} (start : Keeps stage first middle good step)
    (rest : Keeps stage middle last fine next) :
    Keeps stage first last fine (do let _ ← step; next) :=
  start.bind fun _ _ => rest

theorem get : Keeps stage depth depth (fun _ => True) get := fun _ at_ => .success trivial at_

theorem current :
    Keeps stage depth depth (fun token => stage.source.LexemeAt token.position) current :=
  fun _ at_ => .success at_.cursor.current at_

theorem remaining : Keeps stage depth depth (fun _ => True) remaining :=
  fun _ at_ => .success trivial at_

theorem fail {token : Token} (lexeme : stage.source.LexemeAt token.position)
    (cause : Diagnostic.Cause) : Keeps stage first last good (fail token cause) := by
  intro s at_
  rw [perform_fail]
  refine .failure ?_ at_
  rintro _ ⟨⟩
  exact at_.cursor.diagnostic lexeme cause

/-- A check that fails at a token or lets the rest follow. -/
theorem check {fits : Bool} {token : Token} (lexeme : stage.source.LexemeAt token.position)
    {cause : Diagnostic.Cause} {next : Unit → Compiler α} (rest : Keeps stage first last good (next ())) :
    Keeps stage first last good
      (if fits then next () else Compiler.fail token cause >>= next) := by
  cases fits with
  | true => exact rest
  | false => exact fail lexeme _

theorem readTokens {read : Cursor → Except Diagnostic (α × Cursor)}
    (reads : ∀ c, c.Within stage.source →
      Syntax.Reports stage.source (fun result => result.2.Within stage.source) (read c)) :
    Keeps stage depth depth (fun _ => True) (readTokens read) := by
  intro s at_
  have moved := reads s.cursor at_.cursor
  rw [perform_readTokens]
  cases result : read s.cursor with
  | ok pair =>
    rw [result] at moved
    exact .success trivial { at_ with cursor := moved }
  | error d =>
    rw [result] at moved
    refine .failure ?_ at_
    rintro _ ⟨⟩
    exact moved

theorem next : Keeps stage depth depth (fun _ => True) next :=
  readTokens fun _ within => within.next.bind fun _ after => after

theorem expect (symbol : Bytes) : Keeps stage depth depth (fun _ => True) (expect symbol) :=
  readTokens fun _ within => (within.expect symbol).bind fun _ after => after

theorem shape : Keeps stage depth depth (fun _ => True) (Compiler.readTokens Cursor.shape) :=
  readTokens fun _ within => within.shape

theorem accept (symbol : Bytes) : Keeps stage depth depth (fun _ => True) (accept symbol) := by
  refine current.bind fun token _ => ?_
  split
  · exact next.seq (pure trivial)
  · exact pure trivial

theorem lookup {token : Token} (lexeme : stage.source.LexemeAt token.position) :
    Keeps stage depth depth (fun v => v ∈ stage.scope.entries) (lookup token) := by
  intro s at_
  rw [Compiler.lookup, perform_bind, perform_get]
  dsimp only
  cases found : s.scope.find? token.text with
  | some v =>
    refine .success ?_ at_
    rw [← at_.scope]
    exact List.mem_of_find?_eq_some found
  | none => exact fail lexeme _ s at_

/-! Code generation. -/

theorem throw (misuse : Codegen.Misuse) :
    Keeps stage first last good (build (throw misuse)) := by
  intro s at_
  exact .failure (by rintro _ ⟨⟩) at_

/-- Code that writes no variable may be added. -/
theorem emit {code : Code} (reads : code.Reads stage.scope) :
    Keeps stage depth depth (fun _ => True) (emit code) := by
  intro s at_
  obtain ⟨body, frame, stores, addresses⟩ := at_.frame
  have count := at_.depth
  have quiet := at_.captures
  rw [Compiler.emit, perform_build, Builder.emit, perform_bind, perform_get]
  dsimp only
  cases captured : s.builder.captures with
  | nil =>
    rw [captured] at count quiet
    rw [frame]
    refine .success trivial { at_ with
      frame := ⟨_, rfl, ?_, fun line member => ?_⟩, depth := count, captures := quiet }
    · rw [List.filter_append, reads.filter_eq_nil, List.append_nil, stores]
    · rcases List.mem_append.mp member with old | new
      · exact addresses line old
      · exact (reads line new).2
  | cons inner outer =>
    rw [captured] at count quiet
    refine .success trivial { at_ with depth := count, captures := ?_ }
    intro other member
    rcases List.mem_cons.mp member with rfl | old
    · exact (quiet inner List.mem_cons_self).append reads
    · exact quiet other (List.mem_cons_of_mem _ old)

theorem frameless {code : Code} (free : code.isFrameless = true) :
    Keeps stage depth depth (fun _ => True) (Compiler.emit code) :=
  emit (Code.isFrameless.reads free _)

theorem load {v : Variable Ty} (known : v ∈ stage.scope.entries) :
    Keeps stage depth depth (fun _ => True) (Compiler.emit v.load) :=
  emit (Variable.reads_load known)

theorem newLabel : Keeps stage depth depth (fun _ => True) (build Builder.newLabel) :=
  fun _ at_ => .success trivial { at_ with }

theorem addString (value : Bytes) :
    Keeps stage depth depth (fun _ => True) (build (Builder.addString value)) := by
  intro s at_
  rw [perform_build, Builder.addString, perform_bind, perform_get]
  dsimp only
  cases s.builder.strings.findIdx? (· = value) with
  | some index => exact .success trivial { at_ with }
  | none => exact .success trivial { at_ with }

theorem beginCapture :
    Keeps stage depth (depth + 1) (fun _ => True) (build Builder.beginCapture) := by
  intro s at_
  refine .success trivial { at_ with depth := congrArg Nat.succ at_.depth, captures := ?_ }
  intro code member
  rcases List.mem_cons.mp member with rfl | old
  · exact Code.isFrameless.reads rfl _
  · exact at_.captures code old

theorem endCapture :
    Keeps stage (depth + 1) depth (Code.Reads stage.scope) (build Builder.endCapture) := by
  intro s at_
  rw [perform_build, Builder.endCapture, perform_bind, perform_get]
  dsimp only
  have count := at_.depth
  have quiet := at_.captures
  cases captured : s.builder.captures with
  | nil =>
    rw [captured] at count
    cases count
  | cons inner outer =>
    rw [captured] at count quiet
    exact .success (quiet inner List.mem_cons_self) { at_ with
      depth := Nat.succ.inj count
      captures := fun code member => quiet code (List.mem_cons_of_mem _ member) }

theorem allocateElements (type : Ty) (count : Int) :
    Keeps stage depth depth (fun _ => True) (build (Builder.allocateElements type count)) := by
  rw [Builder.allocateElements]
  cases type.element? with
  | none => exact throw _
  | some element =>
    dsimp only [Builder.emitFor]
    rw [build_bind]
    have read : Keeps stage depth depth (fun _ => True) (build MonadState.get) :=
      fun _ at_ => .success trivial at_
    exact read.bind fun builder _ => frameless (Codegen.isFrameless_allocate _)

theorem addOffset (type : Ty) :
    Keeps stage depth depth (fun _ => True) (build (Builder.addOffset type)) := by
  rw [Builder.addOffset, build_bind]
  refine bind (frameless rfl) fun _ _ => ?_
  cases type.element? with
  | none => exact throw _
  | some element =>
    dsimp only
    rw [build_bind]
    exact bind (frameless (Codegen.isFrameless_scaleIndex _)) fun _ _ => frameless rfl

end Keeps

/-! Expressions. -/

namespace Steady

variable {stage : Stage} {depth : Nat}

section

variable {expression : Compiler Ty} (steady : Steady stage expression)

include steady

theorem index (container : Ty) : Steady stage (index expression container) := by
  intro depth
  refine (Keeps.expect _).seq ((Keeps.frameless rfl).seq (Keeps.current.bind fun token lexeme => ?_))
  refine (steady depth).bind fun type _ => Keeps.check lexeme ?_
  exact (Keeps.expect _).seq ((Keeps.frameless rfl).seq (Keeps.addOffset _))

theorem selections (name : Bytes) (fuel : Nat) (type : Ty) :
    Steady stage (selections expression name fuel type) := by
  intro depth
  induction fuel generalizing type with
  | zero => exact Keeps.pure trivial
  | succ fuel ih =>
    refine Keeps.current.bind fun token lexeme => ?_
    split
    · split
      · exact Keeps.fail lexeme _
      · refine (index steady _ depth).seq ?_
        exact (Keeps.frameless (Codegen.isFrameless_loadAt _ _)).seq (ih _)
    · exact Keeps.pure trivial

theorem selected : Steady stage (selected expression) := by
  intro depth
  refine Keeps.current.bind fun token lexeme => (Keeps.lookup lexeme).bind fun v known => ?_
  refine Keeps.next.seq ((Keeps.load known).seq (Keeps.remaining.bind fun fuel _ => ?_))
  exact selections steady _ fuel _ depth

omit steady in
theorem storeElement (element : Ty) (position : Nat) :
    Steady stage (storeElement element position) :=
  fun _ => (Keeps.frameless rfl).seq (Keeps.frameless (Codegen.isFrameless_storeAt _ _))

theorem elements (element : Ty) (fuel position : Nat) :
    Steady stage (elements expression element fuel position) := by
  intro depth
  induction fuel generalizing position with
  | zero => exact (Keeps.expect _).seq (Keeps.pure trivial)
  | succ fuel ih =>
    refine (Keeps.accept _).bind fun closes _ => ?_
    split
    · exact Keeps.pure trivial
    refine (Keeps.expect _).seq ((Keeps.accept _).bind fun closes _ => ?_)
    split
    · exact Keeps.pure trivial
    refine Keeps.current.bind fun token lexeme => (steady depth).bind fun type _ => ?_
    exact Keeps.check lexeme ((storeElement element position depth).seq (ih (position + 1)))

/-- The code of the elements is captured and then placed. -/
theorem array : Steady stage (array expression) := by
  intro depth
  refine (Keeps.accept _).bind fun closes _ => ?_
  split
  · refine Keeps.shape.bind fun element _ => (Keeps.allocateElements _ _).seq ?_
    exact (Keeps.frameless rfl).seq (Keeps.pure trivial)
  · refine Keeps.beginCapture.seq ((steady (depth + 1)).bind fun first _ => ?_)
    refine (storeElement _ _ (depth + 1)).seq (Keeps.remaining.bind fun fuel _ => ?_)
    refine (elements steady _ fuel _ (depth + 1)).bind fun count _ => ?_
    refine Keeps.endCapture.bind fun stores reads => (Keeps.allocateElements _ _).seq ?_
    refine (Keeps.frameless rfl).seq ((Keeps.frameless rfl).seq ((Keeps.emit reads).seq ?_))
    exact (Keeps.frameless rfl).seq (Keeps.pure trivial)

theorem unary : Steady stage (unary expression) := by
  intro depth
  refine Keeps.current.bind fun token lexeme => ?_
  split
  · exact selected steady depth
  · exact (Keeps.frameless rfl).seq (Keeps.next.seq (Keeps.pure trivial))
  · exact (Keeps.frameless rfl).seq (Keeps.next.seq (Keeps.pure trivial))
  · refine (Keeps.addString _).bind fun label _ => ?_
    exact (Keeps.frameless rfl).seq (Keeps.next.seq (Keeps.pure trivial))
  · split
    · refine Keeps.next.seq ((steady depth).bind fun type _ => ?_)
      exact (Keeps.expect _).seq (Keeps.pure trivial)
    split
    · exact Keeps.next.seq (array steady depth)
    · exact Keeps.fail lexeme _

theorem factor : Steady stage (factor expression) := by
  intro depth
  refine Keeps.current.bind fun token lexeme => ?_
  split
  · refine Keeps.next.seq ((unary steady depth).bind fun type _ => ?_)
    split
    · rename_i supported
      exact (Keeps.frameless (Codegen.isFrameless_operation? supported)).seq (Keeps.pure trivial)
    · exact Keeps.fail lexeme _
  · exact unary steady depth

omit steady in
theorem operate {token : Token} (lexeme : stage.source.LexemeAt token.position) (operator : Operator)
    (left right : Ty) : Steady stage (operate token operator left right) := by
  intro depth
  unfold Compiler.operate
  split
  · exact Keeps.fail lexeme _
  · split
    · exact Keeps.fail lexeme _
    · rename_i supported
      exact (Keeps.frameless (Codegen.isFrameless_operation? supported)).seq (Keeps.pure trivial)

/-- Here the parameter compiles an operand. -/
theorem chain (level : Operator.Level) (fuel : Nat) (left : Ty) :
    Steady stage (chain level expression fuel left) := by
  intro depth
  induction fuel generalizing left with
  | zero => exact Keeps.pure trivial
  | succ fuel ih =>
    refine Keeps.current.bind fun token lexeme => ?_
    split
    · exact Keeps.pure trivial
    · refine (Keeps.frameless (Codegen.isFrameless_push _)).seq (Keeps.next.seq ?_)
      refine (steady depth).bind fun right _ => ?_
      exact (operate lexeme _ _ _ depth).bind fun type _ => ih type

theorem binary (level : Operator.Level) : Steady stage (binary level expression) := by
  intro depth
  refine (steady depth).bind fun first _ => Keeps.remaining.bind fun fuel _ => ?_
  exact chain steady level fuel first depth

end

theorem expressionWithin (fuel : Nat) : Steady stage (expressionWithin fuel) := by
  induction fuel with
  | zero => exact fun _ => Keeps.current.bind fun token lexeme => Keeps.fail lexeme _
  | succ fuel ih => exact binary (binary (binary (factor ih) _) _) _

theorem expression : Steady stage expression :=
  fun depth => Keeps.remaining.bind fun fuel _ => expressionWithin fuel depth

/-! Statements that assign no variable. -/

theorem elementTarget (fuel : Nat) (element : Shape) : Steady stage (elementTarget fuel element) := by
  intro depth
  induction fuel generalizing element with
  | zero => exact (index expression _ depth).seq (Keeps.pure trivial)
  | succ fuel ih =>
    refine (index expression _ depth).seq (Keeps.current.bind fun token lexeme => ?_)
    split
    · split
      · exact (Keeps.frameless (Codegen.isFrameless_loadAt _ _)).seq (ih _)
      · exact Keeps.fail lexeme _
    · exact Keeps.pure trivial

theorem elementAssignment {token : Token} (lexeme : stage.source.LexemeAt token.position) :
    Steady stage (elementAssignment token) := by
  intro depth
  refine (Keeps.lookup lexeme).bind fun v known => ?_
  split
  · refine (Keeps.load known).seq (Keeps.remaining.bind fun fuel _ => ?_)
    refine (elementTarget _ _ depth).bind fun element _ => (Keeps.frameless rfl).seq ?_
    refine (Keeps.expect _).seq (Keeps.current.bind fun valueToken value => ?_)
    refine (expression depth).bind fun type _ => Keeps.check value ?_
    exact (Keeps.frameless rfl).seq (Keeps.frameless (Codegen.isFrameless_storeAt _ _))
  · exact Keeps.fail lexeme _

theorem print : Steady stage print := by
  intro depth
  refine Keeps.next.seq (Keeps.current.bind fun token lexeme => ?_)
  refine (expression depth).bind fun type _ => Keeps.get.bind fun s _ => ?_
  split
  · rename_i printable
    exact Keeps.frameless (Codegen.isFrameless_print? printable)
  · exact Keeps.fail lexeme _

theorem condition : Steady stage condition := by
  intro depth
  refine Keeps.current.bind fun token lexeme => (expression depth).bind fun type _ => ?_
  split
  · exact Keeps.fail lexeme _
  · exact Keeps.pure trivial

end Steady

end Compiler

end Onepass
