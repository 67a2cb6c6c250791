import Onepass.Proofs.Lockstep.Session

/-! The compiler and the parser read a program in step. From states that stand for the same tokens
and the same variables, they move to such states again: the compiler has then added the code that
the generator gives for the tree that the parser has built, and the tree is well typed. If the
compiler stops earlier, then either both report one diagnostic, or the compiler reports a fault of
types and the tree that the parser may still build is not well typed. -/
namespace Onepass

open Assembly (Code)
open Syntax (Context Cursor Expr HasType Parser Stmt Typed)
open Syntax.Parser (State reads reads_bind reads_pure reads_current reads_remaining reads_next
  reads_expect reads_fail)

/-- Whether a diagnostic is about types. -/
def Diagnostic.IsTypeFault (d : Diagnostic) : Prop := d.kind = .type ∨ d.kind = .unsupported

/-- The state of a parser that has read what `g` was generated from. -/
def Syntax.Parser.State.of (cursor : Cursor) (g : Generator) : State :=
  ⟨cursor, (g.scope.entries.map (·.name)).reverse⟩

namespace Compiler

variable {α β γ δ : Type} {platform : Platform}

/-- How the results of a compilation and a parser belong together: `good` tells what holds when
both succeed, `bad` what is wrong with a result of the parser when the compiler found a fault of
types. -/
inductive Joint (platform : Platform) (bad : β → Prop)
    (good : α → β → Cursor → Generator → Buffers → Prop) :
    Except Failure α × Session → Except Diagnostic (β × State) → Prop where
  | both {a : α} {b : β} (cursor : Cursor) (g : Generator) (out : Buffers)
      (holds : good a b cursor g out) :
      Joint platform bad good (.ok a, .of platform cursor g out) (.ok (b, .of cursor g))
  | same {d : Diagnostic} {s : Session} :
      Joint platform bad good (.error (.diagnostic d), s) (.error d)
  | rejected {d : Diagnostic} {s : Session} {result : Except Diagnostic (β × State)}
      (fault : d.IsTypeFault) (ill : ∀ b after, result = .ok (b, after) → bad b) :
      Joint platform bad good (.error (.diagnostic d), s) result

/-- A compilation and a parser from states that belong together. -/
def Joined (platform : Platform) (bad : β → Prop)
    (good : α → β → Cursor → Generator → Buffers → Prop) (step : Compiler α) (parser : Parser β)
    (cursor : Cursor) (g : Generator) (out : Buffers) : Prop :=
  Joint platform bad good (perform step (.of platform cursor g out))
    (reads parser (.of cursor g))

namespace Joined

variable {bad : β → Prop} {good : α → β → Cursor → Generator → Buffers → Prop}
  {cursor : Cursor} {g : Generator} {out : Buffers}

theorem pure {a : α} {b : β} (holds : good a b cursor g out) :
    Joined platform bad good (pure a) (pure b) cursor g out := .both _ _ _ holds

theorem bind {bad' : δ → Prop} {good' : γ → δ → Cursor → Generator → Buffers → Prop}
    {step : Compiler α} {parser : Parser β} {next : α → Compiler γ} {continuation : β → Parser δ}
    (first : Joined platform bad good step parser cursor g out)
    (rest : ∀ a b cursor g out, good a b cursor g out →
      Joined platform bad' good' (next a) (continuation b) cursor g out)
    (keeps : ∀ b, bad b → ∀ s result after,
      reads (continuation b) s = .ok (result, after) → bad' result) :
    Joined platform bad' good' (step >>= next) (parser >>= continuation) cursor g out := by
  unfold Joined at first ⊢
  rw [perform_bind, reads_bind]
  generalize perform step _ = compiled at first
  generalize reads parser _ = parsed at first
  cases first with
  | both _ _ _ holds => exact rest _ _ _ _ _ holds
  | same => exact .same
  | rejected fault ill =>
    refine .rejected fault ?_
    intro result after success
    split at success
    · exact keeps _ (ill _ _ rfl) _ _ _ success
    · cases success

theorem weaken {bad' : β → Prop} {good' : α → β → Cursor → Generator → Buffers → Prop}
    {step : Compiler α} {parser : Parser β}
    (joined : Joined platform bad good step parser cursor g out)
    (holds : ∀ a b cursor g out, good a b cursor g out → good' a b cursor g out)
    (keeps : ∀ b, bad b → bad' b) : Joined platform bad' good' step parser cursor g out := by
  unfold Joined at joined ⊢
  generalize perform step _ = compiled at joined ⊢
  generalize reads parser _ = parsed at joined ⊢
  cases joined with
  | both _ _ _ good => exact .both _ _ _ (holds _ _ _ _ _ good)
  | same => exact .same
  | rejected fault ill => exact .rejected fault fun b after success => keeps b (ill b after success)

/-- A step of the compiler alone. -/
theorem compile {step : Compiler α} {next : α → Compiler γ} {parser : Parser δ} {a : α}
    {g' : Generator} {out' : Buffers} {bad : δ → Prop}
    {good : γ → δ → Cursor → Generator → Buffers → Prop}
    (done : perform step (.of platform cursor g out) = (.ok a, .of platform cursor g' out'))
    (scope : g'.scope = g.scope)
    (rest : Joined platform bad good (next a) parser cursor g' out') :
    Joined platform bad good (step >>= next) parser cursor g out := by
  unfold Joined at rest ⊢
  rw [perform_bind, done]
  simpa only [State.of, scope] using rest

theorem emit {code : Code} {next : Unit → Compiler α} {parser : Parser β}
    (rest : Joined platform bad good (next ()) parser cursor g (out.add code)) :
    Joined platform bad good (emit code >>= next) parser cursor g out :=
  compile (perform_emit platform cursor g out code) rfl rest

theorem emitLast {good : Unit → β → Cursor → Generator → Buffers → Prop} {code : Code} {b : β}
    (holds : good () b cursor g (out.add code)) :
    Joined platform bad good (Compiler.emit code) (Pure.pure b) cursor g out := by
  unfold Joined
  rw [perform_emit, reads_pure]
  exact .both _ _ _ holds

theorem current {next : Token → Compiler α} {parser : Parser β}
    (rest : Joined platform bad good (next cursor.current) parser cursor g out) :
    Joined platform bad good (current >>= next) parser cursor g out :=
  compile (perform_current _) rfl rest

theorem remaining {next : Nat → Compiler α} {parser : Parser β}
    (rest : Joined platform bad good (next cursor.remaining) parser cursor g out) :
    Joined platform bad good (remaining >>= next) parser cursor g out :=
  compile (perform_remaining _) rfl rest

/-- Looking at the current token is a step of the parser alone. -/
theorem parserCurrent {step : Compiler α} {continuation : Token → Parser β}
    (rest : Joined platform bad good step (continuation cursor.current) cursor g out) :
    Joined platform bad good step (Syntax.Parser.current >>= continuation) cursor g out := by
  unfold Joined at rest ⊢
  rw [reads_bind, reads_current]
  exact rest

theorem parserRemaining {step : Compiler α} {continuation : Nat → Parser β}
    (rest : Joined platform bad good step (continuation cursor.remaining) cursor g out) :
    Joined platform bad good step (Syntax.Parser.remaining >>= continuation) cursor g out := by
  unfold Joined at rest ⊢
  rw [reads_bind, reads_remaining]
  exact rest

/-- Both move to the next token. -/
theorem next {step : Unit → Compiler α} {continuation : Unit → Parser β}
    (rest : ∀ cursor, Joined platform bad good (step ()) (continuation ()) cursor g out) :
    Joined platform bad good (next >>= step) (Syntax.Parser.next >>= continuation)
      cursor g out := by
  have moved : Joined platform (fun _ => False) (fun _ _ _ g' out' => g' = g ∧ out' = out)
      Compiler.next Syntax.Parser.next cursor g out := by
    unfold Joined
    rw [perform_next, reads_next]
    simp only [State.of, Session.of]
    cases cursor.next with
    | ok after => exact .both after g out ⟨rfl, rfl⟩
    | error d => exact .same
  refine moved.bind ?_ ?_
  · rintro _ _ cursor _ _ ⟨rfl, rfl⟩
    exact rest cursor
  · intro _ impossible
    cases impossible

/-- Both pass over a symbol. -/
theorem expect {symbol : Bytes} {step : Unit → Compiler α} {continuation : Unit → Parser β}
    (rest : ∀ cursor, Joined platform bad good (step ()) (continuation ()) cursor g out) :
    Joined platform bad good (expect symbol >>= step) (Syntax.Parser.expect symbol >>= continuation)
      cursor g out := by
  have moved : Joined platform (fun _ => False) (fun _ _ _ g' out' => g' = g ∧ out' = out)
      (Compiler.expect symbol) (Syntax.Parser.expect symbol) cursor g out := by
    unfold Joined
    rw [perform_expect, reads_expect]
    simp only [State.of, Session.of]
    cases cursor.expect symbol with
    | ok after => exact .both after g out ⟨rfl, rfl⟩
    | error d => exact .same
  refine moved.bind ?_ ?_
  · rintro _ _ cursor _ _ ⟨rfl, rfl⟩
    exact rest cursor
  · intro _ impossible
    cases impossible

theorem nextLast {good : Unit → β → Cursor → Generator → Buffers → Prop} {b : β}
    (holds : ∀ cursor, good () b cursor g out) :
    Joined platform bad good Compiler.next (Syntax.Parser.next >>= fun _ => Pure.pure b)
      cursor g out := by
  rw [← bind_pure Compiler.next]
  exact .next fun cursor => .pure (holds cursor)

theorem expectLast {good : Unit → β → Cursor → Generator → Buffers → Prop} {b : β}
    {symbol : Bytes} (holds : ∀ cursor, good () b cursor g out) :
    Joined platform bad good (Compiler.expect symbol)
      (Syntax.Parser.expect symbol >>= fun _ => Pure.pure b) cursor g out := by
  rw [← bind_pure (Compiler.expect symbol)]
  exact .expect fun cursor => .pure (holds cursor)

/-- The compiler passes over a symbol that stands here, the parser moves on. -/
theorem expectNext {symbol : Bytes} {step : Unit → Compiler α} {continuation : Unit → Parser β}
    (here : cursor.current.is symbol = true)
    (rest : ∀ cursor, Joined platform bad good (step ()) (continuation ()) cursor g out) :
    Joined platform bad good (Compiler.expect symbol >>= step)
      (Syntax.Parser.next >>= continuation) cursor g out := by
  have same : cursor.expect symbol = cursor.next := by simp [Cursor.expect, here]
  have moved : Joined platform bad good (Compiler.next >>= step)
      (Syntax.Parser.next >>= continuation) cursor g out := .next rest
  unfold Joined at moved ⊢
  rw [perform_bind, perform_next] at moved
  rw [perform_bind, perform_expect]
  simp only [Session.of, same] at moved ⊢
  exact moved

theorem acceptHere {symbol : Bytes} {step : Bool → Compiler α} {parser : Parser β}
    (here : cursor.current.is symbol = true)
    (rest : Joined platform bad good (Compiler.next >>= fun _ => step true) parser cursor g out) :
    Joined platform bad good (accept symbol >>= step) parser cursor g out := by
  unfold accept
  simp only [bind_assoc]
  refine .current ?_
  simpa only [here, if_true, bind_assoc, pure_bind] using rest

theorem acceptElsewhere {symbol : Bytes} {step : Bool → Compiler α} {parser : Parser β}
    (elsewhere : ¬ cursor.current.is symbol = true)
    (rest : Joined platform bad good (step false) parser cursor g out) :
    Joined platform bad good (accept symbol >>= step) parser cursor g out := by
  unfold accept
  simp only [bind_assoc]
  refine .current ?_
  simpa only [elsewhere, Bool.false_eq_true, if_false, pure_bind] using rest

/-- The parser builds something from its result. -/
theorem mapParser {step : Compiler α} {parser : Parser β} {build : β → δ} {bad' : δ → Prop}
    {good' : α → δ → Cursor → Generator → Buffers → Prop}
    (first : Joined platform bad good step parser cursor g out)
    (holds : ∀ a b cursor g out, good a b cursor g out → good' a (build b) cursor g out)
    (keeps : ∀ b, bad b → bad' (build b)) :
    Joined platform bad' good' step (parser >>= fun b => Pure.pure (build b)) cursor g out := by
  have whole : Joined platform bad' good' (step >>= Pure.pure)
      (parser >>= fun b => Pure.pure (build b)) cursor g out := first.bind
    (fun a b cursor g out good => .pure (holds a b cursor g out good))
    (fun b ill s result after success => by
      obtain ⟨rfl, _⟩ : build b = result ∧ s = after := by simpa [reads_pure] using success
      exact keeps b ill)
  simpa only [bind_pure] using whole

/-- Both fail for the same reason. -/
theorem fail {token : Token} {cause : Diagnostic.Cause} :
    Joined platform bad good (fail token cause) (Syntax.Parser.fail token cause) cursor g out :=
  .same

/-- The compiler finds a fault of types in what is read from here on. -/
theorem rejectHere {token : Token} {cause : Diagnostic.Cause} {parser : Parser β}
    (kind : cause.kind = .type ∨ cause.kind = .unsupported)
    (ill : ∀ result after, reads parser (.of cursor g) = .ok (result, after) → bad result) :
    Joined platform bad good (Compiler.fail token cause) parser cursor g out :=
  .rejected kind ill

/-- The compiler finds a fault of types in what has been read. -/
theorem reject {token : Token} {cause : Diagnostic.Cause} {parser : Parser β}
    (kind : cause.kind = .type ∨ cause.kind = .unsupported)
    (ill : ∀ s result after, reads parser s = .ok (result, after) → bad result) :
    Joined platform bad good (Compiler.fail token cause) parser cursor g out :=
  rejectHere kind (ill _)

end Joined

end Compiler

end Onepass
