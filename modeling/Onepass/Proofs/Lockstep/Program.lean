import Onepass.Proofs.Lockstep.Statements

/-! Whole programs. Compiling a source and parsing it give results that belong together: the
compiler accepts exactly the sources that have a well typed tree, and leaves behind what the
generator makes of that tree. -/
namespace Onepass

open Assembly (Code)
open Syntax (Context Cursor Expr HasType Parser Stmt Typed WellTyped parse)
open Syntax.Parser (State reads)

namespace Compiler

/-- What a compilation leaves behind that has generated what `g` says as the body of `main`. -/
def Outcome.of (platform : Platform) (code : Code) (g : Generator) : Outcome where
  result := .ok ()
  scope := g.scope
  builder := g.builder platform code

/-- How compiling and parsing one source end. -/
inductive Verdict (source : Source) (platform : Platform) : Prop where
  | accepted (tree : List Stmt) (parsed : parse source = .ok tree)
      (typed : WellTyped tree (Generator.program platform tree).2.context)
      (outcome : run source platform = .of platform (Generator.program platform tree).1
        (Generator.program platform tree).2)
  | refused (d : Diagnostic) (parsed : parse source = .error d)
      (failed : (run source platform).result = .error (.diagnostic d))
  | illTyped (d : Diagnostic) (fault : d.IsTypeFault)
      (failed : (run source platform).result = .error (.diagnostic d))
      (wrong : ∀ tree, parse source = .ok tree → ∀ locals, ¬ WellTyped tree locals)

/-- A compilation reads the statements into the open frame of `main` and then closes it. -/
theorem run_eq {source : Source} {cursor : Cursor} (platform : Platform)
    (start : Cursor.ofSource source = .ok cursor) :
    run source platform =
      match perform (statements cursor.remaining) (.of platform cursor {} {}) with
      | (.ok _, s) =>
        ⟨.ok (), s.scope, (perform Codegen.Builder.endFunction s.builder).2⟩
      | (.error failure, s) => ⟨.error failure, s.scope, s.builder⟩ := by
  have whole : run source platform =
      ⟨(perform program ⟨cursor, {}, { platform }⟩).1,
        (perform program ⟨cursor, {}, { platform }⟩).2.scope,
        (perform program ⟨cursor, {}, { platform }⟩).2.builder⟩ := by
    simp only [run, start]
    rfl
  rw [whole]
  have opened : perform program ⟨cursor, {}, { platform }⟩ =
      perform (do statements cursor.remaining; build Codegen.Builder.endFunction)
        (.of platform cursor {} {}) := rfl
  rw [opened, perform_bind]
  rcases perform (statements cursor.remaining) (.of platform cursor {} {}) with ⟨_ | _, _⟩
  · rfl
  · rfl

/-- Compiling and parsing a source end in one of three ways. -/
theorem verdict (source : Source) (platform : Platform) : Verdict source platform := by
  cases start : Cursor.ofSource source with
  | error d =>
    refine .refused d ?_ ?_
    · simp only [parse, start]
      rfl
    · simp only [run, start]
  | ok cursor =>
    have joined := statements_joined platform cursor.remaining cursor {} {}
      (by intro entry member; cases member)
    have parsed := Syntax.parse_eq start
    have outcome := run_eq platform start
    unfold Joined at joined
    change Joint _ _ _ _ (reads _ ⟨cursor, []⟩) at joined
    generalize perform (statements _) _ = compiled at joined outcome
    generalize reads _ _ = result at joined parsed
    cases joined with
    | @both _ tree cursor g out holds =>
      obtain ⟨typed, rfl, rfl, _⟩ := holds
      exact .accepted tree parsed typed outcome
    | same => exact .refused _ parsed (by rw [outcome])
    | rejected fault ill =>
      refine .illTyped _ fault (by rw [outcome]) fun tree success => ?_
      rw [parsed] at success
      rcases result with _ | ⟨_, after⟩
      · cases success
      · cases success
        exact ill _ after rfl

/-- What is behind the text of a program: its tree, which is well typed, and the code generated from
it. -/
theorem accepted_of_compile {source : Source} {platform : Platform} {text : Bytes}
    (compiled : compile source platform = .ok text) :
    ∃ tree, parse source = .ok tree ∧
      WellTyped tree (Generator.program platform tree).2.context ∧
      run source platform = .of platform (Generator.program platform tree).1
        (Generator.program platform tree).2 ∧
      text = Codegen.Builder.text ((Generator.program platform tree).2.builder platform
        (Generator.program platform tree).1) := by
  cases verdict source platform with
  | accepted tree parsed typed outcome =>
    rw [compile, outcome] at compiled
    cases compiled
    exact ⟨tree, parsed, typed, outcome, rfl⟩
  | refused _ _ failed | illTyped _ _ failed _ =>
    simp only [compile, failed] at compiled
    cases compiled

private theorem program_laidOut (platform : Platform) (tree : List Stmt) :
    (Generator.program platform tree).2.LaidOut :=
  Generator.LaidOut.statements (g := {}) rfl platform tree

/-- The compiler decides the typing rules. It accepts a source exactly when the source has a tree
that is well typed. The variables are then the assigned names in the order of their first
assignments, in consecutive slots and with the types that the rules give. A tree that is not well
typed is refused with a fault of types. -/
theorem run_decides_typing (source : Source) (platform : Platform) :
    ((run source platform).result = .ok () ↔
      ∃ tree locals, parse source = .ok tree ∧ WellTyped tree locals) ∧
    (∀ tree locals, parse source = .ok tree → WellTyped tree locals →
      (run source platform).scope = Generator.slots locals ∧
        locals.map Prod.fst = (Stmt.allAssignments tree).eraseDups) ∧
    ∀ tree, parse source = .ok tree → (¬ ∃ locals, WellTyped tree locals) →
      ∃ d, (run source platform).result = .error (.diagnostic d) ∧ d.IsTypeFault := by
  cases verdict source platform with
  | accepted tree parsed typed outcome =>
    refine ⟨⟨fun _ => ⟨tree, _, parsed, typed⟩, fun _ => by rw [outcome]; rfl⟩, ?_, ?_⟩
    · intro other locals read others
      rw [parsed, Except.ok.injEq] at read
      subst read
      obtain rfl := typed.unique others
      refine ⟨?_, ?_⟩
      · rw [outcome]
        exact program_laidOut platform tree
      · simpa [Stmt.assignments] using typed.names
    · intro other read wrong
      rw [parsed, Except.ok.injEq] at read
      subst read
      exact absurd ⟨_, typed⟩ wrong
  | refused d parsed failed =>
    simp [parsed, failed]
  | illTyped d fault failed wrong =>
    refine ⟨⟨?_, ?_⟩, ?_, fun _ _ _ => ⟨d, failed, fault⟩⟩
    · intro success
      rw [failed] at success
      cases success
    · rintro ⟨tree, locals, parsed, typed⟩
      exact absurd typed (wrong tree parsed locals)
    · intro tree locals parsed typed
      exact absurd typed (wrong tree parsed locals)

theorem eq_ok_of_isOk {result : Except Failure Unit} (fine : result.isOk = true) :
    result = .ok () := by
  cases result with
  | ok _ => rfl
  | error _ => cases fine

/-- A program that first assigns `b` in a branch. -/
private def branching : Source :=
  ⟨[], "a = [[1, 2], [] int] if a[0][1] > 1 \x7b b = \"x\" \x7d b = \"y\" a[1] = a[0]"⟩

/-- A program that compares a number with a character. -/
private def mixing : Source := ⟨[], "c = 'a' print 1 < c"⟩

theorem run_decides_typing_samples :
    (∃ tree locals, parse branching = .ok tree ∧ WellTyped tree locals ∧
      (run branching .linux).scope = Generator.slots locals ∧
      locals.map Prod.fst = (Stmt.allAssignments tree).eraseDups) ∧
    ∃ d, (run mixing .linux).result = .error (.diagnostic d) ∧ d.IsTypeFault := by
  refine ⟨?_, ?_⟩
  · have decides := run_decides_typing branching .linux
    obtain ⟨tree, locals, parsed, typed⟩ :=
      decides.1.mp (eq_ok_of_isOk (by decide +kernel))
    exact ⟨tree, locals, parsed, typed, decides.2.1 tree locals parsed typed⟩
  · have decides := run_decides_typing mixing .linux
    have failed : (run mixing .linux).result.isOk = false := by decide +kernel
    have read : (parse mixing).isOk = true := by decide +kernel
    match parsed : parse mixing with
    | .ok tree =>
      refine decides.2.2 tree parsed fun ⟨locals, typed⟩ => ?_
      rw [decides.1.mpr ⟨tree, locals, parsed, typed⟩] at failed
      cases failed
    | .error _ =>
      rw [parsed] at read
      cases read

/-- The code of `main`, the pool of strings, the labels, the slots and the frame that a compilation
leaves behind are those that the generator makes of the tree. -/
theorem run_eq_generated (source : Source) (platform : Platform)
    (accepted : (run source platform).result = .ok ()) :
    ∃ tree, parse source = .ok tree ∧
      run source platform =
        .of platform (Generator.program platform tree).1 (Generator.program platform tree).2 := by
  cases verdict source platform with
  | accepted tree parsed _ outcome => exact ⟨tree, parsed, outcome⟩
  | refused _ _ failed | illTyped _ _ failed _ =>
    rw [failed] at accepted
    cases accepted

/-- A program with nested array literals, whose code is captured at two depths. -/
private def nesting : Source :=
  ⟨[], "a = [[\"x\", \"y\"], [\"x\"]] while 0 print a[0][1]"⟩

theorem run_eq_generated_nesting :
    (run nesting .darwin).result = .ok () ∧
      ∃ tree, parse nesting = .ok tree ∧
        run nesting .darwin =
          .of .darwin (Generator.program .darwin tree).1 (Generator.program .darwin tree).2 :=
  ⟨eq_ok_of_isOk (by decide +kernel), run_eq_generated _ _ (eq_ok_of_isOk (by decide +kernel))⟩

/-- The compiler and the parser report the same faults. A lexical fault, a fault of the grammar or an
unknown name that the compiler reports is what the parser reports. Where the parser fails, the
compiler fails too: with the same diagnostic, unless a fault of types came first. -/
theorem run_reports_parse_faults (source : Source) (platform : Platform) :
    (∀ d, (run source platform).result = .error (.diagnostic d) →
      d.kind = .lexical ∨ d.kind = .grammar ∨ d.kind = .unknownName → parse source = .error d) ∧
    ∀ d, parse source = .error d →
      ∃ found, (run source platform).result = .error (.diagnostic found) ∧
        (found = d ∨ found.IsTypeFault) := by
  cases verdict source platform with
  | accepted tree parsed _ outcome =>
    refine ⟨fun d failed => ?_, fun d failed => ?_⟩
    · rw [outcome] at failed
      cases failed
    · rw [parsed] at failed
      cases failed
  | refused d parsed failed =>
    refine ⟨fun found reported _ => ?_, fun found reported => ⟨d, failed, .inl ?_⟩⟩
    · rw [failed, Except.error.injEq, Failure.diagnostic.injEq] at reported
      rw [parsed, reported]
    · rw [parsed, Except.error.injEq] at reported
      exact reported
  | illTyped d fault failed _ =>
    refine ⟨fun found reported kind => ?_, fun _ _ => ⟨d, failed, .inr fault⟩⟩
    rw [failed, Except.error.injEq, Failure.diagnostic.injEq] at reported
    subst reported
    rcases fault with type | type <;> simp [type] at kind

/-- A program whose character literal does not end, after an operation on mixed types. -/
private def unclosed : Source := ⟨"p", "x = 1\nprint x + \"a\"\ny = 'ab'"⟩

/-- A program that reads a name too early. -/
private def early : Source := ⟨"p", "x = 1\nprint x + y"⟩

theorem run_reports_parse_faults_samples :
    (∃ d, (run early .linux).result = .error (.diagnostic d) ∧ d.kind = .unknownName ∧
      parse early = .error d) ∧
    ∃ d found, parse unclosed = .error d ∧
      (run unclosed .linux).result = .error (.diagnostic found) ∧
      (found = d ∨ found.IsTypeFault) := by
  refine ⟨?_, ?_⟩
  · have fault : (run early .linux).result = .error (.diagnostic
        (.ofSource early ⟨2, 11⟩ (.unknownVariable "y"))) := by decide +kernel
    exact ⟨_, fault, rfl, (run_reports_parse_faults early .linux).1 _ fault (.inr (.inr rfl))⟩
  · have refused : (parse unclosed).isOk = false := by decide +kernel
    cases fault : parse unclosed with
    | error d =>
      obtain ⟨found, failed, same⟩ := (run_reports_parse_faults unclosed .linux).2 d fault
      exact ⟨d, found, rfl, failed, same⟩
    | ok _ =>
      rw [fault] at refused
      cases refused

end Compiler

end Onepass
