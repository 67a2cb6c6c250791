import Onepass.Proofs.Lockstep.Expressions

/-! The rules for statements read in step, and with them whole programs. -/
namespace Onepass

open Assembly (Code)
open Syntax (Context Cursor Expr HasType Parser Stmt Typed)
open Syntax.Parser (State reads reads_bind reads_pure reads_current reads_remaining reads_next
  reads_expect reads_fail)

/-- Whether the typing rules refuse a statement. -/
def Syntax.Stmt.IllTyped (context : Context) (s : Stmt) : Prop := ∀ after, ¬ Typed context s after

/-- Whether programs can write the types of all variables. -/
def Generator.Writable (g : Generator) : Prop := ∀ entry ∈ g.context, entry.2.isWritable = true

theorem Generator.writable_expression {g : Generator} {platform : Platform} {e : Expr} :
    (g.expression platform e).2.Writable ↔ g.Writable := by
  simp only [Generator.Writable, Generator.expression_context]

namespace Compiler

variable {α β : Type} {platform : Platform}

/-- What holds when a statement has been compiled and parsed from what `g` and `out` say. -/
structure CompiledStatement (platform : Platform) (g : Generator) (out : Buffers) (s : Stmt)
    (after : Generator) (result : Buffers) : Prop where
  typed : Typed g.context s after.context
  generator : after = (g.statement platform s).2
  buffers : result = out.add (g.statement platform s).1
  writable : after.Writable

/-- Two rules that read a statement in step. -/
def ReadsStatement (platform : Platform) (step : Compiler Unit) (parser : Parser Stmt) : Prop :=
  ∀ cursor g out, g.Writable → Joined platform (Stmt.IllTyped g.context)
    (fun _ s _ after result => CompiledStatement platform g out s after result)
    step parser cursor g out

/-- Whether an assignment cannot go to an element of an array that the tree selects. -/
def IllTarget (context : Context) (target : Expr) : Prop :=
  ∃ container selector, target = .index container selector ∧
    ∀ element, ¬ (HasType context container (.array element) ∧ HasType context selector .int)

private theorem IllTarget.index {context : Context} {left selector : Expr}
    (ill : IllTarget context left) : IllTarget context (.index left selector) := by
  obtain ⟨container, first, rfl, wrong⟩ := ill
  refine ⟨_, _, rfl, ?_⟩
  rintro element ⟨typed, _⟩
  obtain ⟨shape, array, found, number⟩ := typed.parts
  cases shape <;> simp only [Shape.element?, Option.some.injEq, reduceCtorEq] at found
  exact wrong _ ⟨array, number⟩

private theorem IllTarget.store {context : Context} {container selector value : Expr}
    (ill : IllTarget context (.index container selector)) :
    (Stmt.store container selector value).IllTyped context := by
  obtain ⟨_, _, same, wrong⟩ := ill
  cases same
  intro after typed
  cases typed with
  | store array number _ => exact wrong _ ⟨array, number⟩

/-- Only arrays have elements that can be assigned to. -/
private theorem selections_illTarget {context : Context} {inner : Parser Expr} {fuel : Nat}
    {left target : Expr} {s after : State} (here : s.cursor.current.is "[" = true)
    (other : ∀ element, ¬ HasType context left (.array element))
    (success : reads (Syntax.Parser.selections inner (fuel + 1) left) s = .ok (target, after)) :
    IllTarget context target := by
  rw [Syntax.Parser.selections, reads_bind, reads_current] at success
  simp only [here, if_true] at success
  obtain ⟨_, _, _, success⟩ := Syntax.Parser.reads_bind_ok.mp success
  obtain ⟨_, _, _, success⟩ := Syntax.Parser.reads_bind_ok.mp success
  obtain ⟨_, _, _, success⟩ := Syntax.Parser.reads_bind_ok.mp success
  exact selections_grow (fun _ _ => IllTarget.index)
    ⟨_, _, rfl, fun element both => other element both.1⟩ success

/-- What holds when the target of an assignment to an element has been compiled and parsed. -/
structure CompiledTarget (platform : Platform) (g : Generator) (out : Buffers) (element : Shape)
    (container selector : Expr) (after : Generator) (result : Buffers) : Prop where
  array : HasType g.context container (.array element)
  number : HasType g.context selector .int
  generator : after = ((g.expression platform container).2.expression platform selector).2
  buffers : result = out.add (Generator.selection (g.expression platform container).1
    ((g.expression platform container).2.expression platform selector).1 element)

private theorem elementTarget_joined (platform : Platform) (fuel : Nat) {element : Shape}
    {left : Expr} (cursor : Cursor) {g : Generator} (out : Buffers)
    (typed : HasType g.context left (.array element)) (here : cursor.current.is "[" = true) :
    Joined platform (IllTarget g.context)
      (fun element target _ after result => ∃ container selector,
        target = .index container selector ∧
          CompiledTarget platform g out element container selector after result)
      (elementTarget fuel element)
      (Syntax.Parser.selections Syntax.Parser.expression (fuel + 1) left)
      cursor (g.expression platform left).2 (out.add (g.expression platform left).1) := by
  induction fuel generalizing element left cursor with
  | zero =>
    unfold elementTarget
    rw [Syntax.Parser.selections]
    refine .parserCurrent ?_
    simp only [here, if_true]
    refine index_joined (expression_joined platform) rfl here (fun selector cursor number => ?_) ?_
    · rw [Generator.expression_context] at number
      refine .pure ⟨left, selector, rfl, typed, number, rfl, ?_⟩
      simp only [Generator.selection, Buffers.add_add, List.append_assoc]
    · intro selector ill s result after success
      rw [Generator.expression_context] at ill
      obtain ⟨rfl, _⟩ : Expr.index left selector = result ∧ s = after := by
        simpa [Syntax.Parser.selections, reads_pure] using success
      exact ⟨_, _, rfl, fun _ both => ill both.2⟩
  | succ fuel ih =>
    unfold elementTarget
    rw [Syntax.Parser.selections]
    refine .parserCurrent ?_
    simp only [here, if_true]
    refine index_joined (expression_joined platform) rfl here (fun selector cursor number => ?_) ?_
    · rw [Generator.expression_context] at number
      have selected : HasType g.context (.index left selector) element :=
        .selectElement typed number
      by_cases further : cursor.current.is "[" = true
      · refine .current ?_
        simp only [further, if_true]
        cases element with
        | array inner =>
          refine .emit ?_
          have rest := ih cursor selected further
          have same : g.elementOf left = .array inner := Generator.elementOf_eq typed rfl
          simpa only [Generator.expression, Generator.selection, same, Buffers.add_add,
            List.append_assoc] using rest
        | int | char | string | other =>
          refine .rejectHere (.inl rfl) fun result after success => ?_
          refine selections_illTarget further (fun inner other => ?_) success
          cases selected.unique other
      · refine .current ?_
        rw [Syntax.Parser.selections]
        refine .parserCurrent ?_
        simp only [further, Bool.false_eq_true, if_false]
        refine .pure ⟨left, selector, rfl, typed, number, rfl, ?_⟩
        simp only [Generator.selection, Buffers.add_add, List.append_assoc]
    · intro selector ill s result after success
      rw [Generator.expression_context] at ill
      exact selections_grow (fun _ _ => IllTarget.index)
        ⟨_, _, rfl, fun _ both => ill both.2⟩ success

/-- What follows the target of an assignment to an element keeps a wrong target wrong. -/
private theorem store_illTyped {context : Context} {target : Expr} {name : Bytes}
    (ill : IllTarget context target) {s after : State} {result : Stmt}
    (success : reads (do
      Syntax.Parser.expect "="
      let value ← Syntax.Parser.expression
      match target with
      | .index container selector => return .store container selector value
      | _ => return .assign name value) s = .ok (result, after)) :
    result.IllTyped context := by
  obtain ⟨_, _, _, success⟩ := Syntax.Parser.reads_bind_ok.mp success
  obtain ⟨value, _, _, success⟩ := Syntax.Parser.reads_bind_ok.mp success
  obtain ⟨container, selector, rfl, wrong⟩ := ill
  obtain ⟨rfl, _⟩ : Stmt.store container selector value = result ∧ _ = after := by
    simpa [reads_pure] using success
  exact IllTarget.store ⟨_, _, rfl, wrong⟩

private theorem elementAssignment_joined {cursor : Cursor} {g : Generator} {out : Buffers}
    (token : Token) (writable : g.Writable) (here : cursor.current.is "[" = true) :
    Joined platform (Stmt.IllTyped g.context)
      (fun _ s _ after result => CompiledStatement platform g out s after result)
      (elementAssignment token)
      (do
        Syntax.Parser.known token
        let target ← Syntax.Parser.selections Syntax.Parser.expression
          (← Syntax.Parser.remaining) (.variable token.text)
        Syntax.Parser.expect "="
        let value ← Syntax.Parser.expression
        match target with
        | .index container selector => return .store container selector value
        | _ => return .assign token.text value)
      cursor g out := by
  unfold elementAssignment
  refine lookup_joined fun v found => ?_
  have typed : HasType g.context (.variable token.text) v.type.shape :=
    .variable (by simp [Generator.lookup_context, found])
  refine .parserRemaining ?_
  match shape : v.type.shape with
  | .array element =>
    refine .emit (.remaining ?_)
    have target := elementTarget_joined platform cursor.rest.length cursor out (shape ▸ typed)
      here
    simp only [Generator.expression, found, Option.map_some, Option.getD_some] at target
    refine .bind target ?_ ?_
    · rintro element _ cursor _ _ ⟨container, selector, rfl, array, number, rfl, rfl⟩
      refine .emit (.expect fun cursor => .current (.bind (expression_joined platform ..) ?_ ?_))
      · rintro type value cursor _ _ ⟨valueTyped, rfl, rfl⟩
        simp only [Generator.expression_context] at valueTyped
        by_cases same : (Ty.ofShape element).compatible type = true
        · have equal : element = type.shape := by
            simpa [Ty.compatible, Ty.ofShape] using same
          simp only [same, if_true]
          rw [← equal] at valueTyped
          refine .emit (.emitLast ⟨?_, rfl, ?_, ?_⟩)
          · simpa only [Generator.expression_context] using Typed.store array number valueTyped
          · simp only [Generator.statement, Generator.elementOf_eq array rfl, Buffers.add_add,
              List.append_assoc]
          · simpa only [Generator.writable_expression] using writable
        · simp only [same, fail_bind]
          refine .reject (.inl rfl) fun s result after success => ?_
          obtain ⟨rfl, _⟩ : Stmt.store container selector value = result ∧ s = after := by
            simpa [reads_pure] using success
          intro later typed
          cases typed with
          | store otherArray _ otherValue =>
            cases array.unique otherArray
            exact same (by simp [Ty.compatible, Ty.ofShape, valueTyped.unique otherValue])
      · intro value ill s result after success
        obtain ⟨rfl, _⟩ : Stmt.store container selector value = result ∧ s = after := by
          simpa [reads_pure] using success
        intro later typed
        simp only [Generator.expression_context] at ill
        cases typed with
        | store _ _ valueTyped => exact ill _ valueTyped
    · intro target ill s result after success
      exact store_illTyped ill success
  | .int | .char | .string | .other =>
    refine .rejectHere (.inl rfl) fun result after success => ?_
    obtain ⟨_, _, read, success⟩ := Syntax.Parser.reads_bind_ok.mp success
    refine store_illTyped (selections_illTarget here (fun element other => ?_) read) success
    cases shape ▸ typed.unique other

/-- The parser knows the names of the variables in scope. -/
private theorem names_contains (cursor : Cursor) (g : Generator) (name : Bytes) :
    (State.of cursor g).names.contains name = (g.scope.find? name).isSome := by
  rw [Bool.eq_iff_iff]
  simp [State.of, Scope.find?]

/-- What holds when the value of a plain assignment has been stored. -/
structure CompiledAssignment (g : Generator) (out : Buffers) (name : Bytes) (value : Expr)
    (shape : Shape) (s : Stmt) (after : Generator) (result : Buffers) : Prop where
  form : s = .declare name value ∨ s = .assign name value
  typed : Typed g.context s after.context
  generator : after = (g.assignment name shape).2
  buffers : result = out.add (g.assignment name shape).1
  writable : after.Writable

private theorem assigned_joined {cursor : Cursor} {g : Generator} {out : Buffers}
    {token valueToken : Token} {type : Ty} {value : Expr} (writable : g.Writable)
    (typed : HasType g.context value type.shape) :
    Joined platform (Stmt.IllTyped g.context)
      (fun _ s _ after result =>
        CompiledAssignment g out token.text value type.shape s after result)
      (do
        let v ← assigned token valueToken type
        emit v.store)
      (do
        let s ← get
        if s.names.contains token.text then return .assign token.text value
        else
          set { s with names := token.text :: s.names }
          return .declare token.text value)
      cursor g out := by
  unfold Joined
  rw [perform_bind, reads_bind, Syntax.Parser.reads_get]
  simp only [names_contains]
  match found : g.scope.find? token.text with
  | some v =>
    have known : g.context.lookup token.text = some v.type.shape := by
      simp [Generator.lookup_context, found]
    have assignment : g.assignment token.text type.shape = (v.store, g) := by
      simp [Generator.assignment, Scope.add, found]
    simp only [Option.isSome_some, if_true, reads_pure]
    by_cases same : v.type.compatible type = true
    · have equal : v.type.shape = type.shape := by simpa [Ty.compatible] using same
      have done : perform (assigned token valueToken type) (.of platform cursor g out) =
          (.ok v, .of platform cursor g out) := by
        simp only [assigned, perform_bind, perform_get, Session.of, found, same, if_true]
        rfl
      simp only [done, perform_emit]
      refine .both _ _ _ ⟨.inr rfl, .assign known (equal ▸ typed), ?_, ?_, writable⟩
      · rw [assignment]
      · rw [assignment]
    · have failed : perform (assigned token valueToken type) (.of platform cursor g out) =
          (.error (.diagnostic (cursor.diagnostic valueToken
            (.badAssignment type v.name v.type))), .of platform cursor g out) := by
        simp only [assigned, perform_bind, perform_get, Session.of, found, same]
        rfl
      rw [failed]
      refine .rejected (.inl rfl) fun s after success => ?_
      obtain ⟨rfl, _⟩ : Stmt.assign token.text value = s ∧ _ = after := by
        simpa using success
      intro later whole
      cases whole with
      | assign other valueTyped =>
        rw [known, Option.some.injEq] at other
        exact same (by simp [Ty.compatible, other, typed.unique valueTyped])
  | none =>
    have fresh : g.context.lookup token.text = none := by
      simp [Generator.lookup_context, found]
    have done : perform (assigned token valueToken type) (.of platform cursor g out) =
        (.ok (g.scope.add token.text (.ofShape type.shape)).1,
          .of platform cursor (g.assignment token.text type.shape).2 out) := by
      simp only [assigned, perform_bind, perform_get, Session.of, found]
      rfl
    have declared : (g.assignment token.text type.shape).2.context =
        g.context ++ [(token.text, type.shape)] := Generator.assignment_context found
    have names : (State.of cursor (g.assignment token.text type.shape).2) =
        { State.of cursor g with names := token.text :: (State.of cursor g).names } := by
      simp [Generator.assignment, Scope.add, found, State.of]
    simp only [Option.isSome_none, Bool.false_eq_true, if_false]
    simp only [done, perform_emit, reads_bind, Syntax.Parser.reads_set, reads_pure]
    rw [← names]
    refine .both _ _ _ ⟨.inl rfl, ?_, rfl, rfl, ?_⟩
    · rw [declared]
      exact .declare fresh typed
    · intro entry member
      rw [declared] at member
      rcases List.mem_append.mp member with old | new
      · exact writable entry old
      · obtain rfl := List.mem_singleton.mp new
        exact typed.writable writable

theorem assignment_joined (platform : Platform) :
    ReadsStatement platform assignment Syntax.Parser.assignment := by
  intro cursor g out writable
  unfold assignment Syntax.Parser.assignment
  refine .current (.parserCurrent (.next fun after => .current (.parserCurrent ?_)))
  by_cases here : after.current.is "[" = true
  · simp only [here, if_true]
    exact elementAssignment_joined cursor.current writable here
  simp only [here, Bool.false_eq_true, if_false]
  refine .expect fun after => .current (.bind (expression_joined platform ..) ?_ ?_)
  · rintro type value after _ _ ⟨typed, rfl, rfl⟩
    have same := Generator.expression_context platform value g
    refine .weaken (assigned_joined (Generator.writable_expression.mpr writable) (same ▸ typed)) ?_ ?_
    · rintro _ s cursor after result ⟨form, whole, rfl, rfl, fine⟩
      rw [same] at whole
      rcases form with rfl | rfl
      · refine ⟨whole, ?_, ?_, fine⟩
        · simp only [Generator.statement, Generator.shapeOf_eq typed]
        · simp only [Generator.statement, Generator.shapeOf_eq typed, Buffers.add_add]
      · refine ⟨whole, ?_, ?_, fine⟩
        · simp only [Generator.statement, Generator.shapeOf_eq typed]
        · simp only [Generator.statement, Generator.shapeOf_eq typed, Buffers.add_add]
    · intro s ill
      rwa [same] at ill
  · intro value ill s result after success
    rw [reads_bind, Syntax.Parser.reads_get] at success
    simp only at success
    split at success
    · obtain ⟨rfl, _⟩ : Stmt.assign cursor.current.text value = result ∧ s = after := by
        simpa [reads_pure] using success
      intro later whole
      cases whole with
      | assign _ typed => exact ill _ typed
    · obtain ⟨_, _, _, success⟩ := Syntax.Parser.reads_bind_ok.mp success
      obtain ⟨rfl, _⟩ : Stmt.declare cursor.current.text value = result ∧ _ = after := by
        simpa [reads_pure] using success
      intro later whole
      cases whole with
      | declare _ typed => exact ill _ typed

private theorem print?_isSome {platform : Platform} {type : Ty} :
    (Codegen.print? platform type).isSome = true ↔
      type.shape.IsScalar ∨ type.shape = .string := by
  rcases type with ⟨_ | _ | _ | _ | _, _⟩ <;> simp [Codegen.print?, Shape.IsScalar]

private theorem print?_shape (platform : Platform) (type : Ty) :
    Codegen.print? platform (.ofShape type.shape) = Codegen.print? platform type := rfl

private theorem print_joined (platform : Platform) :
    ReadsStatement platform print (do
      Syntax.Parser.next
      return .print (← Syntax.Parser.expression)) := by
  intro cursor g out writable
  unfold print
  refine .next fun cursor => .current (.bind (expression_joined platform ..) ?_ ?_)
  · rintro type value cursor _ _ ⟨typed, rfl, rfl⟩
    refine .compile (perform_get _) rfl ?_
    match found : Codegen.print? platform type with
    | some code =>
      have shown : (Codegen.print? platform type).isSome = true := by simp [found]
      refine .emitLast ⟨?_, rfl, ?_, Generator.writable_expression.mpr writable⟩
      · simpa only [Generator.expression_context] using
          Typed.print (print?_isSome.mp shown) typed
      · simp only [Generator.statement, Generator.shapeOf_eq typed, print?_shape, found,
          Option.getD_some, Buffers.add_add]
    | none =>
      refine .reject (.inl rfl) fun s result after success => ?_
      obtain ⟨rfl, _⟩ : Stmt.print value = result ∧ s = after := by
        simpa [reads_pure] using success
      intro later whole
      cases whole with
      | print printable other =>
        rw [← typed.unique other, ← print?_isSome, found] at printable
        cases printable
  · intro value ill s result after success
    obtain ⟨rfl, _⟩ : Stmt.print value = result ∧ s = after := by
      simpa [reads_pure] using success
    intro later whole
    cases whole with
    | print _ typed => exact ill _ typed

/-- Of the types that can be written, exactly the scalars are not held through a pointer. -/
private theorem isHeap_eq_false {shape : Shape} (writable : shape.isWritable = true) :
    shape.isHeap = false ↔ shape.IsScalar := by
  cases shape <;> simp_all [Shape.isHeap, Shape.IsScalar, Shape.isWritable]

/-- Conditions are the expressions of a scalar type. -/
private theorem condition_joined {bad : β → Prop}
    {good : α → β → Cursor → Generator → Buffers → Prop} {next : Unit → Compiler α}
    {continuation : Expr → Parser β} {cursor : Cursor} {g : Generator} {out : Buffers}
    (writable : g.Writable)
    (rest : ∀ test cursor shape, shape.IsScalar → HasType g.context test shape →
      Joined platform bad good (next ()) (continuation test) cursor
        (g.expression platform test).2 (out.add (g.expression platform test).1))
    (keeps : ∀ test, (∀ shape, shape.IsScalar → ¬ HasType g.context test shape) →
      ∀ s result after, reads (continuation test) s = .ok (result, after) → bad result) :
    Joined platform bad good (condition >>= next) (Syntax.Parser.expression >>= continuation)
      cursor g out := by
  unfold condition
  simp only [bind_assoc]
  refine .current (.bind (expression_joined platform ..) ?_ ?_)
  · rintro type test cursor _ _ ⟨typed, rfl, rfl⟩
    have scalar : type.isHeap = false ↔ type.shape.IsScalar :=
      isHeap_eq_false (typed.writable writable)
    by_cases heap : type.isHeap = true
    · simp only [heap, if_true, fail_bind]
      refine .reject (.inl rfl) (keeps test fun shape fine other => ?_)
      rw [← typed.unique other, ← scalar, heap] at fine
      cases fine
    · simp only [heap]
      exact rest test cursor type.shape (scalar.mp (by simpa using heap)) typed
  · intro test ill
    exact keeps test fun shape _ => ill shape

/-- What is wrong with the condition or the body of a conditional is wrong with the whole. -/
private theorem conditional_illTyped {context : Context} {test : Expr} {body : Stmt}
    (wrong : (∀ shape, shape.IsScalar → ¬ HasType context test shape) ∨ body.IllTyped context)
    {parser : Parser Stmt} {s after : State} {result : Stmt}
    (success : reads (do
      if (← Syntax.Parser.current).is "else" then
        Syntax.Parser.next
        return .ifElse test body (← parser)
      else return .ifThen test body) s = .ok (result, after)) : result.IllTyped context := by
  obtain ⟨_, _, _, success⟩ := Syntax.Parser.reads_bind_ok.mp success
  intro later whole
  split at success
  · obtain ⟨_, _, _, success⟩ := Syntax.Parser.reads_bind_ok.mp success
    obtain ⟨other, _, _, success⟩ := Syntax.Parser.reads_bind_ok.mp success
    obtain ⟨rfl, _⟩ : Stmt.ifElse test body other = result ∧ _ = after := by
      simpa [reads_pure] using success
    cases whole with
    | ifElse scalar typed first _ =>
      exact wrong.elim (fun test => test _ scalar typed) (fun body => body _ first)
  · obtain ⟨rfl, _⟩ : Stmt.ifThen test body = result ∧ _ = after := by
      simpa [reads_pure] using success
    cases whole with
    | ifThen scalar typed first =>
      exact wrong.elim (fun test => test _ scalar typed) (fun body => body _ first)

private theorem conditional_joined {step : Compiler Unit} {parser : Parser Stmt}
    (inner : ReadsStatement platform step parser) :
    ReadsStatement platform (conditional step) (Syntax.Parser.conditional parser) := by
  intro cursor g out writable
  unfold conditional Syntax.Parser.conditional
  refine .next fun cursor => condition_joined writable (fun test cursor shape scalar typed => ?_) ?_
  · refine .compile (perform_newLabel ..) rfl (.emit (.bind (inner _ _ _ ?_) ?_ ?_))
    · exact Generator.writable_expression.mpr writable
    · rintro _ body cursor middle _ ⟨bodyTyped, rfl, rfl, fine⟩
      rw [Generator.newLabel_context, Generator.expression_context] at bodyTyped
      refine .parserCurrent ?_
      by_cases other : cursor.current.is "else" = true
      · refine .acceptHere other ?_
        simp only [other, if_true]
        refine .next fun cursor => .compile (perform_newLabel ..) rfl (.emit (.emit ?_))
        refine .bind (inner _ _ _ fine) ?_ ?_
        · rintro _ alternative cursor _ _ ⟨otherTyped, rfl, rfl, fine⟩
          refine .emitLast ⟨.ifElse scalar typed bodyTyped otherTyped, rfl, ?_, fine⟩
          simp only [Generator.statement, Buffers.add_add, List.append_assoc]
        · intro alternative ill s result after success
          obtain ⟨rfl, _⟩ : Stmt.ifElse test body alternative = result ∧ s = after := by
            simpa [reads_pure] using success
          intro later whole
          cases whole with
          | ifElse _ _ first second => exact ill _ (first.unique bodyTyped ▸ second)
      · refine .acceptElsewhere other ?_
        simp only [other, Bool.false_eq_true, if_false]
        refine .emitLast ⟨.ifThen scalar typed bodyTyped, rfl, ?_, fine⟩
        simp only [Generator.statement, Buffers.add_add, List.append_assoc]
    · intro body ill s result after success
      rw [Generator.newLabel_context, Generator.expression_context] at ill
      exact conditional_illTyped (.inr ill) success
  · intro test wrong s result after success
    obtain ⟨body, _, _, success⟩ := Syntax.Parser.reads_bind_ok.mp success
    exact conditional_illTyped (.inl wrong) success

private theorem loop_joined {step : Compiler Unit} {parser : Parser Stmt}
    (inner : ReadsStatement platform step parser) :
    ReadsStatement platform (loop step) (do
      Syntax.Parser.next
      let condition ← Syntax.Parser.expression
      return .loop condition (← parser)) := by
  intro cursor g out writable
  unfold loop
  refine .next fun cursor => .compile (perform_newLabel ..) rfl ?_
  refine .compile (perform_newLabel ..) rfl (.emit ?_)
  refine condition_joined (g := g.newLabel.2.newLabel.2) writable
    (fun test cursor shape scalar typed => ?_) ?_
  · refine .emit (.bind (inner _ _ _ ?_) ?_ ?_)
    · exact Generator.writable_expression.mpr writable
    · rintro _ body cursor middle _ ⟨bodyTyped, rfl, rfl, fine⟩
      rw [Generator.expression_context] at bodyTyped
      refine .emit (.emitLast ⟨.loop scalar typed bodyTyped, rfl, ?_, fine⟩)
      simp only [Generator.statement, Buffers.add_add, List.append_assoc]
    · intro body ill s result after success
      rw [Generator.expression_context] at ill
      obtain ⟨rfl, _⟩ : Stmt.loop test body = result ∧ s = after := by
        simpa [reads_pure] using success
      intro later whole
      cases whole with
      | loop _ _ first => exact ill _ first
  · intro test wrong s result after success
    obtain ⟨body, _, _, success⟩ := Syntax.Parser.reads_bind_ok.mp success
    obtain ⟨rfl, _⟩ : Stmt.loop test body = result ∧ _ = after := by
      simpa [reads_pure] using success
    intro later whole
    cases whole with
    | loop scalar typed _ => exact wrong _ scalar typed

/-- Statements one after the other are compiled and parsed like a block of them. -/
def ReadsStatements (platform : Platform) (step : Compiler Unit) (parser : Parser (List Stmt)) :
    Prop :=
  ∀ cursor g out, g.Writable → Joined platform (fun body => (Stmt.block body).IllTyped g.context)
    (fun _ body _ after result => CompiledStatement platform g out (.block body) after result)
    step parser cursor g out

private theorem CompiledStatement.none {g : Generator} (platform : Platform) (out : Buffers)
    (writable : g.Writable) : CompiledStatement platform g out (.block []) g out :=
  ⟨.done, rfl, (Buffers.add_nil out).symm, writable⟩

private theorem cons_joined {step rest : Compiler Unit} {parser : Parser Stmt}
    {others : Parser (List Stmt)} (first : ReadsStatement platform step parser)
    (second : ReadsStatements platform rest others) :
    ReadsStatements platform (do step; rest) (do
      let first ← parser
      let rest ← others
      return first :: rest) := by
  intro cursor g out writable
  refine .bind (first _ _ _ writable) ?_ ?_
  · rintro _ head cursor middle _ ⟨headTyped, rfl, rfl, fine⟩
    refine .mapParser (second _ _ _ fine) ?_ ?_
    · rintro _ tail cursor after _ ⟨tailTyped, rfl, rfl, fine⟩
      refine ⟨.next headTyped tailTyped, rfl, ?_, fine⟩
      simp only [Generator.statement, Generator.statements, Buffers.add_add]
    · intro tail ill later whole
      cases whole with
      | next one two => exact ill _ (one.unique headTyped ▸ two)
  · intro head ill s result after success
    obtain ⟨tail, _, _, success⟩ := Syntax.Parser.reads_bind_ok.mp success
    obtain ⟨rfl, _⟩ : head :: tail = result ∧ _ = after := by
      simpa [reads_pure] using success
    intro later whole
    cases whole with
    | next one _ => exact ill _ one

private theorem blockBody_joined {step : Compiler Unit} {parser : Parser Stmt}
    (inner : ReadsStatement platform step parser) (fuel : Nat) :
    ReadsStatements platform (blockBody step fuel) (Syntax.Parser.blockBody parser fuel) := by
  induction fuel with
  | zero =>
    intro cursor g out writable
    exact .expectLast fun cursor => .none platform out writable
  | succ fuel ih =>
    intro cursor g out writable
    unfold blockBody Syntax.Parser.blockBody
    refine .current (.parserCurrent ?_)
    by_cases close : cursor.current.is "\x7d" = true
    · simp only [close, if_true]
      exact .nextLast fun cursor => .none platform out writable
    simp only [close, Bool.false_eq_true, if_false]
    by_cases finish : cursor.current.kind = .eof
    · simp only [finish, if_true]
      exact .fail
    · simp only [finish, if_false]
      exact cons_joined inner ih cursor g out writable

theorem statementWithin_joined (platform : Platform) (fuel : Nat) :
    ReadsStatement platform (statementWithin fuel) (Syntax.Parser.statementWithin fuel) := by
  induction fuel with
  | zero =>
    intro cursor g out _
    exact .current (.parserCurrent .fail)
  | succ fuel ih =>
    intro cursor g out writable
    unfold statementWithin Syntax.Parser.statementWithin
    refine .current (.parserCurrent ?_)
    by_cases name : cursor.current.kind = .ident
    · simp only [name, if_true]
      exact assignment_joined platform cursor g out writable
    simp only [name, if_false]
    by_cases printing : cursor.current.is "print" = true
    · simp only [printing, if_true]
      exact print_joined platform cursor g out writable
    simp only [printing, Bool.false_eq_true, if_false]
    by_cases choice : cursor.current.is "if" = true
    · simp only [choice, if_true]
      exact conditional_joined ih cursor g out writable
    simp only [choice, Bool.false_eq_true, if_false]
    by_cases repeated : cursor.current.is "while" = true
    · simp only [repeated, if_true]
      exact loop_joined ih cursor g out writable
    simp only [repeated, Bool.false_eq_true, if_false]
    by_cases brace : cursor.current.is "\x7b" = true
    · simp only [brace, if_true]
      refine .next fun cursor => .remaining (.parserRemaining ?_)
      exact .mapParser (blockBody_joined ih _ cursor g out writable)
        (fun _ _ _ _ _ compiled => compiled) (fun _ ill => ill)
    · simp only [brace, Bool.false_eq_true, if_false]
      exact .fail

theorem statement_joined (platform : Platform) :
    ReadsStatement platform statement Syntax.Parser.statement := by
  intro cursor g out writable
  exact .remaining (.parserRemaining (statementWithin_joined platform _ cursor g out writable))

/-- The statements of a program are compiled and parsed in step. -/
theorem statements_joined (platform : Platform) (fuel : Nat) :
    ReadsStatements platform (statements fuel) (Syntax.Parser.program fuel) := by
  induction fuel with
  | zero =>
    intro cursor g out writable
    exact .pure (.none platform out writable)
  | succ fuel ih =>
    intro cursor g out writable
    unfold statements Syntax.Parser.program
    refine .current (.parserCurrent ?_)
    by_cases finish : cursor.current.kind = .eof
    · simp only [finish, if_true]
      exact .pure (.none platform out writable)
    · simp only [finish, if_false]
      exact cons_joined (statement_joined platform) ih cursor g out writable

end Compiler

end Onepass
