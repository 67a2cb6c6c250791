import Onepass.Proofs.Lockstep.Relation

/-! The rules for expressions read in step. Each rule is treated once, for any pair of readers of the
expressions inside it that proceed in step; the nesting bound then carries the induction. -/
namespace Onepass

open Assembly (Code)
open Syntax (Context Cursor Expr HasType Parser)
open Syntax.Parser (State reads reads_bind reads_pure reads_current reads_remaining reads_next
  reads_expect reads_fail)

/-- Whether the typing rules give an expression no type. -/
def Syntax.Expr.IllTyped (context : Context) (e : Expr) : Prop :=
  ∀ shape, ¬ HasType context e shape

namespace Syntax.Expr

variable {context : Context} {operator : Operator} {left right selector : Expr}

theorem IllTyped.binary_left (ill : left.IllTyped context) :
    (Expr.binary operator left right).IllTyped context := by
  intro shape typed
  obtain ⟨_, first, _, _⟩ := typed.operands
  exact ill _ first

theorem IllTyped.binary_right (ill : right.IllTyped context) :
    (Expr.binary operator left right).IllTyped context := by
  intro shape typed
  obtain ⟨_, _, second, _⟩ := typed.operands
  exact ill _ second

theorem illTyped_of_mismatch {a b : Shape} (first : HasType context left a)
    (second : HasType context right b) (differ : a ≠ b) :
    (Expr.binary operator left right).IllTyped context := by
  intro shape typed
  obtain ⟨_, one, two, _⟩ := typed.operands
  exact differ ((first.unique one).trans (two.unique second))

theorem illTyped_of_unsupported {a : Shape} (first : HasType context left a)
    (missing : operatorShape? operator a = none) :
    (Expr.binary operator left right).IllTyped context := by
  intro shape typed
  obtain ⟨_, one, _, found⟩ := typed.operands
  rw [← first.unique one, missing] at found
  cases found

theorem IllTyped.index_left (ill : left.IllTyped context) :
    (Expr.index left selector).IllTyped context := by
  intro shape typed
  cases typed with
  | selectChar container _ => exact ill _ container
  | selectElement container _ => exact ill _ container

end Syntax.Expr

namespace Compiler

variable {α β : Type} {platform : Platform}

/-- What holds when an expression has been compiled and parsed from what `g` and `out` say. -/
structure Compiled (platform : Platform) (g : Generator) (out : Buffers) (type : Ty) (e : Expr)
    (after : Generator) (result : Buffers) : Prop where
  typed : HasType g.context e type.shape
  generator : after = (g.expression platform e).2
  buffers : result = out.add (g.expression platform e).1

/-- Two rules that read an expression in step. -/
def ReadsExpression (platform : Platform) (step : Compiler Ty) (parser : Parser Expr) : Prop :=
  ∀ cursor g out, Joined platform (Expr.IllTyped g.context)
    (fun type e _ after result => Compiled platform g out type e after result)
    step parser cursor g out

/-- Whether an operator applies depends on the typing rules only. -/
private theorem operation?_binary (type : Ty) (operator : Operator) :
    Codegen.operation? type (.binary operator) =
      (Syntax.operatorShape? operator type.shape).map fun _ => Codegen.operator operator := by
  rcases type with ⟨_ | _ | _ | _ | _, _⟩ <;> cases operator <;> rfl

private theorem resultType_shape {operator : Operator} {type : Ty} {shape : Shape}
    (found : Syntax.operatorShape? operator type.shape = some shape) :
    (resultType operator type).shape = shape := by
  rcases Syntax.operatorShape?_eq_some found with ⟨plain, number, rfl⟩ | ⟨⟨_, rfl⟩, _, rfl⟩
  · simp only [List.mem_cons, List.not_mem_nil, or_false] at plain
    rcases plain with rfl | rfl | rfl | rfl <;> simpa [resultType] using number
  · rfl

private theorem union?_eq_some {left right type : Ty} (found : left.union? right = some type) :
    left.shape = type.shape ∧ right.shape = type.shape := by
  by_cases same : left.shape = right.shape
  · by_cases mixed : (left.constant && !right.constant) = true
    · obtain rfl : right = type := by simpa [Ty.union?, Ty.compatible, same, mixed] using found
      exact ⟨same, rfl⟩
    · obtain rfl : left = type := by simpa [Ty.union?, Ty.compatible, same, mixed] using found
      exact ⟨rfl, same.symm⟩
  · simp [Ty.union?, Ty.compatible, same] at found

private theorem union?_eq_none {left right : Ty} (missing : left.union? right = none) :
    left.shape ≠ right.shape := by
  intro same
  simp [Ty.union?, Ty.compatible, same] at missing

/-- What applying an operator does, by the typing rules. -/
private theorem operate_eq (token : Token) (operator : Operator) (left right : Ty) :
    operate token operator left right =
      match left.union? right with
      | none => fail token (.incompatibleOperands left right token.text)
      | some type =>
        match Syntax.operatorShape? operator type.shape with
        | none => fail token (.unsupportedOperation operator.name type)
        | some _ => do
          emit (Codegen.operator operator)
          return resultType operator type := by
  unfold operate
  cases left.union? right with
  | none => rfl
  | some type =>
    simp only [operation?_binary]
    cases Syntax.operatorShape? operator type.shape <;> rfl

private theorem push_scalar {type : Ty} {operator : Operator} {shape : Shape}
    (found : Syntax.operatorShape? operator type.shape = some shape) :
    Codegen.push type = Codegen.pushScalar := by
  rcases Syntax.operatorShape?_eq_some found with ⟨_, number, _⟩ | ⟨_, number | number, _⟩ <;>
    simp [Codegen.push, Ty.isHeap, number, Shape.isHeap]

/-- What was read after a left operand contains it. -/
private theorem chain_grows {bad : Expr → Prop}
    (grows : ∀ operator left right, bad left → bad (.binary operator left right))
    {level : Operator.Level} {operand : Parser Expr} {fuel : Nat} {left result : Expr}
    {s after : State} (ill : bad left)
    (success : reads (Syntax.Parser.chain level operand fuel left) s = .ok (result, after)) :
    bad result := by
  induction fuel generalizing left s with
  | zero =>
    obtain ⟨rfl, _⟩ : left = result ∧ s = after := by
      simpa [Syntax.Parser.chain, reads_pure] using success
    exact ill
  | succ fuel ih =>
    simp only [Syntax.Parser.chain, reads_bind, reads_current] at success
    split at success
    · obtain ⟨rfl, _⟩ : left = result ∧ s = after := by simpa [reads_pure] using success
      exact ill
    · obtain ⟨_, _, _, success⟩ := Syntax.Parser.reads_bind_ok.mp success
      obtain ⟨_, _, _, success⟩ := Syntax.Parser.reads_bind_ok.mp success
      exact ih (grows _ _ _ ill) success

private theorem chain_joined {level : Operator.Level} {step : Compiler Ty} {parser : Parser Expr}
    (operand : ReadsExpression platform step parser) (fuel : Nat) {type : Ty} {left : Expr}
    (cursor : Cursor) {g : Generator} (out : Buffers)
    (typed : HasType g.context left type.shape) :
    Joined platform (Expr.IllTyped g.context)
      (fun type e _ after result => Compiled platform g out type e after result)
      (chain level step fuel type) (Syntax.Parser.chain level parser fuel left)
      cursor (g.expression platform left).2 (out.add (g.expression platform left).1) := by
  induction fuel generalizing type left cursor with
  | zero => exact .pure ⟨typed, rfl, rfl⟩
  | succ fuel ih =>
    unfold chain Syntax.Parser.chain
    refine .current (.parserCurrent ?_)
    match level.operator? cursor.current with
    | none => exact .pure ⟨typed, rfl, rfl⟩
    | some operator =>
      refine .emit (.next fun cursor => .bind (operand ..) ?_ ?_)
      · rintro rightType right cursor _ _ ⟨rightTyped, rfl, rfl⟩
        rw [Generator.expression_context] at rightTyped
        rw [operate_eq]
        split
        · rename_i union
          refine .reject (.inl rfl) fun s result after success => ?_
          refine chain_grows (fun _ _ _ => Expr.IllTyped.binary_left) ?_ success
          exact Expr.illTyped_of_mismatch typed rightTyped (union?_eq_none union)
        · rename_i common union
          obtain ⟨leftShape, rightShape⟩ := union?_eq_some union
          split
          · rename_i missing
            refine .reject (.inr rfl) fun s result after success => ?_
            refine chain_grows (fun _ _ _ => Expr.IllTyped.binary_left) ?_ success
            exact Expr.illTyped_of_unsupported (leftShape ▸ typed) missing
          · rename_i shape found
            simp only [bind_assoc, pure_bind]
            refine .emit ?_
            have whole : HasType g.context (.binary operator left right)
                (resultType operator common).shape := by
              rw [resultType_shape found, ← Expr.shape?_eq_some_iff]
              simp [Expr.shape?, typed.shape?_eq, rightTyped.shape?_eq, leftShape, rightShape, found]
            have rest := ih cursor whole
            simpa only [Generator.expression, Buffers.add_add, List.append_assoc,
              push_scalar (leftShape ▸ found)] using rest
      · intro right ill s result after success
        refine chain_grows (fun _ _ _ => Expr.IllTyped.binary_left) ?_ success
        rw [Generator.expression_context] at ill
        exact ill.binary_right

theorem binary_joined {level : Operator.Level} {step : Compiler Ty} {parser : Parser Expr}
    (operand : ReadsExpression platform step parser) :
    ReadsExpression platform (binary level step) (Syntax.Parser.binary level parser) := by
  intro cursor g out
  unfold binary Syntax.Parser.binary
  refine .bind (operand ..) ?_ ?_
  · rintro type left cursor _ _ ⟨typed, rfl, rfl⟩
    exact .remaining (.parserRemaining (chain_joined operand _ cursor out typed))
  · intro left ill s result after success
    rw [reads_bind, reads_remaining] at success
    exact chain_grows (fun _ _ _ => Expr.IllTyped.binary_left) ill success

/-- An index in brackets is read in step with the selector in the parser. -/
theorem index_joined {step : Compiler Ty} {parser : Parser Expr}
    (inner : ReadsExpression platform step parser) {container : Ty} {element : Shape}
    (found : container.shape.element? = some element) {bad : β → Prop}
    {good : α → β → Cursor → Generator → Buffers → Prop} {next : Unit → Compiler α}
    {continuation : Expr → Parser β} {cursor : Cursor} {g : Generator} {out : Buffers}
    (here : cursor.current.is "[" = true)
    (rest : ∀ selector cursor, HasType g.context selector .int →
      Joined platform bad good (next ()) (continuation selector) cursor
        (g.expression platform selector).2
        (out.add (Codegen.pushPointer ++ (g.expression platform selector).1 ++
          Codegen.popPointer ++ Codegen.boundsCheck ++ Codegen.scaleIndex element.size ++
          Codegen.addIndex)))
    (keeps : ∀ selector, ¬ HasType g.context selector .int → ∀ s result after,
      reads (continuation selector) s = .ok (result, after) → bad result) :
    Joined platform bad good (index step container >>= next)
      (do
        Syntax.Parser.next
        let selector ← parser
        Syntax.Parser.expect "]"
        continuation selector)
      cursor g out := by
  have later : ∀ selector, ¬ HasType g.context selector .int → ∀ s result after,
      reads (do Syntax.Parser.expect "]"; continuation selector) s = .ok (result, after) →
        bad result := by
    intro selector ill s result after success
    obtain ⟨_, _, _, success⟩ := Syntax.Parser.reads_bind_ok.mp success
    exact keeps selector ill _ _ _ success
  unfold index
  simp only [bind_assoc]
  refine .expectNext here fun cursor => .emit (.current (.bind (inner ..) ?_ ?_))
  · rintro type selector cursor _ _ ⟨typed, rfl, rfl⟩
    by_cases number : type.compatible .int = true
    · have shape : type.shape = .int := by simpa [Ty.compatible, Ty.int, Ty.ofShape] using number
      simp only [number, if_true, bind_assoc]
      refine .expect fun cursor => .emit ?_
      refine .compile (perform_addOffset _ _ _ _ found) rfl ?_
      simpa only [Buffers.add_add, List.append_assoc] using rest selector cursor (shape ▸ typed)
    · simp only [number, fail_bind]
      refine .reject (.inl rfl) (later selector fun other => number ?_)
      simp [Ty.compatible, typed.unique other, Ty.int, Ty.ofShape]
  · intro selector ill
    exact later selector (ill _)

/-- A variable is looked up when the parser checks that its name is known. -/
theorem lookup_joined {token : Token} {bad : β → Prop}
    {good : α → β → Cursor → Generator → Buffers → Prop} {next : Variable Ty → Compiler α}
    {continuation : Unit → Parser β} {cursor : Cursor} {g : Generator} {out : Buffers}
    (rest : ∀ v, g.scope.find? token.text = some v →
      Joined platform bad good (next v) (continuation ()) cursor g out) :
    Joined platform bad good (lookup token >>= next)
      (Syntax.Parser.known token >>= continuation) cursor g out := by
  unfold Joined
  rw [perform_bind, reads_bind]
  match found : g.scope.find? token.text with
  | none =>
    have unknown : (State.of cursor g).names.contains token.text = false := by
      simpa [State.of, Scope.find?] using found
    have stopped : perform (lookup token) (.of platform cursor g out) =
        (.error (.diagnostic (cursor.diagnostic token (.unknownVariable token.text))),
          .of platform cursor g out) := by
      simp only [lookup, perform_bind, perform_get, Session.of, found]
      rfl
    have refused : reads (Syntax.Parser.known token) (.of cursor g) =
        .error (cursor.diagnostic token (.unknownVariable token.text)) := by
      simp only [Syntax.Parser.known, reads_bind, Syntax.Parser.reads_get, unknown]
      rfl
    rw [stopped, refused]
    exact .same
  | some v =>
    have known : (State.of cursor g).names.contains token.text = true := by
      have member := List.mem_of_find?_eq_some found
      have name : v.name = token.text := by simpa using List.find?_some found
      simpa [State.of] using ⟨v, member, name⟩
    have looked : perform (lookup token) (.of platform cursor g out) =
        (.ok v, .of platform cursor g out) := by
      simp only [lookup, perform_bind, perform_get, Session.of, found]
      rfl
    have passed : reads (Syntax.Parser.known token) (.of cursor g) = .ok ((), .of cursor g) := by
      simp only [Syntax.Parser.known, reads_bind, Syntax.Parser.reads_get, known]
      rfl
    rw [looked, passed]
    exact rest v found

/-- What was read after a container contains it. -/
theorem selections_grow {bad : Expr → Prop}
    (grows : ∀ left selector, bad left → bad (.index left selector))
    {inner : Parser Expr} {fuel : Nat} {left result : Expr}
    {s after : State} (ill : bad left)
    (success : reads (Syntax.Parser.selections inner fuel left) s = .ok (result, after)) :
    bad result := by
  induction fuel generalizing left s with
  | zero =>
    obtain ⟨rfl, _⟩ : left = result ∧ s = after := by
      simpa [Syntax.Parser.selections, reads_pure] using success
    exact ill
  | succ fuel ih =>
    simp only [Syntax.Parser.selections, reads_bind, reads_current] at success
    split at success
    · obtain ⟨_, _, _, success⟩ := Syntax.Parser.reads_bind_ok.mp success
      obtain ⟨_, _, _, success⟩ := Syntax.Parser.reads_bind_ok.mp success
      obtain ⟨_, _, _, success⟩ := Syntax.Parser.reads_bind_ok.mp success
      exact ih (grows _ _ ill) success
    · obtain ⟨rfl, _⟩ : left = result ∧ s = after := by simpa [reads_pure] using success
      exact ill

private theorem selections_joined {step : Compiler Ty} {parser : Parser Expr}
    (inner : ReadsExpression platform step parser) (name : Bytes) (fuel : Nat) {type : Ty}
    {left : Expr} (cursor : Cursor) {g : Generator} (out : Buffers)
    (typed : HasType g.context left type.shape) :
    Joined platform (Expr.IllTyped g.context)
      (fun type e _ after result => Compiled platform g out type e after result)
      (selections step name fuel type) (Syntax.Parser.selections parser fuel left)
      cursor (g.expression platform left).2 (out.add (g.expression platform left).1) := by
  induction fuel generalizing type left cursor with
  | zero => exact .pure ⟨typed, rfl, rfl⟩
  | succ fuel ih =>
    unfold selections Syntax.Parser.selections
    refine .current (.parserCurrent ?_)
    by_cases here : cursor.current.is "[" = true
    · simp only [here, if_true]
      match found : type.shape.element? with
      | none =>
        simp only [Ty.element?, found, Option.map_none]
        refine .reject (.inl rfl) fun s result after success => ?_
        obtain ⟨_, _, _, success⟩ := Syntax.Parser.reads_bind_ok.mp success
        obtain ⟨_, _, _, success⟩ := Syntax.Parser.reads_bind_ok.mp success
        obtain ⟨_, _, _, success⟩ := Syntax.Parser.reads_bind_ok.mp success
        refine selections_grow (fun _ _ => Expr.IllTyped.index_left) ?_ success
        intro shape whole
        obtain ⟨container, other, selects, _⟩ := whole.parts
        rw [← typed.unique other, found] at selects
        cases selects
      | some element =>
        simp only [Ty.element?, found, Option.map_some]
        refine index_joined inner found here (fun selector cursor number => ?_) ?_
        · rw [Generator.expression_context] at number
          refine .emit ?_
          have selected : HasType g.context (.index left selector) (Ty.ofShape element).shape :=
            typed.index number found
          have rest := ih cursor selected
          simpa only [Generator.expression, Generator.selection,
            Generator.elementOf_eq typed found, Buffers.add_add, List.append_assoc] using rest
        · intro selector ill s result after success
          rw [Generator.expression_context] at ill
          refine selections_grow (fun _ _ => Expr.IllTyped.index_left) ?_ success
          intro shape whole
          obtain ⟨_, _, _, number⟩ := whole.parts
          exact ill number
    · simp only [here]
      exact .pure ⟨typed, rfl, rfl⟩

private theorem selected_joined {step : Compiler Ty} {parser : Parser Expr}
    (inner : ReadsExpression platform step parser) (cursor : Cursor) (g : Generator)
    (out : Buffers) :
    Joined platform (Expr.IllTyped g.context)
      (fun type e _ after result => Compiled platform g out type e after result)
      (selected step)
      (do
        Syntax.Parser.known cursor.current
        Syntax.Parser.next
        Syntax.Parser.selections parser (← Syntax.Parser.remaining)
          (.variable cursor.current.text))
      cursor g out := by
  unfold selected
  refine .current (lookup_joined fun v found => .next fun cursor' => .emit ?_)
  refine .remaining (.parserRemaining ?_)
  have typed : HasType g.context (.variable cursor.current.text) v.type.shape :=
    .variable (by simp [Generator.lookup_context, found])
  have rest := selections_joined inner cursor.current.text cursor'.remaining cursor' out typed
  simpa only [Generator.expression, found, Option.map_some, Option.getD_some] using rest

private theorem storeElement_eq (element : Ty) (position : Nat) :
    Codegen.peekBase "edx" ++
      Codegen.storeAt element "edx" (wordSize + position * element.size : Nat) =
        Generator.storeElement element.shape position := rfl

/-- What holds when the elements of an array literal from a position on have been compiled and
parsed. -/
structure CompiledElements (platform : Platform) (g : Generator) (out : Buffers) (element : Shape)
    (position count : Nat) (rest : List Expr) (after : Generator) (result : Buffers) : Prop where
  count : count = position + rest.length
  typed : ∀ e ∈ rest, HasType g.context e element
  generator : after = (g.elements platform element position rest).2
  buffers : result = out.add (g.elements platform element position rest).1

private theorem CompiledElements.none (platform : Platform) (g : Generator) (out : Buffers)
    (element : Shape) (position : Nat) :
    CompiledElements platform g out element position position [] g out :=
  ⟨rfl, by simp, rfl, (Buffers.add_nil out).symm⟩

private theorem elements_joined {step : Compiler Ty} {parser : Parser Expr}
    (inner : ReadsExpression platform step parser) (element : Ty) (fuel position : Nat)
    (cursor : Cursor) (g : Generator) (out : Buffers) :
    Joined platform (fun rest => ∃ e ∈ rest, ¬ HasType g.context e element.shape)
      (fun count rest _ after result =>
        CompiledElements platform g out element.shape position count rest after result)
      (elements step element fuel position) (Syntax.Parser.elements parser fuel)
      cursor g out := by
  induction fuel generalizing position cursor g out with
  | zero =>
    unfold elements Syntax.Parser.elements
    exact .expect fun cursor => .pure (.none ..)
  | succ fuel ih =>
    unfold elements Syntax.Parser.elements
    refine .parserCurrent ?_
    by_cases here : cursor.current.is "]" = true
    · refine .acceptHere here ?_
      simp only [here, if_true]
      exact .next fun cursor => .pure (.none ..)
    refine .acceptElsewhere here ?_
    simp only [here, Bool.false_eq_true, if_false]
    refine .expect fun cursor => .parserCurrent ?_
    by_cases trailing : cursor.current.is "]" = true
    · refine .acceptHere trailing ?_
      simp only [trailing, if_true]
      exact .next fun cursor => .pure (.none ..)
    refine .acceptElsewhere trailing ?_
    simp only [trailing, Bool.false_eq_true, if_false]
    refine .current (.bind (inner ..) ?_ ?_)
    · rintro type first cursor _ _ ⟨typed, rfl, rfl⟩
      by_cases same : element.compatible type = true
      · have shape : element.shape = type.shape := by simpa [Ty.compatible] using same
        simp only [same, if_true, storeElement, bind_assoc]
        refine .emit (.emit ?_)
        refine .mapParser (ih (position + 1) ..) ?_ ?_
        · rintro count rest cursor _ _ ⟨number, others, rfl, rfl⟩
          simp only [Generator.expression_context] at others
          refine ⟨by simp [number]; omega, ?_, rfl, ?_⟩
          · intro e member
            rcases List.mem_cons.mp member with rfl | later
            · exact shape ▸ typed
            · exact others e later
          · simp only [Generator.elements, Buffers.add_add, List.append_assoc,
              ← storeElement_eq]
        · rintro rest ⟨e, member, ill⟩
          rw [Generator.expression_context] at ill
          exact ⟨e, by simp [member], ill⟩
      · simp only [same, fail_bind]
        refine .reject (.inl rfl) fun s result after success => ?_
        obtain ⟨rest, _, _, success⟩ := Syntax.Parser.reads_bind_ok.mp success
        obtain ⟨rfl, _⟩ : first :: rest = result ∧ _ = after := by
          simpa [reads_pure] using success
        refine ⟨first, by simp, fun other => same ?_⟩
        simp [Ty.compatible, typed.unique other]
    · intro first ill s result after success
      obtain ⟨rest, _, _, success⟩ := Syntax.Parser.reads_bind_ok.mp success
      obtain ⟨rfl, _⟩ : first :: rest = result ∧ _ = after := by
        simpa [reads_pure] using success
      exact ⟨first, by simp, ill _⟩

private theorem ofName?_isWritable {name : Bytes} {shape : Shape}
    (found : Shape.ofName? name = some shape) : shape.isWritable = true := by
  have member := List.mem_of_find?_eq_some found
  simp only [List.mem_cons, List.not_mem_nil, or_false] at member
  rcases member with rfl | rfl | rfl <;> rfl

private theorem shapeWithin_isWritable {fuel : Nat} {cursor after : Cursor} {shape : Shape}
    (success : Cursor.shapeWithin fuel cursor = .ok (shape, after)) :
    shape.isWritable = true := by
  induction fuel generalizing cursor shape after with
  | zero => cases success
  | succ fuel ih =>
    unfold Cursor.shapeWithin at success
    split at success
    · obtain ⟨_, _, success⟩ := bind_eq_ok.mp success
      obtain ⟨_, _, success⟩ := bind_eq_ok.mp success
      obtain ⟨⟨element, _⟩, inner, success⟩ := bind_eq_ok.mp success
      cases success
      have writable : element.isWritable = true := ih inner
      exact writable
    · split at success
      · rename_i named
        obtain ⟨_, _, success⟩ := bind_eq_ok.mp success
        cases success
        unfold Cursor.namedShape? at named
        split at named
        · exact ofName?_isWritable named
        · cases named
      · cases success

/-- The element type of an empty array is read alike. -/
private theorem elementType_joined {bad : β → Prop}
    {good : α → β → Cursor → Generator → Buffers → Prop} {next : Shape → Compiler α}
    {continuation : Shape → Parser β} {cursor : Cursor} {g : Generator} {out : Buffers}
    (rest : ∀ shape cursor, shape.isWritable = true →
      Joined platform bad good (next shape) (continuation shape) cursor g out) :
    Joined platform bad good (readTokens Cursor.shape >>= next)
      (Syntax.Parser.elementType >>= continuation) cursor g out := by
  have moved : Joined platform (fun _ => False)
      (fun a b _ g' out' => a = b ∧ a.isWritable = true ∧ g' = g ∧ out' = out)
      (readTokens Cursor.shape) Syntax.Parser.elementType cursor g out := by
    unfold Joined
    rw [perform_readTokens, Syntax.Parser.reads_elementType]
    simp only [State.of, Session.of]
    cases read : cursor.shape with
    | error d => exact .same
    | ok result =>
      obtain ⟨shape, after⟩ := result
      exact .both after g out ⟨rfl, shapeWithin_isWritable read, rfl, rfl⟩
  refine moved.bind ?_ ?_
  · rintro shape _ cursor _ _ ⟨rfl, writable, rfl, rfl⟩
    exact rest shape cursor writable
  · intro _ impossible
    cases impossible

private theorem array_illTyped {context : Context} {first : Expr} {rest : List Expr}
    {element : Shape} (typed : HasType context first element)
    (ill : ∃ e ∈ rest, ¬ HasType context e element) : (Expr.array first rest).IllTyped context := by
  intro shape whole
  cases whole with
  | array head others =>
    obtain ⟨e, member, wrong⟩ := ill
    exact wrong (head.unique typed ▸ others e member)

/-- The elements are captured while they are read, and come after the allocation in the end. -/
private theorem array_joined {step : Compiler Ty} {parser : Parser Expr}
    (inner : ReadsExpression platform step parser) :
    ReadsExpression platform (array step) (Syntax.Parser.array parser) := by
  intro cursor g out
  unfold array Syntax.Parser.array
  refine .parserCurrent ?_
  by_cases here : cursor.current.is "]" = true
  · refine .acceptHere here ?_
    simp only [here, if_true]
    refine .next fun cursor => elementType_joined fun shape cursor writable => ?_
    refine .compile (perform_allocateElements ..) rfl (.emit (.pure ?_))
    refine ⟨.emptyArray writable, rfl, ?_⟩
    simp only [Generator.expression, Generator.allocation, Buffers.add_add]
    rfl
  refine .acceptElsewhere here ?_
  simp only [here, Bool.false_eq_true, if_false]
  refine .compile (perform_beginCapture ..) rfl (.bind (inner ..) ?_ ?_)
  · rintro type first cursor _ _ ⟨typed, rfl, rfl⟩
    simp only [storeElement, bind_assoc]
    refine .emit (.emit (.remaining (.parserRemaining (.bind (elements_joined inner ..) ?_ ?_))))
    · rintro count rest cursor _ _ ⟨rfl, others, rfl, rfl⟩
      simp only [Generator.expression_context] at others
      simp only [Buffers.add_add]
      refine .compile (perform_endCapture ..) rfl ?_
      refine .compile (perform_allocateElements ..) rfl ?_
      refine .emit (.emit (.emit (.emit (.pure ?_))))
      refine ⟨.array typed others, ?_, ?_⟩
      · simp only [Generator.expression, Generator.shapeOf_eq typed]
        rfl
      · have number : ((1 + rest.length : Nat) : Int) = ((rest.length + 1 : Nat) : Int) := by omega
        simp only [Generator.expression, Generator.shapeOf_eq typed, Generator.allocation, number,
          Buffers.add_add, List.append_assoc]
        rfl
    · intro rest ill s result after success
      obtain ⟨rfl, _⟩ : Expr.array first rest = result ∧ s = after := by
        simpa [reads_pure] using success
      simp only [Generator.expression_context] at ill
      exact array_illTyped typed ill
  · intro first ill s result after success
    obtain ⟨_, _, _, success⟩ := Syntax.Parser.reads_bind_ok.mp success
    obtain ⟨rest, _, _, success⟩ := Syntax.Parser.reads_bind_ok.mp success
    obtain ⟨rfl, _⟩ : Expr.array first rest = result ∧ _ = after := by
      simpa [reads_pure] using success
    intro shape whole
    cases whole with
    | array head _ => exact ill _ head

/-- What starts with a bracket. -/
private theorem bracket_joined {step : Compiler Ty} {parser : Parser Expr}
    (inner : ReadsExpression platform step parser) (cursor : Cursor) (g : Generator)
    (out : Buffers) :
    Joined platform (Expr.IllTyped g.context)
      (fun type e _ after result => Compiled platform g out type e after result)
      (if cursor.current.is "(" then do
        next
        let type ← step
        expect ")"
        return type
      else if cursor.current.is "[" then do
        next
        array step
      else fail cursor.current (.unexpected cursor.current))
      (if cursor.current.is "(" then do
        Syntax.Parser.next
        let e ← parser
        Syntax.Parser.expect ")"
        return e
      else if cursor.current.is "[" then do
        Syntax.Parser.next
        Syntax.Parser.array parser
      else Syntax.Parser.fail cursor.current (.unexpected cursor.current))
      cursor g out := by
  by_cases round : cursor.current.is "(" = true
  · simp only [round, if_true]
    refine .next fun cursor => .bind (inner ..) ?_ ?_
    · intro type e cursor _ _ compiled
      exact .expect fun cursor => .pure compiled
    · intro e ill s result after success
      obtain ⟨_, _, _, success⟩ := Syntax.Parser.reads_bind_ok.mp success
      obtain ⟨rfl, _⟩ : e = result ∧ _ = after := by simpa [reads_pure] using success
      exact ill
  simp only [round, Bool.false_eq_true, if_false]
  by_cases square : cursor.current.is "[" = true
  · simp only [square, if_true]
    exact .next fun cursor => array_joined inner cursor g out
  · simp only [square, Bool.false_eq_true, if_false]
    exact .fail

private theorem unary_joined {step : Compiler Ty} {parser : Parser Expr}
    (inner : ReadsExpression platform step parser) :
    ReadsExpression platform (unary step) (Syntax.Parser.unary parser) := by
  intro cursor g out
  unfold unary Syntax.Parser.unary
  refine .current (.parserCurrent ?_)
  cases cursor.current.kind with
  | ident => exact selected_joined inner cursor g out
  | int => exact .emit (.next fun cursor => .pure ⟨.int _, rfl, rfl⟩)
  | char => exact .emit (.next fun cursor => .pure ⟨.char _, rfl, rfl⟩)
  | string =>
    refine .compile (perform_addString ..) (Generator.pool_scope ..) ?_
    exact .emit (.next fun cursor => .pure ⟨.string _, rfl, rfl⟩)
  | eof | keyword | op | other => exact bracket_joined inner cursor g out

private theorem operation?_negate (type : Ty) :
    Codegen.operation? type .negate = if type.shape = .int then some Codegen.negate else none := by
  rcases type with ⟨_ | _ | _ | _ | _, _⟩ <;> rfl

private theorem factor_joined {step : Compiler Ty} {parser : Parser Expr}
    (inner : ReadsExpression platform step parser) :
    ReadsExpression platform (factor step) (Syntax.Parser.factor parser) := by
  intro cursor g out
  unfold factor Syntax.Parser.factor
  refine .current (.parserCurrent ?_)
  by_cases minus : cursor.current.is "-" = true
  · simp only [minus, if_true]
    refine .next fun cursor => .bind (unary_joined inner ..) ?_ ?_
    · rintro type operand cursor _ _ ⟨typed, rfl, rfl⟩
      rw [operation?_negate]
      by_cases number : type.shape = .int
      · rw [if_pos number]
        refine .emit (.pure ⟨?_, rfl, ?_⟩)
        · rw [number] at typed ⊢
          exact .negate typed
        · simp only [Generator.expression, Buffers.add_add]
      · rw [if_neg number]
        refine .reject (.inr rfl) fun s result after success => ?_
        obtain ⟨rfl, _⟩ : Expr.negate operand = result ∧ s = after := by
          simpa [reads_pure] using success
        intro shape whole
        cases whole with
        | negate other => exact number (typed.unique other)
    · intro operand ill s result after success
      obtain ⟨rfl, _⟩ : Expr.negate operand = result ∧ s = after := by
        simpa [reads_pure] using success
      intro shape whole
      cases whole with
      | negate other => exact ill _ other
  · simp only [minus, Bool.false_eq_true, if_false]
    exact unary_joined inner cursor g out

theorem expressionWithin_joined (platform : Platform) (fuel : Nat) :
    ReadsExpression platform (expressionWithin fuel) (Syntax.Parser.expressionWithin fuel) := by
  induction fuel with
  | zero =>
    intro cursor g out
    exact .current (.parserCurrent .fail)
  | succ fuel ih => exact binary_joined (binary_joined (binary_joined (factor_joined ih)))

/-- Expressions are compiled and parsed in step. -/
theorem expression_joined (platform : Platform) :
    ReadsExpression platform expression Syntax.Parser.expression := by
  intro cursor g out
  exact .remaining (.parserRemaining (expressionWithin_joined platform _ cursor g out))

end Compiler

end Onepass
