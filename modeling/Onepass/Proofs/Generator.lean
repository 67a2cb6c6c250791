import Onepass.Codegen.Builder
import Onepass.Proofs.Typing
import Onepass.Scope

/-! Code generation from syntax trees. The code of a tree is put together from the code of its
parts; only the number of the next label, the pool of strings and the table of slots are threaded
from one part to the next. Nothing is captured: the code of an array literal allocates the array,
sets its length, and then computes and stores one element after the other. -/
namespace Onepass

open Assembly (Code)
open Syntax (Context Expr Stmt)

/-- What generation threads through a program. -/
structure Generator where
  nextLabel : Nat := 0
  /-- Distinct string literals in the order of first use. -/
  strings : List Bytes := []
  scope : Scope Ty := {}
deriving DecidableEq

namespace Generator

/-- The types of the variables so far. -/
def context (g : Generator) : Context := g.scope.entries.map fun v => (v.name, v.type.shape)

/-- A label that was not used before. -/
def newLabel (g : Generator) : Bytes × Generator :=
  ("L" ++ Numeral.decimal g.nextLabel, { g with nextLabel := g.nextLabel + 1 })

/-- The label of a string literal, which is pooled when it is new. -/
def pool (value : Bytes) (g : Generator) : Bytes × Generator :=
  match g.strings.findIdx? (· = value) with
  | some index => (Codegen.Builder.stringLabel index, g)
  | none =>
    (Codegen.Builder.stringLabel g.strings.length, { g with strings := g.strings ++ [value] })

/-- Points at the element of a container that a selector picks, less the header. -/
def selection (container selector : Code) (element : Shape) : Code :=
  container ++ Codegen.pushPointer ++ selector ++ Codegen.popPointer ++ Codegen.boundsCheck ++
    Codegen.scaleIndex element.size ++ Codegen.addIndex

/-- Stores the element just computed into the array under the stack top. -/
def storeElement (element : Shape) (position : Nat) : Code :=
  Codegen.peekBase "edx" ++
    Codegen.storeAt (.ofShape element) "edx" (wordSize + position * element.size : Nat)

/-- Allocates an array of `count` elements and sets its length. -/
def allocation (platform : Platform) (element : Shape) (count : Nat) : Code :=
  Codegen.allocate platform (Codegen.wrap (wordSize + count * element.size)) ++
    Codegen.setLength count

/-- The type of the elements of a container. -/
def elementOf (g : Generator) (container : Expr) : Shape :=
  ((container.shape? g.context).bind Shape.element?).getD .other

/-- The type of an expression. -/
def shapeOf (g : Generator) (e : Expr) : Shape := (e.shape? g.context).getD .other

theorem elementOf_eq {g : Generator} {container : Expr} {shape element : Shape}
    (typed : Syntax.HasType g.context container shape) (found : shape.element? = some element) :
    g.elementOf container = element := by
  simp [elementOf, typed.shape?_eq, found]

theorem shapeOf_eq {g : Generator} {e : Expr} {shape : Shape}
    (typed : Syntax.HasType g.context e shape) : g.shapeOf e = shape := by
  simp [shapeOf, typed.shape?_eq]

/-- The context knows the types of the variables in scope. -/
theorem lookup_context (g : Generator) (name : Bytes) :
    g.context.lookup name = (g.scope.find? name).map (·.type.shape) := by
  unfold context Scope.find?
  induction g.scope.entries with
  | nil => rfl
  | cons v rest ih =>
    by_cases same : v.name = name
    · simp [List.find?, same]
    · have differ : (name == v.name) = false := beq_eq_false_iff_ne.mpr (Ne.symm same)
      simp [List.find?, List.lookup, same, differ, ih]

mutual

/-- The code of an expression. -/
def expression (platform : Platform) : Expr → Generator → Code × Generator
  | .int value, g | .char value, g => (Codegen.loadInt value, g)
  | .string value, g =>
    let label := g.pool value
    (Codegen.loadAddress label.1, label.2)
  | .variable name, g => (((g.scope.find? name).map Variable.load).getD [], g)
  | .binary operator left right, g =>
    let first := expression platform left g
    let second := expression platform right first.2
    (first.1 ++ Codegen.pushScalar ++ second.1 ++ Codegen.operator operator, second.2)
  | .negate operand, g =>
    let inner := expression platform operand g
    (inner.1 ++ Codegen.negate, inner.2)
  | .index left selector, g =>
    let container := expression platform left g
    let number := expression platform selector container.2
    let element := g.elementOf left
    (selection container.1 number.1 element ++ Codegen.loadAt (.ofShape element) wordSize,
      number.2)
  | .array first rest, g =>
    let element := g.shapeOf first
    let head := expression platform first g
    let others := elements platform element 1 rest head.2
    (allocation platform element (rest.length + 1) ++ Codegen.pushPointer ++
      (head.1 ++ storeElement element 0 ++ others.1) ++ Codegen.popPointer, others.2)
  | .emptyArray element, g => (allocation platform element 0, g)

/-- The elements of an array literal from a position on, each followed by its store. -/
def elements (platform : Platform) (element : Shape) :
    (position : Nat) → List Expr → Generator → Code × Generator
  | _, [], g => ([], g)
  | position, first :: rest, g =>
    let head := expression platform first g
    let others := elements platform element (position + 1) rest head.2
    (head.1 ++ storeElement element position ++ others.1, others.2)

end

@[simp] theorem pool_scope (value : Bytes) (g : Generator) : (g.pool value).2.scope = g.scope := by
  unfold pool
  split <;> rfl

@[simp] theorem pool_nextLabel (value : Bytes) (g : Generator) :
    (g.pool value).2.nextLabel = g.nextLabel := by
  unfold pool
  split <;> rfl

@[simp] theorem newLabel_context (g : Generator) : g.newLabel.2.context = g.context := rfl

mutual

/-- Expressions declare nothing. -/
theorem expression_scope (platform : Platform) (e : Expr) (g : Generator) :
    (expression platform e g).2.scope = g.scope := by
  match e with
  | .int _ | .char _ | .variable _ | .emptyArray _ => rfl
  | .string value => simp [expression]
  | .binary operator left right =>
    simp only [expression]
    rw [expression_scope platform right, expression_scope platform left]
  | .negate operand =>
    simp only [expression]
    rw [expression_scope platform operand]
  | .index left selector =>
    simp only [expression]
    rw [expression_scope platform selector, expression_scope platform left]
  | .array first rest =>
    simp only [expression]
    rw [elements_scope platform _ _ rest, expression_scope platform first]

theorem elements_scope (platform : Platform) (element : Shape) (position : Nat) (rest : List Expr)
    (g : Generator) : (elements platform element position rest g).2.scope = g.scope := by
  match rest with
  | [] => rfl
  | first :: others =>
    simp only [elements]
    rw [elements_scope platform element _ others, expression_scope platform first]

end

theorem expression_context (platform : Platform) (e : Expr) (g : Generator) :
    (expression platform e g).2.context = g.context := by
  simp only [context, expression_scope]

theorem elements_context (platform : Platform) (element : Shape) (position : Nat)
    (rest : List Expr) (g : Generator) :
    (elements platform element position rest g).2.context = g.context := by
  simp only [context, elements_scope]

/-- The store of a value to a variable, whose name may be new. -/
def assignment (name : Bytes) (shape : Shape) (g : Generator) : Code × Generator :=
  let added := g.scope.add name (.ofShape shape)
  (added.1.store, { g with scope := added.2 })

theorem assignment_context {name : Bytes} {shape : Shape} {g : Generator}
    (fresh : g.scope.find? name = none) :
    (g.assignment name shape).2.context = g.context ++ [(name, shape)] := by
  simp [assignment, Scope.add, fresh, context, Ty.ofShape]

mutual

/-- The code of a statement. -/
def statement (platform : Platform) : Stmt → Generator → Code × Generator
  | .declare name value, g | .assign name value, g =>
    let computed := expression platform value g
    let stored := assignment name (g.shapeOf value) computed.2
    (computed.1 ++ stored.1, stored.2)
  | .store container selector value, g =>
    let array := expression platform container g
    let number := expression platform selector array.2
    let computed := expression platform value number.2
    let element := g.elementOf container
    (selection array.1 number.1 element ++ Codegen.pushPointer ++ computed.1 ++
      Codegen.popBase "edx" ++ Codegen.storeAt (.ofShape element) "edx" wordSize, computed.2)
  | .print value, g =>
    let computed := expression platform value g
    (computed.1 ++ (Codegen.print? platform (.ofShape (g.shapeOf value))).getD [], computed.2)
  | .ifThen condition body, g =>
    let test := expression platform condition g
    let other := newLabel test.2
    let inner := statement platform body other.2
    (test.1 ++ Codegen.jumpIfFalse other.1 ++ inner.1 ++ Codegen.label other.1, inner.2)
  | .ifElse condition body alternative, g =>
    let test := expression platform condition g
    let other := newLabel test.2
    let first := statement platform body other.2
    let finish := newLabel first.2
    let second := statement platform alternative finish.2
    (test.1 ++ Codegen.jumpIfFalse other.1 ++ first.1 ++ Codegen.jump finish.1 ++
      Codegen.label other.1 ++ second.1 ++ Codegen.label finish.1, second.2)
  | .loop condition body, g =>
    let again := newLabel g
    let exit := newLabel again.2
    let test := expression platform condition exit.2
    let inner := statement platform body test.2
    (Codegen.label again.1 ++ test.1 ++ Codegen.jumpIfFalse exit.1 ++ inner.1 ++
      Codegen.jump again.1 ++ Codegen.label exit.1, inner.2)
  | .block body, g => statements platform body g

/-- The code of statements one after the other. -/
def statements (platform : Platform) : List Stmt → Generator → Code × Generator
  | [], g => ([], g)
  | first :: rest, g =>
    let head := statement platform first g
    let tail := statements platform rest head.2
    (head.1 ++ tail.1, tail.2)

end

/-- The variables of a context in the slots of a frame, in order. -/
def slots (context : Context) : Scope Ty :=
  ⟨context.zipIdx.map fun entry => ⟨entry.1.1, .ofShape entry.1.2, entry.2⟩⟩

/-- Whether the variables lie in consecutive slots and none has the type of a literal. -/
def LaidOut (g : Generator) : Prop := g.scope = slots g.context

theorem laidOut_expression {platform : Platform} {e : Expr} {g : Generator} :
    (expression platform e g).2.LaidOut ↔ g.LaidOut := by
  simp only [LaidOut, expression_context, expression_scope]

theorem LaidOut.assignment {g : Generator} (laid : g.LaidOut) (name : Bytes) (shape : Shape) :
    (g.assignment name shape).2.LaidOut := by
  match found : g.scope.find? name with
  | some v => simpa [LaidOut, Generator.assignment, Scope.add, found, context] using laid
  | none =>
    have next : g.scope.size = g.context.length := by simp [context, Scope.size, slotSize]
    have scope : (g.assignment name shape).2.scope =
        ⟨g.scope.entries ++ [⟨name, .ofShape shape, g.context.length⟩]⟩ := by
      simp [Generator.assignment, Scope.add, found, next]
    unfold LaidOut
    rw [scope, assignment_context found, congrArg Scope.entries laid]
    simp [slots, List.zipIdx_append]

mutual

theorem LaidOut.statement {g : Generator} (laid : g.LaidOut) (platform : Platform) (s : Stmt) :
    (g.statement platform s).2.LaidOut := by
  match s with
  | .declare name value | .assign name value =>
    exact (laidOut_expression.mpr laid).assignment _ _
  | .store container selector value =>
    simpa only [Generator.statement, laidOut_expression] using laid
  | .print value => exact laidOut_expression.mpr laid
  | .ifThen condition body =>
    exact LaidOut.statement (g := (expression platform condition g).2.newLabel.2)
      (laidOut_expression.mpr laid) platform body
  | .ifElse condition body other =>
    have first := LaidOut.statement (g := (expression platform condition g).2.newLabel.2)
      (laidOut_expression.mpr laid) platform body
    exact LaidOut.statement (g := Generator.newLabel _ |>.2) first platform other
  | .loop condition body =>
    exact LaidOut.statement (g := (expression platform condition g.newLabel.2.newLabel.2).2)
      (laidOut_expression.mpr laid) platform body
  | .block body => exact LaidOut.statements laid platform body

theorem LaidOut.statements {g : Generator} (laid : g.LaidOut) (platform : Platform)
    (body : List Stmt) : (g.statements platform body).2.LaidOut := by
  match body with
  | [] => exact laid
  | first :: rest => exact LaidOut.statements (LaidOut.statement laid platform first) platform rest

end

/-- Typed statements leave the generator with the variables that their types are checked with. -/
theorem statement_context {before after : Context} {st : Stmt} (typed : Syntax.Typed before st after)
    (platform : Platform) (g : Generator) (same : g.context = before) :
    (g.statement platform st).2.context = after := by
  induction typed generalizing g with
  | @declare context name value shape fresh typed =>
    subst same
    have missing : (g.expression platform value).2.scope.find? name = none := by
      have found := g.lookup_context name
      rw [fresh] at found
      rw [expression_scope]
      exact Option.map_eq_none_iff.mp found.symm
    rw [statement, shapeOf_eq typed, assignment_context missing,
      expression_context]
  | @assign context name value shape known typed =>
    subst same
    obtain ⟨v, found, _⟩ := Option.map_eq_some_iff.mp ((g.lookup_context name).symm.trans known)
    have there : (g.expression platform value).2.scope.find? name = some v := by
      rw [expression_scope]
      exact found
    rw [← expression_context platform value g]
    simp only [statement, assignment, Scope.add, there]
  | store | print =>
    simpa only [statement, expression_context] using same
  | ifThen _ _ _ inner =>
    exact inner _ (by rw [newLabel_context, expression_context, same])
  | ifElse _ _ _ _ first second =>
    exact second _ (first _ (by
      rw [newLabel_context, expression_context, same]))
  | loop _ _ _ inner =>
    exact inner _ (by
      rw [expression_context, newLabel_context, newLabel_context,
        same])
  | done => exact same
  | next _ _ head tail => exact tail _ (head _ same)

/-- The frame of `main` that a program has. -/
def frame (code : Code) (g : Generator) : Codegen.Frame :=
  { name := "main", size := (wordSize * g.scope.size : Nat), body := code }

/-- What a builder holds when this is the code of `main`. -/
def builder (platform : Platform) (code : Code) (g : Generator) : Codegen.Builder :=
  { platform, nextLabel := g.nextLabel, finished := [g.frame code], strings := g.strings }

/-- The code of a program, with what its generation leaves behind. -/
def program (platform : Platform) (tree : List Stmt) : Code × Generator :=
  statements platform tree {}

end Generator

end Onepass
