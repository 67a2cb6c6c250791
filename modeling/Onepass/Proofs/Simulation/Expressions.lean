import Onepass.Proofs.Extent
import Onepass.Proofs.Simulation.Arrays
import Onepass.Proofs.Vocabulary

/-! The code of every expression computes its value. The proof goes along the recursion of the
generator: what is known about the parts of an expression gives what is known about the whole. -/
namespace Onepass.Simulation

open Assembly (Code)
open Interpreter (arraySize)
open Machine
open Syntax (Context Expr HasType)

/-- Whether a generator has given out slots and strings that a program has. -/
structure Agrees (P : Setting) (g : Generator) : Prop where
  laid : g.LaidOut
  locals : g.context <+: P.locals
  strings : g.strings <+: P.strings

section

variable {P : Setting} {g : Generator} {name : Bytes} {shape : Shape}

/-- The slot of a variable in scope. -/
theorem Agrees.slot (agrees : Agrees P g) (known : g.context.lookup name = some shape) :
    ∃ i, g.scope.find? name = some ⟨name, .ofShape shape, i⟩ ∧
      P.locals[i]? = some (name, shape) := by
  have found (context : Context) (start : Nat) (known : context.lookup name = some shape) :
      ∃ i, ((context.zipIdx start).map fun entry =>
          (⟨entry.1.1, .ofShape entry.1.2, entry.2⟩ : Variable Ty)).find? (·.name = name) =
        some ⟨name, .ofShape shape, start + i⟩ ∧ context[i]? = some (name, shape) := by
    induction context generalizing start with
    | nil => cases known
    | cons entry rest ih =>
      rcases entry with ⟨first, type⟩
      by_cases same : first = name
      · subst same
        obtain rfl : type = shape := by simpa using known
        exact ⟨0, by simp, rfl⟩
      · have differ : (name == first) = false := beq_eq_false_iff_ne.mpr (Ne.symm same)
        obtain ⟨i, there, here⟩ := ih (start + 1) (by simpa [List.lookup, differ] using known)
        refine ⟨i + 1, ?_, by simpa using here⟩
        simp only [List.zipIdx_cons, List.map_cons, List.find?_cons, same, decide_false, there]
        simp [Nat.add_assoc, Nat.add_comm 1]
  obtain ⟨i, there, here⟩ := found g.context 0 known
  refine ⟨i, ?_, ?_⟩
  · rw [agrees.laid, Scope.find?, Generator.slots, there, Nat.zero_add]
  · obtain ⟨more, same⟩ := agrees.locals
    rw [← same, List.getElem?_append_left (List.getElem?_eq_some_iff.mp here).1]
    exact here

/-- What was given out before an expression. -/
theorem Agrees.before {e : Expr} (agrees : Agrees P (g.expression P.platform e).2) :
    Agrees P g where
  laid := Generator.laidOut_expression.mp agrees.laid
  locals := by
    rw [← Generator.expression_context P.platform e g]
    exact agrees.locals
  strings := (Generator.strings_expression P.platform e g).trans agrees.strings

theorem Agrees.beforeElements {element : Shape} {position : Nat} (rest : List Expr)
    (agrees : Agrees P (g.elements P.platform element position rest).2) : Agrees P g where
  laid := by
    have laid := agrees.laid
    simpa only [Generator.LaidOut, Generator.elements_context, Generator.elements_scope] using laid
  locals := by
    rw [← Generator.elements_context P.platform element position rest g]
    exact agrees.locals
  strings := (Generator.strings_elements P.platform element rest position g).trans agrees.strings

/-- A literal is in the pool at the place that its label tells. -/
theorem Agrees.pooled {value : Bytes} (agrees : Agrees P (g.pool value).2) :
    ∃ index, (g.pool value).1 = Codegen.Builder.stringLabel index ∧
      P.strings[index]? = some value := by
  obtain ⟨more, same⟩ := agrees.strings
  have found : ∃ index, (g.pool value).1 = Codegen.Builder.stringLabel index ∧
      (g.pool value).2.strings[index]? = some value := by
    unfold Generator.pool
    split
    · rename_i index known
      obtain ⟨bound, here, _⟩ := List.findIdx?_eq_some_iff_getElem.mp known
      exact ⟨index, rfl, by rw [List.getElem?_eq_getElem bound]; simpa using here⟩
    · exact ⟨g.strings.length, rfl, by simp⟩
  obtain ⟨index, label, here⟩ := found
  refine ⟨index, label, ?_⟩
  rw [← same, List.getElem?_append_left (List.getElem?_eq_some_iff.mp here).1]
  exact here

/-- The size of an array literal is a machine word. -/
theorem arraySize_lt {element : Shape} {count : Nat} (few : count < 0x20000000) :
    arraySize element count < 0x100000000 := by
  have size : element.size ≤ 4 := by cases element <;> simp [Shape.size, wordSize]
  have product : count * element.size ≤ count * 4 := Nat.mul_le_mul_left _ size
  simp only [arraySize, wordSize]
  omega

/-- Elements have types that programs can write. -/
theorem Agrees.writable {e : Expr} (agrees : Agrees P g) (valid : P.Valid)
    (typed : HasType g.context e shape) : shape.isWritable = true := by
  apply typed.writable
  intro entry member
  exact valid.writable entry (agrees.locals.subset member)

/-- The types of the variables tell the type of an expression at any later point. -/
theorem Agrees.shape? {e : Expr} (agrees : Agrees P g) (typed : HasType g.context e shape) :
    e.shape? P.locals = some shape := by
  obtain ⟨later, same⟩ := agrees.locals
  rw [← same]
  exact (typed.weaken later).shape?_eq

mutual

/-- The code of an expression computes its value. -/
theorem computes_expression (valid : P.Valid) (e : Expr) {g : Generator} {shape : Shape}
    (agrees : Agrees P (g.expression P.platform e).2) (narrow : e.IsNarrow)
    (typed : HasType g.context e shape) :
    Computes P (g.expression P.platform e).1 shape (Interpreter.eval P.locals e) := by
  match e with
  | .int value =>
    cases typed
    exact computes_int value
  | .char value =>
    cases typed
    exact computes_char narrow
  | .string value =>
    cases typed
    obtain ⟨index, label, known⟩ := agrees.pooled
    simp only [Generator.expression, label]
    exact computes_string valid known
  | .variable name =>
    have known : g.context.lookup name = some shape := typed.shape?_eq
    obtain ⟨i, found, known⟩ := agrees.before.slot known
    have code : (g.expression P.platform (.variable name)).1 =
        Codegen.load (.ofShape shape) i := by
      simp only [Generator.expression, found]
      rfl
    rw [code, Interpreter.eval]
    exact computes_variable known
  | .binary operator left right =>
    obtain ⟨operands, first, second, result⟩ := typed.operands
    have fine : Operands operator operands ∧ shape = .int := by
      rcases Syntax.operatorShape?_eq_some result with ⟨_, rfl, rfl⟩ | ⟨compares, scalar, rfl⟩
      · exact ⟨.inl rfl, rfl⟩
      · exact ⟨scalar.imp id fun char => ⟨char, compares⟩, rfl⟩
    obtain ⟨fine, rfl⟩ := fine
    rw [← Generator.expression_context P.platform left g] at second
    rw [Interpreter.eval]
    exact computes_binary fine
      (computes_expression valid left (Agrees.before (e := right) agrees) narrow.1 first)
      (computes_expression valid right agrees narrow.2 second)
  | .negate operand =>
    cases typed with | negate number =>
    rw [Interpreter.eval]
    exact computes_negate (computes_expression valid operand agrees narrow number)
  | .index left selector =>
    obtain ⟨container, typed, found, number⟩ := typed.parts
    have element : g.elementOf left = shape := Generator.elementOf_eq typed found
    rw [← Generator.expression_context P.platform left g] at number
    rw [Interpreter.eval, Generator.expression, element]
    exact computes_index valid
      (computes_expression valid left (Agrees.before (e := selector) agrees) narrow.1 typed)
      (computes_expression valid selector agrees narrow.2 number) found
  | .array first rest =>
    cases typed with | @array _ _ element head others =>
    have before := agrees.before
    have inner : (first.shape? P.locals).getD .other = element := by
      rw [before.shape? head]
      rfl
    have kind : g.shapeOf first = element := Generator.shapeOf_eq head
    have tail : ∀ e ∈ rest, HasType (g.expression P.platform first).2.context e element := by
      intro e member
      rw [Generator.expression_context]
      exact others e member
    rw [Generator.expression, kind] at agrees ⊢
    have fills := fills_cons valid
      (computes_expression valid first (Agrees.beforeElements rest agrees) narrow.2.1 head)
      (fills_elements valid rest agrees narrow.2.2 tail)
    have computes := computes_array valid (before.writable valid head) (arraySize_lt narrow.1) fills
    simp only [bind_assoc] at computes
    rw [Interpreter.eval, inner]
    exact computes
  | .emptyArray element =>
    cases typed with | emptyArray writable =>
    rw [Interpreter.eval]
    exact computes_emptyArray valid writable (by simp [arraySize, wordSize])

theorem fills_elements (valid : P.Valid) (rest : List Expr) {g : Generator} {element : Shape}
    {place : Nat} (agrees : Agrees P (g.elements P.platform element place rest).2)
    (narrow : Expr.AllNarrow rest) (typed : ∀ e ∈ rest, HasType g.context e element) :
    Fills P (g.elements P.platform element place rest).1 element place rest.length
      (fun r => Interpreter.fill P.locals r place rest) := by
  match rest with
  | [] => exact fills_nil
  | first :: others =>
    have head := typed first (List.mem_cons_self ..)
    have tail : ∀ e ∈ others, HasType (g.expression P.platform first).2.context e element := by
      intro e member
      rw [Generator.expression_context]
      exact typed e (List.mem_cons_of_mem _ member)
    exact fills_cons valid
      (computes_expression valid first (Agrees.beforeElements others agrees) narrow.1 head)
      (fills_elements valid others agrees narrow.2 tail)

end

end

end Onepass.Simulation
