import Mathlib
import Onepass.Syntax.Tree

/-! The typing rules of the language, stated on syntax trees. A variable has the type of the first
assignment to it in the text; blocks and branches share one scope, which grows in textual order.
The rules give every expression at most one type, and `Expr.shape?` finds it. -/
namespace Onepass

/-- Erasing duplicates leaves none. -/
theorem nodup_eraseDups (names : List Bytes) : names.eraseDups.Nodup := by
  induction length : names.length using Nat.strong_induction_on generalizing names with
  | _ n ih =>
    cases names with
    | nil => simp
    | cons first rest =>
      rw [List.eraseDups_cons, List.nodup_cons]
      constructor
      · simp
      · refine ih _ ?_ _ rfl
        rw [← length]
        exact Nat.lt_succ_of_le (List.length_filter_le _ _)

/-- Types of which values can be compared and branched on. -/
def Shape.IsScalar (shape : Shape) : Prop := shape = .int ∨ shape = .char

/-- Whether programs can write the type. -/
def Shape.isWritable : Shape → Bool
  | .int | .char | .string => true
  | .array element => element.isWritable
  | .other => false

namespace Syntax

/-- The variables assigned so far with their types, in the order of their first assignments. -/
abbrev Context := List (Bytes × Shape)

/-- The typing rules of expressions. -/
inductive HasType (context : Context) : Expr → Shape → Prop where
  | int (value : Int32) : HasType context (.int value) .int
  | char (value : Int32) : HasType context (.char value) .char
  | string (value : Bytes) : HasType context (.string value) .string
  | variable {name : Bytes} {shape : Shape} (known : context.lookup name = some shape) :
      HasType context (.variable name) shape
  | arithmetic {operator : Operator} {left right : Expr}
      (plain : operator ∈ [Operator.add, .sub, .mul, .div])
      (first : HasType context left .int) (second : HasType context right .int) :
      HasType context (.binary operator left right) .int
  | compare {comparison : Machine.Comparison} {left right : Expr} {shape : Shape}
      (scalar : shape.IsScalar)
      (first : HasType context left shape) (second : HasType context right shape) :
      HasType context (.binary (.compare comparison) left right) .int
  | negate {operand : Expr} (number : HasType context operand .int) :
      HasType context (.negate operand) .int
  | selectChar {left selector : Expr} (container : HasType context left .string)
      (number : HasType context selector .int) : HasType context (.index left selector) .char
  | selectElement {left selector : Expr} {element : Shape}
      (container : HasType context left (.array element))
      (number : HasType context selector .int) : HasType context (.index left selector) element
  | array {first : Expr} {rest : List Expr} {element : Shape}
      (head : HasType context first element)
      (others : ∀ e ∈ rest, HasType context e element) :
      HasType context (.array first rest) (.array element)
  | emptyArray {element : Shape} (writable : element.isWritable = true) :
      HasType context (.emptyArray element) (.array element)

/-- The typing rules of statements, with the scope before and after. The statements of a block are
checked one after the other. -/
inductive Typed : Context → Stmt → Context → Prop where
  | declare {context : Context} {name : Bytes} {value : Expr} {shape : Shape}
      (fresh : context.lookup name = none) (typed : HasType context value shape) :
      Typed context (.declare name value) (context ++ [(name, shape)])
  | assign {context : Context} {name : Bytes} {value : Expr} {shape : Shape}
      (known : context.lookup name = some shape) (typed : HasType context value shape) :
      Typed context (.assign name value) context
  | store {context : Context} {container selector value : Expr} {element : Shape}
      (array : HasType context container (.array element))
      (number : HasType context selector .int) (typed : HasType context value element) :
      Typed context (.store container selector value) context
  | print {context : Context} {value : Expr} {shape : Shape}
      (printable : shape.IsScalar ∨ shape = .string) (typed : HasType context value shape) :
      Typed context (.print value) context
  | ifThen {context after : Context} {condition : Expr} {body : Stmt} {shape : Shape}
      (scalar : shape.IsScalar) (typed : HasType context condition shape)
      (inner : Typed context body after) : Typed context (.ifThen condition body) after
  | ifElse {context middle after : Context} {condition : Expr} {body other : Stmt} {shape : Shape}
      (scalar : shape.IsScalar) (typed : HasType context condition shape)
      (first : Typed context body middle) (second : Typed middle other after) :
      Typed context (.ifElse condition body other) after
  | loop {context after : Context} {condition : Expr} {body : Stmt} {shape : Shape}
      (scalar : shape.IsScalar) (typed : HasType context condition shape)
      (inner : Typed context body after) : Typed context (.loop condition body) after
  | done {context : Context} : Typed context (.block []) context
  | next {context middle after : Context} {first : Stmt} {rest : List Stmt}
      (head : Typed context first middle) (tail : Typed middle (.block rest) after) :
      Typed context (.block (first :: rest)) after

/-- A program is checked like a block, from an empty scope. -/
def WellTyped (program : List Stmt) (locals : Context) : Prop :=
  Typed [] (.block program) locals

/-- The type of an operator's result on operands of one type. -/
def operatorShape? : Operator → Shape → Option Shape
  | .compare _, .int => some .int
  | .compare _, .char => some .int
  | .compare _, _ => none
  | _, .int => some .int
  | _, _ => none

mutual

/-- The type of an expression, when it has one. -/
def Expr.shape? (context : Context) : Expr → Option Shape
  | .int _ => some .int
  | .char _ => some .char
  | .string _ => some .string
  | .variable name => context.lookup name
  | .binary operator left right =>
    match left.shape? context, right.shape? context with
    | some a, some b => if a = b then operatorShape? operator a else none
    | _, _ => none
  | .negate operand => if operand.shape? context = some .int then some .int else none
  | .index left selector =>
    if selector.shape? context = some .int then (left.shape? context).bind Shape.element?
    else none
  | .array first rest =>
    match first.shape? context with
    | some element => if Expr.allShaped context element rest then some (.array element) else none
    | none => none
  | .emptyArray element => if element.isWritable then some (.array element) else none

/-- Whether all expressions have a type. -/
def Expr.allShaped (context : Context) (shape : Shape) : List Expr → Bool
  | [] => true
  | first :: rest => first.shape? context = some shape && Expr.allShaped context shape rest

end

theorem operatorShape?_eq_some {operator : Operator} {operands result : Shape}
    (found : operatorShape? operator operands = some result) :
    (operator ∈ [Operator.add, .sub, .mul, .div] ∧ operands = .int ∧ result = .int) ∨
      (∃ comparison, operator = .compare comparison) ∧ operands.IsScalar ∧ result = .int := by
  cases operator <;> cases operands <;> simp_all [operatorShape?, Shape.IsScalar]

mutual

theorem Expr.hasType_of_shape? {context : Context} (e : Expr) {shape : Shape}
    (found : e.shape? context = some shape) : HasType context e shape := by
  match e with
  | .int value =>
    obtain rfl : Shape.int = shape := by simpa [Expr.shape?] using found
    exact .int value
  | .char value =>
    obtain rfl : Shape.char = shape := by simpa [Expr.shape?] using found
    exact .char value
  | .string value =>
    obtain rfl : Shape.string = shape := by simpa [Expr.shape?] using found
    exact .string value
  | .variable name => exact .variable (by simpa [Expr.shape?] using found)
  | .binary operator left right =>
    simp only [Expr.shape?] at found
    split at found
    · rename_i a b leftShape rightShape
      split at found
      · rename_i same
        subst same
        have first := Expr.hasType_of_shape? left leftShape
        have second := Expr.hasType_of_shape? right rightShape
        rcases operatorShape?_eq_some found with ⟨plain, rfl, rfl⟩ | ⟨⟨_, rfl⟩, scalar, rfl⟩
        · exact .arithmetic plain first second
        · exact .compare scalar first second
      · cases found
    · cases found
  | .negate operand =>
    simp only [Expr.shape?] at found
    split at found
    · rename_i number
      obtain rfl : Shape.int = shape := by simpa using found
      exact .negate (Expr.hasType_of_shape? operand number)
    · cases found
  | .index left selector =>
    simp only [Expr.shape?] at found
    split at found
    · rename_i number
      obtain ⟨container, known, element⟩ := Option.bind_eq_some_iff.mp found
      have selected := Expr.hasType_of_shape? selector number
      have typed := Expr.hasType_of_shape? left known
      cases container <;> simp only [Shape.element?, Option.some.injEq, reduceCtorEq] at element
      · subst element
        exact .selectChar typed selected
      · subst element
        exact .selectElement typed selected
    · cases found
  | .array first rest =>
    simp only [Expr.shape?] at found
    split at found
    · rename_i element known
      split at found
      · rename_i others
        obtain rfl : Shape.array element = shape := by simpa using found
        exact .array (Expr.hasType_of_shape? first known) (Expr.hasType_of_allShaped rest others)
      · cases found
    · cases found
  | .emptyArray element =>
    obtain ⟨writable, rfl⟩ : element.isWritable = true ∧ Shape.array element = shape := by
      simpa [Expr.shape?] using found
    exact .emptyArray writable

theorem Expr.hasType_of_allShaped {context : Context} {shape : Shape} (rest : List Expr)
    (all : Expr.allShaped context shape rest = true) : ∀ e ∈ rest, HasType context e shape := by
  match rest with
  | [] => simp
  | first :: others =>
    simp only [Expr.allShaped, Bool.and_eq_true, decide_eq_true_eq] at all
    have head := Expr.hasType_of_shape? first all.1
    have tail := Expr.hasType_of_allShaped others all.2
    intro e member
    rcases List.mem_cons.mp member with same | later
    · exact same ▸ head
    · exact tail e later

end

private theorem allShaped_of_forall {context : Context} {shape : Shape} {rest : List Expr}
    (all : ∀ e ∈ rest, e.shape? context = some shape) :
    Expr.allShaped context shape rest = true := by
  induction rest with
  | nil => rfl
  | cons first others ih =>
    simp only [Expr.allShaped, Bool.and_eq_true, decide_eq_true_eq]
    exact ⟨all first (by simp), ih fun e member => all e (by simp [member])⟩

theorem HasType.shape?_eq {context : Context} {e : Expr} {shape : Shape}
    (typed : HasType context e shape) : e.shape? context = some shape := by
  induction typed with
  | int | char | string => rfl
  | emptyArray writable => simp [Expr.shape?, writable]
  | «variable» known => simpa [Expr.shape?] using known
  | arithmetic plain _ _ first second =>
    simp only [List.mem_cons, List.not_mem_nil, or_false] at plain
    rcases plain with rfl | rfl | rfl | rfl <;>
      simp [Expr.shape?, first, second, operatorShape?]
  | compare scalar _ _ first second =>
    rcases scalar with rfl | rfl <;> simp [Expr.shape?, first, second, operatorShape?]
  | negate _ number => simp [Expr.shape?, number]
  | selectChar _ _ container number => simp [Expr.shape?, container, number, Shape.element?]
  | selectElement _ _ container number => simp [Expr.shape?, container, number, Shape.element?]
  | array _ _ head others => simp [Expr.shape?, head, allShaped_of_forall others]

/-- The rules and the function that finds types say the same. -/
theorem Expr.shape?_eq_some_iff {context : Context} {e : Expr} {shape : Shape} :
    e.shape? context = some shape ↔ HasType context e shape :=
  ⟨Expr.hasType_of_shape? e, HasType.shape?_eq⟩

theorem HasType.unique {context : Context} {e : Expr} {a b : Shape} (first : HasType context e a)
    (second : HasType context e b) : a = b :=
  Option.some.inj (first.shape?_eq.symm.trans second.shape?_eq)

/-- The operands of a well typed operation have one type, to which the operator applies. -/
theorem HasType.operands {context : Context} {operator : Operator} {left right : Expr}
    {shape : Shape} (typed : HasType context (.binary operator left right) shape) :
    ∃ a, HasType context left a ∧ HasType context right a ∧
      operatorShape? operator a = some shape := by
  cases typed with
  | arithmetic plain first second =>
    refine ⟨.int, first, second, ?_⟩
    simp only [List.mem_cons, List.not_mem_nil, or_false] at plain
    rcases plain with rfl | rfl | rfl | rfl <;> rfl
  | compare scalar first second =>
    rcases scalar with rfl | rfl
    · exact ⟨.int, first, second, rfl⟩
    · exact ⟨.char, first, second, rfl⟩

theorem HasType.index {context : Context} {left selector : Expr} {container element : Shape}
    (typed : HasType context left container) (number : HasType context selector .int)
    (found : container.element? = some element) :
    HasType context (.index left selector) element := by
  cases container <;> simp only [Shape.element?, Option.some.injEq, reduceCtorEq] at found
  · exact found ▸ .selectChar typed number
  · exact found ▸ .selectElement typed number

/-- What a well typed selection is made of. -/
theorem HasType.parts {context : Context} {left selector : Expr} {element : Shape}
    (typed : HasType context (.index left selector) element) :
    ∃ container, HasType context left container ∧ container.element? = some element ∧
      HasType context selector .int := by
  cases typed with
  | selectChar container number => exact ⟨_, container, rfl, number⟩
  | selectElement container number => exact ⟨_, container, rfl, number⟩

/-- Variables that are added later do not change the type of an expression. -/
theorem HasType.weaken {context : Context} {e : Expr} {shape : Shape} (later : Context)
    (typed : HasType context e shape) : HasType (context ++ later) e shape := by
  induction typed with
  | int value => exact .int value
  | char value => exact .char value
  | string value => exact .string value
  | «variable» known => exact .variable (by simp [List.lookup_append, known])
  | arithmetic plain _ _ first second => exact .arithmetic plain first second
  | compare scalar _ _ first second => exact .compare scalar first second
  | negate _ number => exact .negate number
  | selectChar _ _ container number => exact .selectChar container number
  | selectElement _ _ container number => exact .selectElement container number
  | array _ _ head others => exact .array head others
  | emptyArray writable => exact .emptyArray writable

/-- Expressions over variables of types that can be written have such types. -/
theorem HasType.writable {context : Context} {e : Expr} {shape : Shape}
    (typed : HasType context e shape) (all : ∀ entry ∈ context, entry.2.isWritable = true) :
    shape.isWritable = true := by
  induction typed with
  | int | char | string | arithmetic | compare | negate | selectChar => rfl
  | «variable» known =>
    obtain ⟨_, _, rfl, _⟩ := List.lookup_eq_some_iff.mp known
    exact all (_, _) (List.mem_append_right _ (List.mem_cons_self ..))
  | selectElement _ _ container _ => exact container
  | array _ _ head _ => exact head
  | emptyArray writable => exact writable

/-- Checking a statement only adds variables. -/
theorem Typed.extends {before after : Context} {s : Stmt} (typed : Typed before s after) :
    ∃ later, after = before ++ later := by
  induction typed with
  | declare => exact ⟨_, rfl⟩
  | assign | store | print | done => exact ⟨[], by simp⟩
  | ifThen _ _ _ inner | loop _ _ _ inner => exact inner
  | ifElse _ _ _ _ first second | next _ _ first second =>
    obtain ⟨one, rfl⟩ := first
    obtain ⟨two, rfl⟩ := second
    exact ⟨one ++ two, by simp⟩

theorem Typed.unique {before first second : Context} {s : Stmt} (one : Typed before s first)
    (two : Typed before s second) : first = second := by
  induction one generalizing second with
  | declare _ typed =>
    cases two with
    | declare _ other => rw [typed.unique other]
  | assign | store | print | done => cases two; rfl
  | ifThen _ _ _ ih =>
    cases two with
    | ifThen _ _ inner => exact ih inner
  | loop _ _ _ ih =>
    cases two with
    | loop _ _ inner => exact ih inner
  | ifElse _ _ _ _ ih₁ ih₂ =>
    cases two with
    | ifElse _ _ inner last =>
      obtain rfl := ih₁ inner
      exact ih₂ last
  | next _ _ ih₁ ih₂ =>
    cases two with
    | next head tail =>
      obtain rfl := ih₁ head
      exact ih₂ tail

mutual

/-- The names that plain assignments give values to, in textual order. -/
def Stmt.assignments : Stmt → List Bytes
  | .declare name _ | .assign name _ => [name]
  | .store .. | .print _ => []
  | .ifThen _ body | .loop _ body => body.assignments
  | .ifElse _ body other => body.assignments ++ other.assignments
  | .block body => Stmt.allAssignments body

def Stmt.allAssignments : List Stmt → List Bytes
  | [] => []
  | first :: rest => first.assignments ++ Stmt.allAssignments rest

end

private theorem removeAll_append_eraseDups (later known first : List Bytes) :
    later.removeAll (known ++ (first.removeAll known).eraseDups) =
      (later.removeAll known).removeAll (first.removeAll known) := by
  simp only [List.removeAll, List.filter_filter]
  refine List.filter_congr fun name _ => ?_
  rw [Bool.eq_iff_iff]
  simpa [List.mem_eraseDups] using and_comm

/-- Checking a statement adds the names it is the first to assign, in textual order. -/
theorem Typed.names {before after : Context} {s : Stmt} (typed : Typed before s after) :
    after.map Prod.fst =
      before.map Prod.fst ++ (s.assignments.removeAll (before.map Prod.fst)).eraseDups := by
  induction typed with
  | @declare context name _ _ fresh typed =>
    have new : name ∉ context.map Prod.fst := by
      intro member
      obtain ⟨entry, known, same⟩ := List.mem_map.mp member
      have other := List.lookup_eq_none_iff.mp fresh entry known
      simp [same] at other
    have kept : [name].removeAll (context.map Prod.fst) = [name] := by
      simp [List.removeAll, new]
    rw [Stmt.assignments, kept, List.map_append]
    rfl
  | assign known typed =>
    obtain ⟨first, rest, rfl, _⟩ := List.lookup_eq_some_iff.mp known
    simp [Stmt.assignments, List.removeAll]
  | store | print | done => simp [Stmt.assignments, Stmt.allAssignments, List.removeAll]
  | ifThen _ _ _ inner | loop _ _ _ inner => exact inner
  | ifElse _ _ _ _ first second =>
    rw [second, first, removeAll_append_eraseDups]
    simp [Stmt.assignments, List.removeAll, List.eraseDups_append]
  | next _ _ first second =>
    rw [second, first, removeAll_append_eraseDups]
    simp [Stmt.assignments, Stmt.allAssignments, List.removeAll, List.eraseDups_append]

end Syntax

end Onepass
