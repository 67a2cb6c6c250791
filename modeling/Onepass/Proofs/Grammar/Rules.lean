import Mathlib.Tactic.Common
import Onepass.Syntax.Parser

/-! The grammar as derivations from lists of tokens to trees. Every rule of an expression knows the
names that may be read; a statement also tells which names may be read after it.

* program: statement*
* statement: assignment | print | if | while | block
* assignment: name ("[" expression "]")* "=" expression
* print: "print" expression
* if: "if" expression statement ("else" statement)?
* while: "while" expression statement
* block: "{" statement* "}"
* expression: relational
* relational: additive (("<" | ">" | "<=" | ">=" | "==" | "!=") additive)*
* additive: multiplicative (("+" | "-") multiplicative)*
* multiplicative: factor (("*" | "/") factor)*
* factor: "-" unary | unary
* unary: name ("[" expression "]")* | literal | "(" expression ")" | "[" array
* array: "]" type | expression ("," expression)* ","? "]"
* type: ("[" "]")* ("int" | "char" | "string") -/
namespace Onepass.Syntax.Grammar

/-- The nonterminals of expressions. -/
inductive Category
  | level (level : Operator.Level)
  | factor
  | unary
deriving DecidableEq

/-- The nonterminal of whole expressions. -/
abbrev Category.expression : Category := .level .relational

/-- The operands of the operators of a level. -/
def Category.operand : Operator.Level → Category
  | .relational => .level .additive
  | .additive => .level .multiplicative
  | .multiplicative => .factor

/-- Types, as in an empty array. -/
inductive TypeName : List Token → Shape → Prop where
  | name {token : Token} {shape : Shape} (ident : token.kind = .ident)
      (named : Shape.ofName? token.text = some shape) : TypeName [token] shape
  | array {opening closing : Token} {tokens : List Token} {element : Shape}
      (opens : opening.is "[" = true) (closes : closing.is "]" = true)
      (inner : TypeName tokens element) :
      TypeName (opening :: closing :: tokens) (.array element)

mutual

/-- Expressions that read only some names. -/
inductive Phrase (names : List Bytes) : Category → List Token → Expr → Prop where
  /-- A level may have no operator. -/
  | operand {level : Operator.Level} {tokens : List Token} {e : Expr}
      (alone : Phrase names (.operand level) tokens e) : Phrase names (.level level) tokens e
  /-- Operators of a level bind to the left. -/
  | binary {level : Operator.Level} {operator : Operator} {token : Token}
      {first second : List Token} {left right : Expr}
      (before : Phrase names (.level level) first left)
      (found : level.operator? token = some operator)
      (after : Phrase names (.operand level) second right) :
      Phrase names (.level level) (first ++ token :: second) (.binary operator left right)
  | negate {minus : Token} {tokens : List Token} {e : Expr} (sign : minus.is "-" = true)
      (inner : Phrase names .unary tokens e) : Phrase names .factor (minus :: tokens) (.negate e)
  | plain {tokens : List Token} {e : Expr} (inner : Phrase names .unary tokens e) :
      Phrase names .factor tokens e
  | int {token : Token} (kind : token.kind = .int) : Phrase names .unary [token] (.int token.value)
  | char {token : Token} (kind : token.kind = .char) :
      Phrase names .unary [token] (.char token.value)
  | string {token : Token} (kind : token.kind = .string) :
      Phrase names .unary [token] (.string token.text)
  | selected {tokens : List Token} {e : Expr} (inner : Selected names tokens e) :
      Phrase names .unary tokens e
  | parentheses {opening closing : Token} {tokens : List Token} {e : Expr}
      (opens : opening.is "(" = true) (inner : Phrase names .expression tokens e)
      (closes : closing.is ")" = true) :
      Phrase names .unary (opening :: (tokens ++ [closing])) e
  | emptyArray {opening closing : Token} {tokens : List Token} {element : Shape}
      (opens : opening.is "[" = true) (closes : closing.is "]" = true)
      (type : TypeName tokens element) :
      Phrase names .unary (opening :: closing :: tokens) (.emptyArray element)
  /-- A comma may stand before the closing bracket. -/
  | array {opening closing : Token} {comma : Option Token} {first others : List Token} {e : Expr}
      {rest : List Expr} (opens : opening.is "[" = true)
      (head : Phrase names .expression first e) (tail : More names others rest)
      (trails : ∀ token ∈ comma, token.is "," = true) (closes : closing.is "]" = true) :
      Phrase names .unary (opening :: (first ++ (others ++ (comma.toList ++ [closing]))))
        (.array e rest)

/-- A name with selections. -/
inductive Selected (names : List Bytes) : List Token → Expr → Prop where
  | name {token : Token} (ident : token.kind = .ident) (known : token.text ∈ names) :
      Selected names [token] (.variable token.text)
  | index {opening closing : Token} {first second : List Token} {left selector : Expr}
      (before : Selected names first left) (opens : opening.is "[" = true)
      (inner : Phrase names .expression second selector) (closes : closing.is "]" = true) :
      Selected names (first ++ opening :: (second ++ [closing])) (.index left selector)

/-- Expressions, each after a comma. -/
inductive More (names : List Bytes) : List Token → List Expr → Prop where
  | none : More names [] []
  | one {comma : Token} {first others : List Token} {e : Expr} {rest : List Expr}
      (separates : comma.is "," = true) (head : Phrase names .expression first e)
      (tail : More names others rest) : More names (comma :: (first ++ others)) (e :: rest)

end

end Grammar

/-- Whether an `else` after a statement would belong to an `if` in it. -/
def Stmt.endsOpen : Stmt → Bool
  | .ifThen _ _ => true
  | .ifElse _ _ other => other.endsOpen
  | .loop _ body => body.endsOpen
  | _ => false

namespace Grammar

mutual

/-- Statements, with the names that may be read before and after them. -/
inductive Statement : (names : List Bytes) → List Token → Stmt → (after : List Bytes) → Prop where
  /-- The first assignment to a name. Its value cannot read the name yet. -/
  | declare {names : List Bytes} {name equals : Token} {tokens : List Token} {value : Expr}
      (ident : name.kind = .ident) (new : name.text ∉ names) (assigns : equals.is "=" = true)
      (computed : Phrase names .expression tokens value) :
      Statement names (name :: equals :: tokens) (.declare name.text value) (name.text :: names)
  | assign {names : List Bytes} {name equals : Token} {tokens : List Token} {value : Expr}
      (ident : name.kind = .ident) (known : name.text ∈ names) (assigns : equals.is "=" = true)
      (computed : Phrase names .expression tokens value) :
      Statement names (name :: equals :: tokens) (.assign name.text value) names
  | store {names : List Bytes} {equals : Token} {target tokens : List Token}
      {container selector value : Expr}
      (selected : Selected names target (.index container selector))
      (assigns : equals.is "=" = true) (computed : Phrase names .expression tokens value) :
      Statement names (target ++ equals :: tokens) (.store container selector value) names
  | print {names : List Bytes} {word : Token} {tokens : List Token} {value : Expr}
      (prints : word.is "print" = true) (computed : Phrase names .expression tokens value) :
      Statement names (word :: tokens) (.print value) names
  | ifThen {names after : List Bytes} {word : Token} {first second : List Token}
      {condition : Expr} {body : Stmt} (tests : word.is "if" = true)
      (computed : Phrase names .expression first condition)
      (inner : Statement names second body after) :
      Statement names (word :: (first ++ second)) (.ifThen condition body) after
  /-- An `else` belongs to the nearest `if` that is open. -/
  | ifElse {names middle after : List Bytes} {word separator : Token}
      {first second third : List Token} {condition : Expr} {body other : Stmt}
      (tests : word.is "if" = true) (computed : Phrase names .expression first condition)
      (inner : Statement names second body middle) (nearest : body.endsOpen = false)
      (separates : separator.is "else" = true) (alternative : Statement middle third other after) :
      Statement names (word :: (first ++ (second ++ separator :: third)))
        (.ifElse condition body other) after
  | loop {names after : List Bytes} {word : Token} {first second : List Token} {condition : Expr}
      {body : Stmt} (repeats : word.is "while" = true)
      (computed : Phrase names .expression first condition)
      (inner : Statement names second body after) :
      Statement names (word :: (first ++ second)) (.loop condition body) after
  | block {names after : List Bytes} {opening closing : Token} {tokens : List Token}
      {body : List Stmt} (opens : opening.is "\x7b" = true)
      (inner : Statements names tokens body after) (closes : closing.is "\x7d" = true) :
      Statement names (opening :: (tokens ++ [closing])) (.block body) after

/-- Statements one after the other. -/
inductive Statements :
    (names : List Bytes) → List Token → List Stmt → (after : List Bytes) → Prop where
  | nil {names : List Bytes} : Statements names [] [] names
  | cons {names middle after : List Bytes} {first second : List Token} {s : Stmt}
      {rest : List Stmt} (head : Statement names first s middle)
      (tail : Statements middle second rest after) :
      Statements names (first ++ second) (s :: rest) after

end

/-- Whole programs: at first no name may be read. -/
def Program (tokens : List Token) (tree : List Stmt) : Prop :=
  ∃ names, Statements [] tokens tree names

/-! What phrases start with. -/

/-- Whether an expression can start with a token. -/
def startsExpression (token : Token) : Bool :=
  token.kind == .ident || token.kind == .int || token.kind == .char || token.kind == .string ||
    token.is "(" || token.is "[" || token.is "-"

mutual

theorem Phrase.starts {names : List Bytes} {category : Category} {tokens : List Token} {e : Expr}
    (phrase : Phrase names category tokens e) :
    ∃ token rest, tokens = token :: rest ∧ startsExpression token = true := by
  match phrase with
  | .operand alone => exact alone.starts
  | .binary before _ _ =>
    obtain ⟨token, rest, rfl, fine⟩ := before.starts
    exact ⟨token, _, rfl, fine⟩
  | .negate sign _ => exact ⟨_, _, rfl, by simp [startsExpression, sign]⟩
  | .plain inner => exact inner.starts
  | .int kind | .char kind | .string kind => exact ⟨_, _, rfl, by simp [startsExpression, kind]⟩
  | .selected inner =>
    obtain ⟨token, rest, rfl, ident⟩ := inner.starts
    exact ⟨token, rest, rfl, by simp [startsExpression, ident]⟩
  | .parentheses opens _ _ | .emptyArray opens _ _ | .array opens _ _ _ _ =>
    exact ⟨_, _, rfl, by simp [startsExpression, opens]⟩

theorem Selected.starts {names : List Bytes} {tokens : List Token} {e : Expr}
    (selected : Selected names tokens e) :
    ∃ token rest, tokens = token :: rest ∧ token.kind = .ident := by
  match selected with
  | .name ident _ => exact ⟨_, _, rfl, ident⟩
  | .index before _ _ _ =>
    obtain ⟨token, rest, rfl, ident⟩ := before.starts
    exact ⟨token, _, rfl, ident⟩

end

/-- What follows a name is a bracket, if anything does. -/
theorem Selected.opens {names : List Bytes} {tokens : List Token} {e : Expr}
    (selected : Selected names tokens e) :
    (∃ name : Token, tokens = [name] ∧ e = .variable name.text) ∨
      ∃ name opening rest, tokens = name :: opening :: rest ∧ opening.is "[" = true := by
  match selected with
  | .name _ _ => exact .inl ⟨_, rfl, rfl⟩
  | .index before opens _ _ =>
    rcases before.opens with ⟨name, rfl, _⟩ | ⟨name, opening, rest, rfl, first⟩
    · exact .inr ⟨name, _, _, rfl, opens⟩
    · exact .inr ⟨name, opening, _, rfl, first⟩

end Grammar

end Onepass.Syntax
