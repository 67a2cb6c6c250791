import Onepass.Operator
import Onepass.Ty

/-! Syntax trees, and how they are shown: expressions fully bracketed, statements with a word for
their form. -/
namespace Onepass.Syntax

inductive Expr
  | int (value : Int32)
  | char (value : Int32)
  | string (value : Bytes)
  | variable (name : Bytes)
  | binary (operator : Operator) (left right : Expr)
  | negate (operand : Expr)
  | index (left selector : Expr)
  /-- An array literal has at least one element. -/
  | array (first : Expr) (rest : List Expr)
  /-- The empty array of a named element type. -/
  | emptyArray (element : Shape)

inductive Stmt
  /-- The first assignment to a name. -/
  | declare (name : Bytes) (value : Expr)
  /-- An assignment to a known variable. -/
  | assign (name : Bytes) (value : Expr)
  /-- An assignment to an element. -/
  | store (container selector value : Expr)
  | print (value : Expr)
  | ifThen (condition : Expr) (body : Stmt)
  | ifElse (condition : Expr) (body other : Stmt)
  | loop (condition : Expr) (body : Stmt)
  | block (body : List Stmt)

mutual

def Expr.render : Expr → Bytes
  | .int value => Numeral.decimal value.toInt
  | .char value => Quoted.char (Quoted.charOfCode value.toInt)
  | .string value => Quoted.text value
  | .variable name => name
  | .binary operator left right =>
    "(" ++ left.render ++ " " ++ operator.symbol ++ " " ++ right.render ++ ")"
  | .negate operand => "(- " ++ operand.render ++ ")"
  | .index left selector => left.render ++ "[" ++ selector.render ++ "]"
  | .array first rest => "[" ++ first.render ++ Expr.renderRest rest ++ "]"
  | .emptyArray element => "[] " ++ element.name

/-- Elements after the first, each after a comma. -/
def Expr.renderRest : List Expr → Bytes
  | [] => []
  | element :: rest => ", " ++ element.render ++ Expr.renderRest rest

end

mutual

def Stmt.render : Stmt → Bytes
  | .declare name value => "Declare(" ++ name ++ " = " ++ value.render ++ ")"
  | .assign name value => "Assign(" ++ name ++ " = " ++ value.render ++ ")"
  | .store container index value =>
    "Assign(" ++ (Expr.index container index).render ++ " = " ++ value.render ++ ")"
  | .print value => "Print(" ++ value.render ++ ")"
  | .ifThen condition body => "If(" ++ condition.render ++ ") " ++ body.render
  | .ifElse condition body other =>
    "If(" ++ condition.render ++ ") " ++ body.render ++ " Else " ++ other.render
  | .loop condition body => "While(" ++ condition.render ++ ") " ++ body.render
  | .block body => "\x7b " ++ Bytes.join "; " (Stmt.renderAll body) ++ " \x7d"

/-- Every statement of a block. -/
def Stmt.renderAll : List Stmt → List Bytes
  | [] => []
  | statement :: rest => statement.render :: Stmt.renderAll rest

end

end Onepass.Syntax
