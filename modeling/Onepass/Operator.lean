import Onepass.Machine.Instr
import Onepass.Token

/-! Operators of expressions. -/
namespace Onepass

open Machine (Comparison)

/-- Operators with two operands. -/
inductive Operator
  | add
  | sub
  | mul
  | div
  | compare (comparison : Comparison)
deriving DecidableEq

/-- The levels of binding, loosest first. -/
inductive Operator.Level
  | relational
  | additive
  | multiplicative
deriving DecidableEq

/-- What can be asked of values of a type. -/
inductive Operation
  | binary (operator : Operator)
  | negate
deriving DecidableEq

namespace Operator

/-- The operators of a level. -/
def Level.operators : Level → List Operator
  | .relational => Comparison.all.map .compare
  | .additive => [.add, .sub]
  | .multiplicative => [.mul, .div]

/-- The operator as programs write it. -/
def symbol : Operator → Bytes
  | .add => "+"
  | .sub => "-"
  | .mul => "*"
  | .div => "/"
  | .compare .less => "<"
  | .compare .greater => ">"
  | .compare .lessEqual => "<="
  | .compare .greaterEqual => ">="
  | .compare .equal => "=="
  | .compare .notEqual => "!="

def name : Operator → Bytes
  | .add => "add"
  | .sub => "sub"
  | .mul => "mul"
  | .div => "div"
  | .compare .less => "lt"
  | .compare .greater => "gt"
  | .compare .lessEqual => "le"
  | .compare .greaterEqual => "ge"
  | .compare .equal => "eq"
  | .compare .notEqual => "ne"

/-- The operator of a level that a token stands for. -/
def Level.operator? (level : Level) (t : Token) : Option Operator :=
  if t.kind = .op then level.operators.find? (·.symbol = t.text) else none

end Operator

namespace Operation

def name : Operation → Bytes
  | .binary operator => operator.name
  | .negate => "neg"

def all : List Operation :=
  ((Operator.Level.additive.operators ++ Operator.Level.multiplicative.operators ++
    Operator.Level.relational.operators).map .binary) ++ [.negate]

def ofName? (name : Bytes) : Option Operation := all.find? (·.name = name)

end Operation

end Onepass
