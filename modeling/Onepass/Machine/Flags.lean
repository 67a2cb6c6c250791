import Onepass.Machine.Instr

/-! The condition flags: how operations set them and how conditions read them. -/
namespace Onepass.Machine

structure Flags where
  zero : Bool := false
  sign : Bool := false
  overflow : Bool := false
  carry : Bool := false
deriving DecidableEq

namespace Flags

/-- Zero and sign as a result sets them. -/
def withResult (f : Flags) (result : Word) : Flags :=
  { f with zero := result == 0, sign := result.isNegative }

/-- The flags of a bitwise operation. -/
def ofLogic (result : Word) : Flags := withResult {} result

/-- The flags of `a + b`. -/
def ofAdd (a b : Word) : Flags :=
  let result := a + b
  withResult { carry := result < a, overflow := (~~~(a ^^^ b) &&& (a ^^^ result)).isNegative }
    result

/-- The flags of `a - b`. -/
def ofSub (a b : Word) : Flags :=
  let result := a - b
  withResult { carry := a < b, overflow := ((a ^^^ b) &&& (a ^^^ result)).isNegative } result

/-- Whether the flags of a subtraction mean this outcome of the comparison. -/
def compares (f : Flags) : Comparison → Bool
  | .equal => f.zero
  | .notEqual => !f.zero
  | .less => f.sign != f.overflow
  | .greaterEqual => f.sign == f.overflow
  | .lessEqual => f.zero || f.sign != f.overflow
  | .greater => !f.zero && f.sign == f.overflow

/-- Whether a condition holds. -/
def holds (f : Flags) : Condition → Bool
  | .signed comparison => f.compares comparison
  | .below => f.carry
  | .aboveEqual => !f.carry

/-- The flags whose letters stand in a text. -/
def ofLetters (letters : Bytes) : Flags :=
  let given (c : Char) := letters.contains (Bytes.code c)
  ⟨given 'Z', given 'S', given 'O', given 'C'⟩

/-- The letters of the flags that are set. -/
def letters (f : Flags) : Bytes :=
  let shown (set : Bool) (c : Char) : Bytes := if set then [Bytes.code c] else []
  shown f.zero 'Z' ++ shown f.sign 'S' ++ shown f.overflow 'O' ++ shown f.carry 'C'

end Flags

end Onepass.Machine
