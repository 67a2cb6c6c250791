import Onepass.Codegen.Fragment
import Onepass.Text.Blank

/-! The variables of a program and their frame slots. Slots are given out in the order of
declaration and never reused. What is known of the type of a variable does not matter for that, so
it is a parameter; a compiled program has variables of `Ty`. -/
namespace Onepass

structure Variable (τ : Type) where
  name : Bytes
  type : τ
  slot : Nat
deriving DecidableEq

namespace Variable

def load (v : Variable Ty) : Assembly.Code := Codegen.load v.type v.slot

def store (v : Variable Ty) : Assembly.Code := Codegen.store v.type v.slot

end Variable

/-- The variables in the order of declaration. -/
structure Scope (τ : Type) where
  entries : List (Variable τ) := []
deriving DecidableEq

namespace Scope

variable {τ : Type}

def find? (s : Scope τ) (name : Bytes) : Option (Variable τ) :=
  s.entries.find? (·.name = name)

/-- Words of the frame in use. -/
def size (s : Scope τ) : Nat := s.entries.length * slotSize

/-- Declares a variable in the next free slot; a known name keeps its variable. -/
def add (s : Scope τ) (name : Bytes) (type : τ) : Variable τ × Scope τ :=
  match s.find? name with
  | some v => (v, s)
  | none =>
    let v : Variable τ := ⟨name, type, s.size⟩
    (v, ⟨s.entries ++ [v]⟩)

/-- One row of the table; `shown` is the text of a type. -/
def row (shown : τ → Bytes) (v : Variable τ) : Bytes :=
  "  " ++ Text.padRight 20 v.name ++ "  Slot: " ++ Numeral.decimal v.slot ++ "  Offset: " ++
    Numeral.decimal (Codegen.frameOffset v.slot) ++ "  Type: " ++ shown v.type ++ "\n"

/-- The variables as a table; `shown` is the text of a type. -/
def table (shown : τ → Bytes) (s : Scope τ) : Bytes :=
  match s.entries with
  | [] => "Locals: (empty)\n"
  | entries =>
    "Locals (" ++ Numeral.decimal s.size ++ " words):\n" ++ entries.flatMap (row shown)

end Scope

end Onepass
