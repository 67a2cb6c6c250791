import Onepass.Text.Bytes

/-! Types of values. Scalars live in the accumulator and directly in frame slots; strings and
arrays are held through a pointer to a header word with the element count, followed by the packed
elements. -/
namespace Onepass

/-- The machine word in bytes. -/
def wordSize : Nat := 4

/-- Words of the frame that a variable of any type takes: a heap value is held by its pointer. -/
def slotSize : Nat := 1

/-- How a value is represented. -/
inductive Shape
  | int
  | char
  | string
  | array (element : Shape)
  /-- A representation outside the language; it behaves like a scalar without operations. -/
  | other
deriving DecidableEq

/-- A type is a shape, marked constant when it is the type of a literal. Elements of arrays are
never constant. -/
structure Ty where
  shape : Shape
  constant : Bool := false
deriving DecidableEq

namespace Shape

/-- The shape as programs write it. -/
def name : Shape → Bytes
  | .int => "int"
  | .char => "char"
  | .string => "string"
  | .array element => "[]" ++ element.name
  | .other => "?"

/-- Whether values are held through a pointer. -/
def isHeap : Shape → Bool
  | .string | .array _ => true
  | _ => false

/-- Bytes a value takes as an array element. -/
def size : Shape → Nat
  | .char => 1
  | _ => wordSize

/-- What indexing selects. -/
def element? : Shape → Option Shape
  | .string => some .char
  | .array element => some element
  | _ => none

/-- The shape a type name denotes. -/
def ofName? (name : Bytes) : Option Shape :=
  [Shape.int, Shape.char, Shape.string].find? fun shape => shape.name == name

end Shape

namespace Ty

/-- The type of variables and elements of a shape. -/
def ofShape (shape : Shape) : Ty := ⟨shape, false⟩

def int : Ty := ofShape .int

def char : Ty := ofShape .char

def string : Ty := ofShape .string

/-- Arrays of elements of a type. -/
def arrayOf (element : Ty) : Ty := ofShape (.array element.shape)

/-- The constant form. -/
def literal (t : Ty) : Ty := { t with constant := true }

/-- The form without the constant mark. -/
def general (t : Ty) : Ty := { t with constant := false }

def name (t : Ty) : Bytes := t.shape.name

def isHeap (t : Ty) : Bool := t.shape.isHeap

def size (t : Ty) : Nat := t.shape.size

/-- The type of elements, for strings and arrays. -/
def element? (t : Ty) : Option Ty := t.shape.element?.map ofShape

/-- Whether values of the two types are represented alike; the constant mark does not count. -/
def compatible (a b : Ty) : Bool := a.shape == b.shape

/-- The type of an operation on two values: constant only when both are. -/
def union? (a b : Ty) : Option Ty :=
  if a.compatible b then some (if a.constant && !b.constant then b else a) else none

/-- Whether two types are known and compatible. -/
def agree : Option Ty → Option Ty → Bool
  | some a, some b => a.compatible b
  | _, _ => false

/-- The type of an operation on two values, if their types are known and compatible. -/
def union : Option Ty → Option Ty → Option Ty
  | some a, some b => a.union? b
  | _, _ => none

end Ty

end Onepass
