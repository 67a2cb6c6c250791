import Onepass.Codegen.Fragment

/-! Code under construction: functions whose bodies are held back until their frame size is final,
captures of code that is placed later, labels and pooled strings. -/
namespace Onepass.Codegen

open Assembly (Code Line)

/-- Wrong uses of a builder. -/
inductive Misuse
  /-- Code was added while no function was open. -/
  | outsideFunction
  /-- A capture was ended that was not begun. -/
  | noCapture
  /-- Storage was reserved while no function was open. -/
  | noFrame
  /-- Elements were asked for of a type that has none. -/
  | noElements
deriving DecidableEq

def Misuse.message : Misuse → Bytes
  | .outsideFunction => "code outside a function"
  | .noCapture => "no capture to end"
  | .noFrame => "storage outside a function"
  | .noElements => "type without elements"

/-- A function under construction. -/
structure Frame where
  name : Bytes
  /-- Bytes of local storage. -/
  size : Int := 0
  body : Code := []
deriving DecidableEq

/-- The state of code generation. -/
structure Builder where
  platform : Platform
  nextLabel : Nat := 0
  /-- Open captures, innermost first. -/
  captures : List Code := []
  /-- The open function. -/
  frame : Option Frame := none
  /-- Closed functions in order. -/
  finished : List Frame := []
  /-- Distinct string literals in the order of first use. -/
  strings : List Bytes := []
deriving DecidableEq

/-- A step of code generation. What was done before a misuse stays done. -/
abbrev Build (α : Type) := ExceptT Misuse (StateM Builder) α

namespace Builder

/-- Adds code to the innermost capture, or to the open function. -/
def emit (code : Code) : Build Unit := do
  let b ← get
  match b.captures, b.frame with
  | inner :: outer, _ => set { b with captures := (inner ++ code) :: outer }
  | [], some frame => set { b with frame := some { frame with body := frame.body ++ code } }
  | [], none => if code = [] then return else throw .outsideFunction

/-- Opens a function. -/
def beginFunction (name : Bytes) : Build Unit :=
  modify fun b => { b with frame := some { name } }

/-- Closes the open function, if there is one. -/
def endFunction : Build Unit :=
  modify fun b =>
    match b.frame with
    | some frame => { b with finished := b.finished ++ [frame], frame := none }
    | none => b

/-- Records the local storage of the open function. -/
def reserve (bytes : Int) : Build Unit := do
  let b ← get
  match b.frame with
  | some frame => set { b with frame := some { frame with size := bytes } }
  | none => throw .noFrame

/-- The code of the open function so far. -/
def body (b : Builder) : Code := (b.frame.map Frame.body).getD []

/-- Starts to capture code. -/
def beginCapture : Build Unit := modify fun b => { b with captures := [] :: b.captures }

/-- Ends the innermost capture and gives its code. -/
def endCapture : Build Code := do
  let b ← get
  match b.captures with
  | inner :: outer =>
    set { b with captures := outer }
    return inner
  | [] => throw .noCapture

/-- A label that was not used before. -/
def newLabel : Build Bytes := do
  let b ← get
  set { b with nextLabel := b.nextLabel + 1 }
  return "L" ++ Numeral.decimal b.nextLabel

/-- The label of the pooled string with an index. -/
def stringLabel (index : Nat) : Bytes := "S" ++ Numeral.decimal index

/-- The label of a string literal, which is pooled when it is new. -/
def addString (value : Bytes) : Build Bytes := do
  let b ← get
  match b.strings.findIdx? (· = value) with
  | some index => return stringLabel index
  | none =>
    set { b with strings := b.strings ++ [value] }
    return stringLabel b.strings.length

/-- Adds code that depends on the platform. -/
def emitFor (code : Platform → Code) : Build Unit := do
  let b ← get
  emit (code b.platform)

/-- Allocates a value of a type with room for elements. -/
def allocateElements (t : Ty) (count : Int) : Build Unit := do
  match t.element? with
  | some element =>
    emitFor fun platform => allocate platform (wrap (wordSize + count * element.size))
  | none => throw .noElements

/-- Checks the index in the accumulator and moves the pointer to the element, less the header. -/
def addOffset (t : Ty) : Build Unit := do
  emit boundsCheck
  match t.element? with
  | some element =>
    emit (scaleIndex element.size)
    emit addIndex
  | none => throw .noElements

/-- The data of the print formats and the pooled strings: each string is aligned and preceded by
its length. -/
def data (b : Builder) : Code :=
  let format (label contents : Bytes) : Code :=
    [.label label, .directive ".asciz" [.text contents]]
  let pooled (value : Bytes) (index : Nat) : Code :=
    [.directive ".align" [.number wordSize], .label (stringLabel index),
      .directive ".long" [.number (wrap value.length)], .directive ".asciz" [.text value]]
  [⟨[], some (.directive b.platform.dataSection)⟩] ++ format formatInt "%d\n" ++
    format formatChar "%c\n" ++ format formatString "%s\n" ++
    (b.strings.zipIdx.flatMap fun (value, index) => pooled value index)

/-- A closed function with its entry and exit. -/
def function (platform : Platform) (frame : Frame) : Code :=
  let name := platform.symbol frame.name
  [.directive ".globl" [.symbol name], .label name, .instruction "pushl" [ebp],
    .instruction "movl" [esp, ebp], .instruction "subl" [constant frame.size, esp]] ++
  frame.body ++
  [.instruction "movl" [constant 0, eax], .instruction "leave" [], .instruction "ret" []]

/-- The routine that ends a program after a failed bounds check. -/
def boundsRoutine (platform : Platform) : Code :=
  [.label boundsLabel] ++
    (if platform.alignsCalls then [.instruction "andl" [constant (-16), esp]] else []) ++
    [.instruction "call" [destination (platform.symbol "abort")]]

/-- The whole program: data, then every closed function. -/
def program (b : Builder) : Code :=
  b.data ++ [.blank, .directive ".text" []] ++ b.finished.flatMap (function b.platform) ++
    boundsRoutine b.platform

/-- The text of the whole program. -/
def text (b : Builder) : Bytes := Assembly.print b.program

end Builder

end Onepass.Codegen
