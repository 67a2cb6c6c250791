import Onepass.Proofs.Assembly.Reading
import Onepass.Proofs.Assembly.Success
import Onepass.Proofs.Generator

/-! What generated code is made of. Every fragment can be read back from its text, uses instructions
of the machine with the operands they take, and refers only to names that the program defines or
that the library has. Only statements place labels. -/
namespace Onepass

open Assembly (Code Line isName isWide)
open Machine (Mnemonic isBranch)
open Syntax (Expr Stmt)

/-- The names that code may use. -/
structure Vocabulary where
  /-- The symbols of the data. -/
  symbol : Bytes → Bool
  /-- The labels that code may jump to. -/
  label : Bytes → Bool
  /-- The labels that code may place. -/
  placed : Bytes → Bool
  /-- The routines that code may call. -/
  routine : Bytes → Bool

namespace Assembly

/-- Whether an instruction can be read back from its text and uses only known names. -/
def Instruction.isWithin (v : Vocabulary) (i : Instruction) : Bool :=
  isName i.mnemonic && i.operands.all Operand.isLegible && i.isClosed v.symbol v.label v.routine

/-- Whether a line can stand in a function: it holds labels or an instruction. -/
def Line.isWithin (v : Vocabulary) : Line → Bool
  | ⟨labels, none⟩ => labels.all fun name => isName name && v.placed name
  | ⟨labels, some (.instruction i)⟩ => labels.isEmpty && i.isWithin v
  | ⟨_, some (.directive _)⟩ => false

/-- Whether code can stand in a function. -/
def Code.isWithin (v : Vocabulary) (code : Code) : Bool := code.all (Line.isWithin v)

/-- Whether code can be read back from its text. -/
def Code.isLegible (code : Code) : Bool := code.all Line.isLegible

section

variable {v : Vocabulary} {code : Code}

@[simp] theorem isWithin_nil : Code.isWithin v [] = true := rfl

@[simp] theorem isWithin_cons (line : Line) (rest : Code) :
    Code.isWithin v (line :: rest) = (line.isWithin v && Code.isWithin v rest) := rfl

@[simp] theorem isWithin_append (first second : Code) :
    Code.isWithin v (first ++ second) = (first.isWithin v && second.isWithin v) :=
  List.all_append

@[simp] theorem isWithin_label (name : Bytes) :
    (Line.label name).isWithin v = (isName name && v.placed name) := by
  simp [Line.label, Line.isWithin]

/-- An instruction that is no branch needs only its symbols. -/
theorem isWithin_instruction {mnemonic : Bytes} {operands : List Operand} {k : Mnemonic}
    (word : isName mnemonic = true) (known : Mnemonic.ofName? mnemonic = some k)
    (plain : isBranch mnemonic = false)
    (arity : (decide (k.arity.1 ≤ operands.length) && decide (operands.length ≤ k.arity.2)) = true)
    (legible : operands.all Operand.isLegible = true)
    (resolved : operands.all (Operand.isResolved v.symbol) = true) :
    (Line.instruction mnemonic operands).isWithin v = true := by
  simp only [Line.instruction, Line.isWithin, Instruction.isWithin, Instruction.isClosed, word,
    known, plain, arity, legible, resolved]
  rfl

theorem isLegible_of_isWithin (fine : code.isWithin v = true) : code.isLegible = true := by
  refine List.all_eq_true.mpr fun line member => ?_
  have whole := List.all_eq_true.mp fine line member
  rcases line with ⟨labels, _ | ⟨_ | _⟩⟩
  · simp_all [Line.isWithin, Line.isLegible]
  · cases whole
  · simp_all [Line.isWithin, Line.isLegible, Instruction.isWithin, Statement.isLegible]

theorem isText_of_isWithin (fine : code.isWithin v = true) : code.all Line.isText = true := by
  refine List.all_eq_true.mpr fun line member => ?_
  have whole := List.all_eq_true.mp fine line member
  rcases line with ⟨labels, _ | ⟨_ | _⟩⟩
  · rfl
  · cases whole
  · simp_all [Line.isWithin, Line.isText]

theorem isClosed_of_isWithin (fine : code.isWithin v = true) {line : Line} (member : line ∈ code) :
    line.isClosed v.symbol v.label v.routine = true := by
  have whole := List.all_eq_true.mp fine line member
  rcases line with ⟨labels, _ | ⟨_ | _⟩⟩
  · rfl
  · rfl
  · simp_all [Line.isWithin, Line.isClosed, Instruction.isWithin]

/-- Code that may place no label has none. -/
theorem labels_of_isWithin {symbol label routine : Bytes → Bool}
    (fine : code.isWithin ⟨symbol, label, fun _ => false, routine⟩ = true) : code.labels = [] := by
  refine List.flatMap_eq_nil_iff.mpr fun line member => ?_
  have whole := List.all_eq_true.mp fine line member
  rcases line with ⟨_ | _, _ | ⟨_ | _⟩⟩ <;> simp_all [Line.isWithin]

end

end Assembly

theorem isWide_wrap (n : Int) : isWide (Codegen.wrap n) = true := by
  have least := Int.le_bmod (x := n) (m := 0x10000000000000000) (by omega)
  have most := Int.bmod_lt (x := n) (m := 0x10000000000000000) (by omega)
  have bounds : -0x8000000000000000 ≤ Codegen.wrap n ∧ Codegen.wrap n < 0x8000000000000000 := by
    unfold Codegen.wrap
    omega
  simpa [isWide] using bounds

/-- A letter followed by a number is a name. -/
theorem isName_numbered {letter : UInt8} (n : Nat) (fine : Assembly.isLetter letter = true) :
    isName (letter :: Numeral.decimal n) = true := by
  have digits : (Numeral.decimal n).all Assembly.isNameByte = true := by
    rw [List.all_eq_true]
    intro b member
    have positive : ¬ (n : Int) < 0 := by omega
    have natural : b ∈ Numeral.natural 10 n := by simpa [Numeral.decimal, positive] using member
    have digit := Assembly.natural_digits n b natural
    simp [Assembly.isNameByte, digit]
  simp [isName, fine, digits]

namespace Codegen

open Assembly (isWithin_instruction)

/-- The local label with a number. -/
def localLabel (n : Nat) : Bytes := "L" ++ Numeral.decimal n

/-- Whether a vocabulary has what the code of a program refers to, when the program has numbers of
strings and of local labels. -/
structure Offers (v : Vocabulary) (platform : Platform) (strings labels : Nat) : Prop where
  bounds : v.label boundsLabel = true
  routine : ∀ name ∈ [Bytes.ofString "printf", Bytes.ofString "malloc"],
    v.routine (platform.symbol name) = true
  format : ∀ name ∈ [formatInt, formatChar, formatString], v.symbol name = true
  string : ∀ index < strings, v.symbol (Builder.stringLabel index) = true
  label : ∀ n < labels, v.label (localLabel n) = true

variable {v : Vocabulary} {platform : Platform} {strings labels : Nat}

theorem Offers.mono {fewer less : Nat} (offers : Offers v platform strings labels)
    (first : fewer ≤ strings) (second : less ≤ labels) : Offers v platform fewer less where
  bounds := offers.bounds
  routine := offers.routine
  format := offers.format
  string index bound := offers.string index (by omega)
  label n bound := offers.label n (by omega)

@[simp] theorem isName_localLabel (n : Nat) : isName (localLabel n) = true := isName_numbered n rfl

@[simp] theorem isName_stringLabel (n : Nat) : isName (Builder.stringLabel n) = true :=
  isName_numbered n rfl

@[simp] theorem isLegible_register (name : Bytes) :
    Assembly.Operand.isLegible (.register name) = Assembly.isRegisterName name := rfl

@[simp] theorem isLegible_constant (n : Int) : (constant n).isLegible = true := isWide_wrap n

@[simp] theorem isLegible_address (name : Bytes) : (address name).isLegible = isName name := rfl

@[simp] theorem isLegible_based (offset : Int) (base : Bytes) :
    (based offset base).isLegible = Assembly.isRegisterName base := by
  simp [based, Assembly.Operand.isLegible, Assembly.Value.isLegible, isWide_wrap]

@[simp] theorem isResolved_constant (symbol : Bytes → Bool) (n : Int) :
    (constant n).isResolved symbol = true := rfl

@[simp] theorem isResolved_address (symbol : Bytes → Bool) (name : Bytes) :
    (address name).isResolved symbol = symbol name := rfl

@[simp] theorem isResolved_based (symbol : Bytes → Bool) (offset : Int) (base : Bytes) :
    (based offset base).isResolved symbol = true := rfl

/-- A branch to a label that code may jump to. -/
theorem isWithin_branch {mnemonic name : Bytes} {k : Mnemonic} (word : isName mnemonic = true)
    (known : Mnemonic.ofName? mnemonic = some k) (arity : k.arity = (1, 1))
    (branch : isBranch mnemonic = true) (inside : mnemonic ≠ Bytes.ofString "call")
    (legible : isName name = true) (there : v.label name = true) :
    (Line.instruction mnemonic [destination name]).isWithin v = true := by
  simp [Line.instruction, Line.isWithin, Assembly.Instruction.isWithin,
    Assembly.Instruction.isClosed, word, known, arity, branch, inside, legible, there, destination,
    Assembly.Operand.isLegible, Assembly.Value.isLegible]

/-- A call of a routine that code may call. -/
theorem isWithin_call {name : Bytes} (legible : isName name = true)
    (there : v.routine name = true) :
    (Line.instruction "call" [destination name]).isWithin v = true := by
  have word : isName "call" = true := rfl
  have known : Mnemonic.ofName? "call" = some .call := rfl
  have branch : isBranch "call" = true := rfl
  simp [Line.instruction, Line.isWithin, Assembly.Instruction.isWithin,
    Assembly.Instruction.isClosed, word, known, branch, legible, there, destination,
    Assembly.Operand.isLegible, Assembly.Value.isLegible, Mnemonic.arity]

theorem isWithin_loadInt (value : Int32) : (loadInt value).isWithin v = true := by
  rw [loadInt, Assembly.isWithin_cons,
    isWithin_instruction (k := .movl) rfl rfl rfl rfl (by simp +decide) rfl]
  rfl

theorem isWithin_load (type : Ty) (slot : Int) : (load type slot).isWithin v = true := by
  have line (register : Bytes) (fine : Assembly.isRegisterName register = true) :
      (Line.instruction "movl" [slotOperand slot, .register register]).isWithin v = true :=
    isWithin_instruction (k := .movl) rfl rfl rfl rfl
      (by simp +decide [slotOperand, fine]) rfl
  unfold load
  split
  · exact Bool.and_eq_true_iff.mpr ⟨line "esi" rfl, rfl⟩
  · exact Bool.and_eq_true_iff.mpr ⟨line "eax" rfl, rfl⟩

theorem isWithin_store (type : Ty) (slot : Int) : (store type slot).isWithin v = true := by
  have line (register : Bytes) (fine : Assembly.isRegisterName register = true) :
      (Line.instruction "movl" [.register register, slotOperand slot]).isWithin v = true :=
    isWithin_instruction (k := .movl) rfl rfl rfl rfl
      (by simp +decide [slotOperand, fine]) rfl
  unfold store
  split
  · exact Bool.and_eq_true_iff.mpr ⟨line "esi" rfl, rfl⟩
  · exact Bool.and_eq_true_iff.mpr ⟨line "eax" rfl, rfl⟩

theorem isWithin_operator (o : Operator) : (operator o).isWithin v = true := by
  rcases o with _ | _ | _ | _ | comparison
  · rfl
  · rfl
  · rfl
  · rfl
  · cases comparison <;> rfl

theorem isWithin_loadAt (type : Ty) : (loadAt type wordSize).isWithin v = true := by
  rcases type with ⟨_ | _ | _ | _ | _, _⟩ <;> rfl

theorem isWithin_storeAt (type : Ty) (offset : Int) :
    (storeAt type "edx" offset).isWithin v = true := by
  have line {mnemonic register : Bytes} {k : Mnemonic} (word : isName mnemonic = true)
      (known : Mnemonic.ofName? mnemonic = some k) (plain : isBranch mnemonic = false)
      (arity : k.arity = (2, 2)) (fine : Assembly.isRegisterName register = true) :
      Code.isWithin v [.instruction mnemonic [.register register, based offset "edx"]] = true := by
    rw [Assembly.isWithin_cons, isWithin_instruction word known plain (by rw [arity]; rfl)
      (by simp +decide [fine]) rfl]
    rfl
  rcases type with ⟨_ | _ | _ | _ | _, _⟩ <;> exact line rfl rfl rfl rfl rfl

theorem isWithin_scaleIndex (shape : Shape) : (scaleIndex shape.size).isWithin v = true := by
  have sizes : shape.size = 1 ∨ shape.size = 4 := by cases shape <;> simp [Shape.size, wordSize]
  rcases sizes with size | size <;> rw [size] <;> rfl

theorem isWithin_setLength (count : Int) : (setLength count).isWithin v = true := by
  rw [setLength, Assembly.isWithin_cons,
    isWithin_instruction (k := .movl) rfl rfl rfl rfl (by simp; rfl) rfl]
  rfl

theorem isWithin_alignCall (words : Nat) : (alignCall platform words).isWithin v = true := by
  have save : (Line.instruction "movl" [esp, edi]).isWithin v = true := rfl
  have round : (Line.instruction "andl" [constant (-16), esp]).isWithin v = true := rfl
  have pad : (Line.instruction "subl" [constant (argumentPadding words : Nat), esp]).isWithin v =
      true := isWithin_instruction (k := .arithmetic .sub) rfl rfl rfl rfl (by simp; rfl) rfl
  unfold alignCall
  split
  · split <;> simp [save, round, pad]
  · rfl

theorem isWithin_callRoutine {name : Bytes} (legible : isName (platform.symbol name) = true)
    (there : v.routine (platform.symbol name) = true) (words : Nat) :
    (callRoutine platform name words).isWithin v = true := by
  have restore : (Line.instruction "movl" [edi, esp]).isWithin v = true := rfl
  have drop : (dropWords words).isWithin v = true :=
    isWithin_instruction (k := .arithmetic .add) rfl rfl rfl rfl (by simp; rfl) rfl
  unfold callRoutine
  split <;> simp [isWithin_call legible there, restore, drop]

theorem isName_symbol {name : Bytes} (legible : isName name = true) :
    isName (platform.symbol name) = true := by
  have bytes : name.all Assembly.isNameByte = true := by
    cases name with
    | nil => cases legible
    | cons first rest => simp_all [isName, Assembly.isNameByte]
  cases platform with
  | linux => exact legible
  | windows | darwin => exact bytes

theorem isWithin_allocate (offers : Offers v platform strings labels) (bytes : Int) :
    (allocate platform bytes).isWithin v = true := by
  have push : (Line.instruction "pushl" [constant bytes]).isWithin v = true :=
    isWithin_instruction (k := .pushl) rfl rfl rfl rfl (by simp) rfl
  have point : (Line.instruction "movl" [eax, esi]).isWithin v = true := rfl
  have call : (callRoutine platform "malloc" 1).isWithin v = true :=
    isWithin_callRoutine (isName_symbol rfl) (offers.routine _ (by simp)) 1
  simp [allocate, isWithin_alignCall, push, call, point]

theorem isWithin_printFormat (offers : Offers v platform strings labels) {format : Bytes}
    (known : format ∈ [formatInt, formatChar, formatString]) :
    (printFormat platform format).isWithin v = true := by
  have legible : isName format = true := by
    simp only [List.mem_cons, List.not_mem_nil, or_false] at known
    rcases known with rfl | rfl | rfl <;> rfl
  have push : (Line.instruction "pushl" [eax]).isWithin v = true := rfl
  have point : (Line.instruction "pushl" [address format]).isWithin v = true :=
    isWithin_instruction (k := .pushl) rfl rfl rfl rfl (by simp [legible])
      (by simp [offers.format format known])
  have call : (callRoutine platform "printf" 2).isWithin v = true :=
    isWithin_callRoutine (isName_symbol rfl) (offers.routine _ (by simp)) 2
  simp [printFormat, isWithin_alignCall, push, call, point]

theorem isWithin_print? (offers : Offers v platform strings labels) (type : Ty) :
    ((print? platform type).getD []).isWithin v = true := by
  have shift : (Line.instruction "leal" [based wordSize "esi", eax]).isWithin v = true := rfl
  rcases type with ⟨_ | _ | _ | _ | _, _⟩
  · exact isWithin_printFormat offers (by simp)
  · exact isWithin_printFormat offers (by simp)
  · exact Bool.and_eq_true_iff.mpr ⟨shift, isWithin_printFormat offers (by simp)⟩
  · rfl
  · rfl

theorem isWithin_boundsCheck (offers : Offers v platform strings labels) :
    boundsCheck.isWithin v = true := by
  have compare : (Line.instruction "cmpl" [.based none "esi", eax]).isWithin v = true := rfl
  have jump : (Line.instruction "jae" [destination boundsLabel]).isWithin v = true :=
    isWithin_branch (k := .jump .aboveEqual) rfl rfl rfl rfl (by decide) rfl offers.bounds
  simp [boundsCheck, compare, jump]

theorem isWithin_jumpIfFalse {name : Bytes} (legible : isName name = true)
    (there : v.label name = true) : (jumpIfFalse name).isWithin v = true := by
  have test : (Line.instruction "orl" [eax, eax]).isWithin v = true := rfl
  have jump : (Line.instruction "je" [destination name]).isWithin v = true :=
    isWithin_branch (k := .jump (.signed .equal)) rfl rfl rfl rfl (by decide) legible there
  simp [jumpIfFalse, test, jump]

theorem isWithin_jump {name : Bytes} (legible : isName name = true) (there : v.label name = true) :
    (jump name).isWithin v = true := by
  have line : (Line.instruction "jmp" [destination name]).isWithin v = true :=
    isWithin_branch (k := .jmp) rfl rfl rfl rfl (by decide) legible there
  simp [jump, line]

theorem isWithin_loadAddress {name : Bytes} (legible : isName name = true)
    (there : v.symbol name = true) : (loadAddress name).isWithin v = true := by
  rw [loadAddress, Assembly.isWithin_cons, isWithin_instruction (k := .movl) rfl rfl rfl rfl
    (by simp [legible]; rfl) (by simp [there]; rfl)]
  rfl

end Codegen

namespace Generator

open Codegen

/-! What generation adds. -/

theorem newLabel_eq (g : Generator) :
    g.newLabel = (localLabel g.nextLabel, { g with nextLabel := g.nextLabel + 1 }) := rfl

variable {v : Vocabulary} (platform : Platform)

theorem pool_label (value : Bytes) (g : Generator) :
    ∃ index < (g.pool value).2.strings.length, (g.pool value).1 = Builder.stringLabel index := by
  unfold pool
  split
  · rename_i index found
    exact ⟨index, (List.findIdx?_eq_some_iff_getElem.mp found).1, rfl⟩
  · exact ⟨g.strings.length, by simp, rfl⟩

theorem strings_pool (value : Bytes) (g : Generator) : g.strings <+: (g.pool value).2.strings := by
  unfold pool
  split
  · exact List.prefix_rfl
  · exact List.prefix_append ..

mutual

/-- Expressions only add strings. -/
theorem strings_expression (e : Expr) (g : Generator) :
    g.strings <+: (g.expression platform e).2.strings := by
  match e with
  | .int _ | .char _ | .variable _ | .emptyArray _ => exact List.prefix_rfl
  | .string value => exact strings_pool value g
  | .binary _ left right =>
    exact (strings_expression left g).trans (strings_expression right _)
  | .negate operand => exact strings_expression operand g
  | .index left selector =>
    exact (strings_expression left g).trans (strings_expression selector _)
  | .array first rest =>
    exact (strings_expression first g).trans (strings_elements _ rest _ _)

theorem strings_elements (element : Shape) (rest : List Expr) (position : Nat) (g : Generator) :
    g.strings <+: (g.elements platform element position rest).2.strings := by
  match rest with
  | [] => exact List.prefix_rfl
  | first :: others =>
    exact (strings_expression first g).trans (strings_elements element others _ _)

end

mutual

/-- Expressions take no labels. -/
theorem nextLabel_expression (e : Expr) (g : Generator) :
    (g.expression platform e).2.nextLabel = g.nextLabel := by
  match e with
  | .int _ | .char _ | .variable _ | .emptyArray _ => rfl
  | .string value => exact pool_nextLabel value g
  | .binary _ left right =>
    exact (nextLabel_expression right _).trans (nextLabel_expression left g)
  | .negate operand => exact nextLabel_expression operand g
  | .index left selector =>
    exact (nextLabel_expression selector _).trans (nextLabel_expression left g)
  | .array first rest =>
    exact (nextLabel_elements _ rest _ _).trans (nextLabel_expression first g)

theorem nextLabel_elements (element : Shape) (rest : List Expr) (position : Nat) (g : Generator) :
    (g.elements platform element position rest).2.nextLabel = g.nextLabel := by
  match rest with
  | [] => rfl
  | first :: others =>
    exact (nextLabel_elements element others _ _).trans (nextLabel_expression first g)

end

/-- Whether a vocabulary has the names that a generator has made so far. -/
def Known (v : Vocabulary) (g : Generator) : Prop :=
  Offers v platform g.strings.length g.nextLabel

variable {platform}

theorem Known.of_expression {e : Expr} {g : Generator}
    (known : Known platform v (g.expression platform e).2) : Known platform v g :=
  Offers.mono known (strings_expression platform e g).length_le
    (nextLabel_expression platform e g).ge

theorem Known.of_elements {element : Shape} {position : Nat} {g : Generator} (rest : List Expr)
    (known : Known platform v (g.elements platform element position rest).2) : Known platform v g :=
  Offers.mono known (strings_elements platform element rest position g).length_le
    (nextLabel_elements platform element rest position g).ge

theorem isWithin_selection {g : Generator} {container selector : Code} (known : Known platform v g)
    (first : container.isWithin v = true) (second : selector.isWithin v = true) (element : Shape) :
    (selection container selector element).isWithin v = true := by
  have push : pushPointer.isWithin v = true := rfl
  have pop : popPointer.isWithin v = true := rfl
  have add : addIndex.isWithin v = true := rfl
  simp [selection, first, second, push, pop, add, isWithin_boundsCheck known, isWithin_scaleIndex]

theorem isWithin_storeElement (element : Shape) (position : Nat) :
    (storeElement element position).isWithin v = true := by
  have peek : (peekBase "edx").isWithin v = true := rfl
  simp only [storeElement, Assembly.isWithin_append, peek, isWithin_storeAt, Bool.and_self]

theorem isWithin_allocation {g : Generator} (known : Known platform v g) (element : Shape)
    (count : Nat) : (allocation platform element count).isWithin v = true := by
  simp [allocation, isWithin_allocate known, isWithin_setLength]

mutual

theorem isWithin_expression (e : Expr) (g : Generator)
    (known : Known platform v (g.expression platform e).2) :
    (g.expression platform e).1.isWithin v = true := by
  match e with
  | .int value | .char value => exact isWithin_loadInt value
  | .string value =>
    obtain ⟨index, bound, label⟩ := pool_label value g
    simp only [expression, label]
    exact isWithin_loadAddress (isName_stringLabel index) (known.string index bound)
  | .variable name =>
    simp only [expression]
    cases g.scope.find? name with
    | none => rfl
    | some found => exact isWithin_load found.type found.slot
  | .binary operator left right =>
    have first := isWithin_expression left g (Known.of_expression (e := right) known)
    have second := isWithin_expression right (g.expression platform left).2 known
    have push : pushScalar.isWithin v = true := rfl
    simp [expression, first, second, push, isWithin_operator]
  | .negate operand =>
    have inner := isWithin_expression operand g known
    have negate : Codegen.negate.isWithin v = true := rfl
    simp [expression, inner, negate]
  | .index left selector =>
    have first := isWithin_expression left g (Known.of_expression (e := selector) known)
    have second := isWithin_expression selector (g.expression platform left).2 known
    simp [expression, isWithin_selection known first second, isWithin_loadAt]
  | .array first rest =>
    have head := isWithin_expression first g (Known.of_elements rest known)
    have others := isWithin_elements (g.shapeOf first) rest 1 (g.expression platform first).2 known
    have push : pushPointer.isWithin v = true := rfl
    have pop : popPointer.isWithin v = true := rfl
    simp [expression, isWithin_allocation known, head, others, isWithin_storeElement, push, pop]
  | .emptyArray element => exact isWithin_allocation known element 0

theorem isWithin_elements (element : Shape) (rest : List Expr) (position : Nat) (g : Generator)
    (known : Known platform v (g.elements platform element position rest).2) :
    (g.elements platform element position rest).1.isWithin v = true := by
  match rest with
  | [] => rfl
  | first :: others =>
    have head := isWithin_expression first g (Known.of_elements others known)
    have tail := isWithin_elements element others (position + 1) (g.expression platform first).2
      known
    simp [elements, head, isWithin_storeElement, tail]

end

/-- Expressions place no labels. -/
@[simp] theorem labels_expression (e : Expr) (g : Generator) :
    (g.expression platform e).1.labels = [] :=
  Assembly.labels_of_isWithin (isWithin_expression e g
    (v := ⟨fun _ => true, fun _ => true, fun _ => false, fun _ => true⟩)
    ⟨rfl, fun _ _ => rfl, fun _ _ => rfl, fun _ _ => rfl, fun _ _ => rfl⟩)

mutual

/-- Statements only add strings. -/
theorem strings_statement (s : Stmt) (g : Generator) :
    g.strings <+: (g.statement platform s).2.strings := by
  match s with
  | .declare _ value | .assign _ value => exact strings_expression platform value g
  | .store container selector value =>
    exact ((strings_expression platform container g).trans (strings_expression platform selector _)).trans
      (strings_expression platform value _)
  | .print value => exact strings_expression platform value g
  | .ifThen condition body =>
    exact (strings_expression platform condition g).trans
      (strings_statement body (newLabel _).2)
  | .ifElse condition body other =>
    exact ((strings_expression platform condition g).trans
      (strings_statement body (newLabel _).2)).trans (strings_statement other (newLabel _).2)
  | .loop condition body =>
    exact (strings_expression platform condition g.newLabel.2.newLabel.2).trans
      (strings_statement body _)
  | .block body => exact strings_statements body g

theorem strings_statements (body : List Stmt) (g : Generator) :
    g.strings <+: (g.statements platform body).2.strings := by
  match body with
  | [] => exact List.prefix_rfl
  | first :: rest => exact (strings_statement first g).trans (strings_statements rest _)

end

mutual

/-- Statements only take labels. -/
theorem nextLabel_statement (s : Stmt) (g : Generator) :
    g.nextLabel ≤ (g.statement platform s).2.nextLabel := by
  match s with
  | .declare _ value | .assign _ value => exact (nextLabel_expression platform value g).ge
  | .store container selector value =>
    have first := nextLabel_expression platform container g
    have second := nextLabel_expression platform selector (g.expression platform container).2
    exact (((nextLabel_expression platform value _).trans second).trans first).ge
  | .print value => exact (nextLabel_expression platform value g).ge
  | .ifThen condition body =>
    have test := nextLabel_expression platform condition g
    have inner := nextLabel_statement body (g.expression platform condition).2.newLabel.2
    exact le_trans (test.ge.trans (Nat.le_succ _)) inner
  | .ifElse condition body other =>
    have test := nextLabel_expression platform condition g
    have first := nextLabel_statement body (g.expression platform condition).2.newLabel.2
    have second := nextLabel_statement other (newLabel (statement platform body
      (g.expression platform condition).2.newLabel.2).2).2
    exact (le_trans (test.ge.trans (Nat.le_succ _)) first).trans (le_trans (Nat.le_succ _) second)
  | .loop condition body =>
    have test := nextLabel_expression platform condition g.newLabel.2.newLabel.2
    have inner := nextLabel_statement body
      (g.newLabel.2.newLabel.2.expression platform condition).2
    exact le_trans (Nat.le_add_right g.nextLabel 2) (test.ge.trans inner)
  | .block body => exact nextLabel_statements body g

theorem nextLabel_statements (body : List Stmt) (g : Generator) :
    g.nextLabel ≤ (g.statements platform body).2.nextLabel := by
  match body with
  | [] => exact le_refl _
  | first :: rest => exact le_trans (nextLabel_statement first g) (nextLabel_statements rest _)

end

theorem Known.of_statement {s : Stmt} {g : Generator}
    (known : Known platform v (g.statement platform s).2) : Known platform v g :=
  Offers.mono known (strings_statement s g).length_le (nextLabel_statement s g)

theorem Known.of_statements {g : Generator} (body : List Stmt)
    (known : Known platform v (g.statements platform body).2) : Known platform v g :=
  Offers.mono known (strings_statements body g).length_le (nextLabel_statements body g)

theorem Known.of_newLabel {g : Generator} (known : Known platform v g.newLabel.2) :
    Known platform v g :=
  Offers.mono known (le_refl _) (Nat.le_succ _)

/-- The label just made is known. -/
theorem Known.newLabel {g : Generator} (known : Known platform v g.newLabel.2) :
    v.label g.newLabel.1 = true :=
  known.label g.nextLabel (Nat.lt_succ_self _)

theorem isName_newLabel (g : Generator) : isName g.newLabel.1 = true :=
  isName_localLabel g.nextLabel

mutual

theorem isWithin_statement (places : ∀ n, v.placed (localLabel n) = true) (s : Stmt)
    (g : Generator) (known : Known platform v (g.statement platform s).2) :
    (g.statement platform s).1.isWithin v = true := by
  have place (g : Generator) : (Codegen.label g.newLabel.1).isWithin v = true := by
    simp [Codegen.label, newLabel_eq, places]
  match s with
  | .declare name value | .assign name value =>
    have computed := isWithin_expression value g known
    simp [statement, assignment, computed, Variable.store, isWithin_store]
  | .store container selector value =>
    have middle := Known.of_expression (e := value) known
    have first := isWithin_expression container g (Known.of_expression (e := selector) middle)
    have second := isWithin_expression selector (g.expression platform container).2 middle
    have third := isWithin_expression value _ known
    have push : pushPointer.isWithin v = true := rfl
    have pop : (popBase "edx").isWithin v = true := rfl
    simp [statement, isWithin_selection known first second, third, push, pop, isWithin_storeAt]
  | .print value =>
    have computed := isWithin_expression value g known
    simp [statement, computed, isWithin_print? known]
  | .ifThen condition body =>
    have after := Known.of_statement (s := body) known
    have test := isWithin_expression condition g after.of_newLabel
    have inner := isWithin_statement places body (g.expression platform condition).2.newLabel.2 known
    simp [statement, test, inner, place, isWithin_jumpIfFalse (isName_newLabel _) after.newLabel]
  | .ifElse condition body other =>
    have finish := Known.of_statement (s := other) known
    have after := Known.of_statement (s := body) finish.of_newLabel
    have test := isWithin_expression condition g after.of_newLabel
    have first := isWithin_statement places body (g.expression platform condition).2.newLabel.2
      finish.of_newLabel
    have second := isWithin_statement places other (newLabel (statement platform body
      (g.expression platform condition).2.newLabel.2).2).2 known
    simp [statement, test, first, second, place, isWithin_jump (isName_newLabel _) finish.newLabel,
      isWithin_jumpIfFalse (isName_newLabel _) after.newLabel]
  | .loop condition body =>
    have before := Known.of_statement (s := body) known
    have exit := Known.of_expression (e := condition) before
    have test := isWithin_expression condition g.newLabel.2.newLabel.2 before
    have inner := isWithin_statement places body
      (g.newLabel.2.newLabel.2.expression platform condition).2 known
    simp [statement, test, inner, place,
      isWithin_jump (isName_newLabel _) (Known.newLabel exit.of_newLabel),
      isWithin_jumpIfFalse (isName_newLabel _) exit.newLabel]
  | .block body => exact isWithin_statements places body g known

theorem isWithin_statements (places : ∀ n, v.placed (localLabel n) = true) (body : List Stmt)
    (g : Generator) (known : Known platform v (g.statements platform body).2) :
    (g.statements platform body).1.isWithin v = true := by
  match body with
  | [] => rfl
  | first :: rest =>
    have head := isWithin_statement places first g (Known.of_statements rest known)
    have tail := isWithin_statements places rest (g.statement platform first).2 known
    simp [statements, head, tail]

end

end Generator

end Onepass
